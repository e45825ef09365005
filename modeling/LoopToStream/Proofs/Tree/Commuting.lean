import LoopToStream.Proofs.Tree.Around
import LoopToStream.Proofs.Tree.OneLine

/-!
# Rewrites that commute

Two rewrites of a tree that give up statements beside each other can be made in either order. The
tables that come out differ, since the nodes that a rewrite adds get the ids that are free when it
is made. What is printed is the same (`Respelled.text_eq`), provided that each rewrite places code
with the same lines in both orders.

`Tree.Respelled` is a rewrite that is known by the lines of what it places. Outside of what both
rewrites give up, a layer after both has each of its parts exchanged twice, of which one exchange at
most is not idle (`Respelled.lines_twice`). So the layers of the two outcomes have parts with the
same lines, and by induction on the code, the lines of all code outside are the same.
-/

namespace LoopToStream

namespace Tree

variable {tree mid last mid' last' next : Tree} {given placed given' placed' : List NodeId}
  {c n x : NodeId} {kind : Kind NodeId} {lines lines' : List Fragment}

/-- **A rewrite** that is known by the lines of what it has put in place. -/
structure Respelled (tree next : Tree) (given placed : List NodeId) (lines : List Fragment) : Prop
    extends Revised tree next given placed where
  vars_eq : next.vars = tree.vars
  lines_eq : placed.map next.line = lines
  placed_attached : ∀ x ∈ placed, next.Attached x ∧ ¬ tree.Outside given x
  /-- Where there is room for one part only, one is placed for one. -/
  room : ∀ n kind, tree.Attached n → tree.kind? n = some kind →
      kind.stmt?.any Stmt.isBlock = false →
    ∀ c ∈ kind.children, ∃ d, exchange given placed c = [d]

/-- The lines that are put in the place of a part that is given up. -/
def exchangedLines (given : List NodeId) (lines : List Fragment) (c : NodeId) : List Fragment :=
  if given.head? = some c then lines else []

namespace Respelled

/-- What is put in the place of a part that is given up has the lines that the rewrite is known by.
-/
theorem map_line_exchange (h : tree.Respelled next given placed lines) (hc : c ∈ given) :
    (exchange given placed c).map next.line = exchangedLines given lines c := by
  unfold exchange exchangedLines
  split
  · exact h.lines_eq
  · simp

section InARow

variable (h : tree.Respelled mid given placed lines) (h' : mid.Respelled last given' placed' lines')
  (hbeside : ∀ g ∈ given', tree.Beside given g)
include h h' hbeside

/-- **The lines after both rewrites**, in the place of a part of before. -/
theorem lines_twice (c : NodeId) :
    ((exchange given placed c).flatMap (exchange given' placed')).map last.line =
      if c ∈ given then exchangedLines given lines c
      else if c ∈ given' then exchangedLines given' lines' c
      else [last.line c] := by
  split
  · next hc =>
    -- what the first one has placed is left alone by the second one
    have hstay : ∀ x ∈ exchange given placed c, mid.Beside given' x := by
      intro x hx
      unfold exchange at hx
      split at hx
      · obtain ⟨hattached, hno⟩ := h.placed_attached x hx
        exact h.beside_placed hbeside hattached hno
      · simp at hx
    have hself : (exchange given placed c).flatMap (exchange given' placed') =
        exchange given placed c :=
      (List.flatMap_congr fun x hx => exchange_of_notMem (hstay x hx).notMem).trans
        (List.flatMap_singleton' _)
    rw [hself, ← h.map_line_exchange hc]
    refine List.map_congr_left fun x hx => ?_
    have hx := hstay x hx
    exact (h'.sameBelow hx).line_eq (h'.before.grounded hx.attached) h'.vars_eq
  · -- what the first one leaves alone is placed by the second one, or left alone
    next hc =>
    rw [exchange_of_notMem hc, List.flatMap_singleton]
    split
    · next hc' => exact h'.map_line_exchange hc'
    · next hc' => rw [exchange_of_notMem hc', List.map_singleton]

/-- **A layer after both rewrites**, outside of what they give up. -/
theorem kind?_twice (hn : tree.Outside given n) (hn' : tree.Outside given' n)
    (hkind : tree.kind? n = some kind) :
    last.kind? n = some (kind.graft fun c =>
        (exchange given placed c).flatMap (exchange given' placed')) ∧
      (kind.stmt?.any Stmt.isBlock = false → ∀ c ∈ kind.children,
        (exchange given placed c).flatMap (exchange given' placed') ≠ []) := by
  have hmid : mid.kind? n = some (kind.graft (exchange given placed)) := by
    rw [h.kind?_eq hn, hkind, Option.map_some]
  have hout := h.outside_next hbeside hn hn'
  have hone := h.room n kind hn.attached hkind
  -- the exchanged part is a part of the layer in between
  have htwo : kind.stmt?.any Stmt.isBlock = false → ∀ c ∈ kind.children,
      ∀ d ∈ exchange given placed c, ∃ e, exchange given' placed' d = [e] := by
    intro hno c hc d hd
    rcases Kind.graft_cases (exchange given placed) kind with ⟨stmts, rfl, -⟩ | ⟨-, hgraft⟩
    · cases hno
    refine h'.room n _ hout.attached hmid (by rw [hgraft, Kind.isBlock_map, hno]) d ?_
    obtain ⟨e, he⟩ := hone hno c hc
    rw [hgraft, Kind.children_map]
    refine List.mem_map.2 ⟨c, hc, ?_⟩
    rw [he] at hd ⊢
    exact (List.mem_singleton.1 hd).symm
  -- grafting twice is grafting what has come of each part after both
  refine ⟨?_, fun hno c hc => ?_⟩
  · rw [h'.kind?_eq hout, hmid, Option.map_some, Kind.graft_graft hone fun hno c hc d hd => ?_]
    obtain ⟨e, he⟩ := htwo hno c hc d hd
    simp [he]
  · obtain ⟨d, hd⟩ := hone hno c hc
    obtain ⟨e, he⟩ := htwo hno c hc d (by simp [hd])
    simp [hd, he]

end InARow

section BothOrders

variable (h : tree.Respelled mid given placed lines) (h' : mid.Respelled last given' placed' lines')
  {placed₂ placed₂' : List NodeId}
  (k' : tree.Respelled mid' given' placed₂' lines') (k : mid'.Respelled last' given placed₂ lines)
  (hbeside : ∀ g ∈ given', tree.Beside given g) (hbeside' : ∀ g ∈ given, tree.Beside given' g)
include h h' k' k hbeside hbeside'

/-- **The lines outside** are the same after both orders. By induction on the code. -/
theorem line_eq (hn : tree.Outside given n) (hn' : tree.Outside given' n) :
    last'.line n = last.line n := by
  have hg := h.before.grounded hn.attached
  induction hg with
  | @layer n kind here below ih =>
    -- the layer after either order is made of the same lines, part by part
    obtain ⟨hlast, hne⟩ := h.kind?_twice h' hbeside hn hn' here
    obtain ⟨hlast', hne'⟩ := k'.kind?_twice k hbeside' hn' hn here
    have hvars : last'.vars = last.vars := by rw [k.vars_eq, k'.vars_eq, h'.vars_eq, h.vars_eq]
    refine h'.after.line_congr k.after (h'.attached (h.outside_next hbeside hn hn'))
      (k.attached (k'.outside_next hbeside' hn' hn)) hlast hlast' hvars ?_
    refine Kind.map_graft_congr (fun c hc => ?_) hne'
    rw [h.lines_twice h' hbeside, k'.lines_twice k hbeside']
    by_cases hc₁ : c ∈ given
    · have hc₂ : c ∉ given' := (hbeside' c hc₁).notMem
      simp [hc₁, hc₂]
    · by_cases hc₂ : c ∈ given'
      · simp [hc₁, hc₂]
      · have hpart : c ∈ tree.parts n := parts_eq_children here ▸ hc
        simp [hc₁, hc₂, ih c hc (hn.of_mem h.before h.given_attached hpart hc₁)
          (hn'.of_mem h.before k'.given_attached hpart hc₂)]

/-- **Two rewrites beside each other commute**: in either order, they leave the same text. -/
theorem text_eq : last'.text last'.root = last.text last.root := by
  have hroot : last.root = tree.root := h'.root_eq.trans h.root_eq
  have hroot' : last'.root = tree.root := k.root_eq.trans k'.root_eq
  have hline := h.line_eq h' k' k hbeside hbeside' h.outside_root k'.outside_root
  rw [h'.after.text_eq_line attached_root, k.after.text_eq_line attached_root, hroot, hroot', hline]

end BothOrders

end Respelled

end Tree

end LoopToStream
