import LoopToStream.Proofs.Tree.Commit
import LoopToStream.Proofs.Tree.Grafting
import LoopToStream.Proofs.Tree.Splice

/-!
# Well-formed trees after an edit

A tree stays well-formed under an edit that gives up some subtrees, keeps parts of them, and puts
staged code with the kept parts in their place. `Tree.Salvage` is what is asked of the parts that
are kept: they do not overlap, and what hangs in the tree hangs below what is given up.

* `Edit.Sound.replaced` — a node is replaced, perhaps behind comments saved from below it;
* `Edit.Sound.folded` — the initial value of a declaration is replaced, and the statement behind
  the declaration given up.

Both say that the tree afterwards is well-formed, bound what hangs in it (`Tree.Regrown`), and
follow the landmarks: those of what is kept stand where those of what is given up stood. Around what
is given up they graft (`Tree.Grafted`), which in a block means that the new neighbours stand where
the old ones did (`Tree.Grafted.inPlace`).
-/

namespace LoopToStream

open scoped List

variable {tree next : Tree} {edit : Edit} {a new up id : NodeId}
  {left mid mid' right comments kept old : List NodeId}

/-- Giving up a stretch of a list without repetition for a part of it and new members. -/
theorem nodup_regrow {front back given taken fresh placed : List NodeId}
    (h : (front ++ given ++ back).Nodup) (hplaced : placed ~ taken ++ fresh)
    (htaken : taken.Nodup) (hfresh : fresh.Nodup)
    (houtside : ∀ n ∈ taken, n ∉ front ∧ n ∉ back)
    (hnew : ∀ n ∈ fresh, n ∉ front ∧ n ∉ back ∧ n ∉ taken) :
    (front ++ placed ++ back).Nodup := by
  obtain ⟨hfg, hback, hdisjoint⟩ := List.nodup_append'.1 h
  obtain ⟨hfront, -, -⟩ := List.nodup_append'.1 hfg
  -- what is placed is either kept from the stretch or new
  have hmem : ∀ n ∈ placed, n ∉ front ∧ n ∉ back := fun n hn =>
    (List.mem_append.1 (hplaced.subset hn)).elim (houtside n) fun hn =>
      ⟨(hnew n hn).1, (hnew n hn).2.1⟩
  refine List.nodup_append'.2 ⟨List.nodup_append'.2 ⟨hfront, ?_, ?_⟩, hback, ?_⟩
  · exact hplaced.nodup_iff.2
      (List.nodup_append'.2 ⟨htaken, hfresh, fun n hn hn' => (hnew n hn').2.2 hn⟩)
  · exact fun n hn hn' => (hmem n hn').1 hn
  · intro n hn hn'
    rcases List.mem_append.1 hn with hn | hn
    · exact hdisjoint (List.mem_append_left _ hn) hn'
    · exact (hmem n hn).2 hn'

namespace Tree

/-- Parts that are kept of what is given up, the subtrees `mid`, and comments that are saved from
there. -/
structure Salvage (tree : Tree) (mid kept comments : List NodeId) : Prop where
  grounded : ∀ c ∈ kept, tree.Grounded c
  nodup : (comments ++ kept.flatMap tree.preorder).Nodup
  below : ∀ n ∈ comments ++ kept.flatMap tree.preorder, tree.Attached n →
    n ∈ mid.flatMap tree.preorder
  outside : ∀ n ∈ comments ++ kept.flatMap tree.preorder, n ∉ mid
  fits : ∀ n ∈ kept.flatMap tree.preorder, ∀ kind, tree.kind? n = some kind → tree.Fits kind
  comments : ∀ c ∈ comments, tree.Attached c ∧ ∃ text, tree.kind? c = some (.comment text)

/-- A layer that has taken the place of another. -/
structure Relayered (tree next : Tree) (id : NodeId) (kind kind' : Kind NodeId) : Prop where
  attached : tree.Attached id
  before : tree.kind? id = some kind
  after : next.kind? id = some kind'
  vars_eq : kind'.vars = kind.vars
  admits_eq : ∀ slot : Slot, slot.admits kind' = slot.admits kind
  mark_eq : kind'.mark? = kind.mark?
  /-- Each part is an old one in its old place, or it fits. -/
  parts_fit : ∀ slot c, (slot, c) ∈ kind'.slots → (slot, c) ∈ kind.slots ∨ next.Holds slot c

/-- Staged code takes the place of a part. -/
theorem Relayered.of_swapped (hwf : tree.WellFormed) (hup : tree.Attached up)
    {kind : Kind NodeId} (hbefore : tree.kind? up = some kind)
    (hafter : next.kind? up = some (Edit.swapped a new kind))
    (hnew : ∀ slot, tree.Holds slot a → next.Holds slot new) :
    Relayered tree next up kind (Edit.swapped a new kind) := by
  refine ⟨hup, hbefore, hafter, Kind.vars_map _ kind, fun slot => Slot.admits_map slot _ kind,
    Kind.mark?_map _ kind, fun slot c hslot => ?_⟩
  rw [Edit.swapped, Kind.slots_map] at hslot
  obtain ⟨⟨slot', d⟩, hd, heq⟩ := List.mem_map.1 hslot
  cases heq
  split
  · next hda => exact .inr (hnew slot' (hda ▸ hwf.fits up kind hup hbefore slot' d hd))
  · exact .inl hd

/-- Statements of a block come and go. -/
theorem Relayered.of_block (hup : tree.Attached up) {stmts stmts' : List NodeId}
    (hbefore : tree.kind? up = some (.stmt (.block stmts)))
    (hafter : next.kind? up = some (.stmt (.block stmts')))
    (hfit : ∀ c ∈ stmts', c ∈ stmts ∨ next.Holds .blockItem c) :
    Relayered tree next up (.stmt (.block stmts)) (.stmt (.block stmts')) := by
  refine ⟨hup, hbefore, hafter, rfl, fun slot => by cases slot <;> rfl, rfl, fun slot c hslot => ?_⟩
  simp only [Kind.slots, Stmt.slots, List.mem_map, Prod.mk.injEq] at hslot ⊢
  obtain ⟨d, hd, rfl, rfl⟩ := hslot
  exact (hfit d hd).imp_left fun hd => ⟨d, hd, rfl, rfl⟩

/-- A variable is declared with another initial value. -/
theorem Relayered.of_declare (hup : tree.Attached up) {var : VarId} {init : NodeId}
    (hbefore : tree.kind? up = some (.stmt (.declare var (some init))))
    (hafter : next.kind? up = some (.stmt (.declare var (some new))))
    (hnew : next.Holds .expression new) :
    Relayered tree next up (.stmt (.declare var (some init)))
      (.stmt (.declare var (some new))) := by
  refine ⟨hup, hbefore, hafter, rfl, fun slot => by cases slot <;> rfl, rfl, fun slot c hslot => ?_⟩
  simp only [Kind.slots, Stmt.slots, Option.toList_some, List.map_cons, List.map_nil,
    List.mem_singleton, Prod.mk.injEq] at hslot
  obtain ⟨rfl, rfl⟩ := hslot
  exact .inr hnew

/-- What hangs in the tree after the subtrees `mid` are given up and of these the nodes `old` are
kept. -/
structure Exchanged (tree next : Tree) (mid old : List NodeId) : Prop where
  wellFormed : next.WellFormed
  /-- Of what was given up, no more hangs in the tree than was kept. -/
  bound : ∀ n, n ∈ mid.flatMap tree.preorder → next.Attached n → n ∈ old
  /-- No other node of the tree comes to hang in it. -/
  attached_or : ∀ n, next.Attached n → n.index < tree.size → tree.Attached n ∨ n ∈ old
  stays : ∀ n, tree.Attached n → n ∉ mid.flatMap tree.preorder → next.Attached n
  /-- What is kept has its landmarks where those of what was given up were. -/
  landmarks : ∃ front back,
    tree.landmarks tree.root = front ++ mid.flatMap tree.landmarks ++ back ∧
    next.landmarksUpTo tree.size next.root = front ++ old.filterMap tree.mark? ++ back

/-- An edit that puts the staged node `new` in the place of what it gives up. -/
structure Regrown (tree : Tree) (edit : Edit) (mid old : List NodeId) (new : NodeId)
    (next : Tree) : Prop extends Exchanged tree next mid old where
  committed : tree.Committed edit next
  size_le : tree.size ≤ next.size
  new_attached : next.Attached new
  /-- The staged code is there as it was staged. -/
  sameBelow : (edit.atop tree).SameBelow next new
  /-- What is below what was given up is as it was, though it may not hang in the tree. -/
  unchanged : ∀ n ∈ mid.flatMap tree.preorder, n ∉ mid → next.kind? n = tree.kind? n
  /-- No layer has changed but those of nodes that linked what was given up, or that were given up
  and kept. -/
  frame : ∀ n, n.index < tree.size → ¬ (n ∈ mid ∧ n ∈ old) → (∀ m ∈ mid, tree.parent? m ≠ some n) →
    next.kind? n = tree.kind? n
  root_eq : tree.root ∉ mid → next.root = tree.root
  root_eq_new : tree.root ∈ mid → next.root = new
  /-- What has been added is what was staged. -/
  kind?_new : ∀ n, tree.size ≤ n.index → next.kind? n = (edit.atop tree).kind? n
  /-- It is glue. -/
  glue : ∀ n kind, tree.size ≤ n.index → next.kind? n = some kind → kind.isGlue = true

/-- In a block that linked the neighbours `mid`, there are the neighbours `mid'` in their place. -/
def InPlace (tree next : Tree) (mid mid' : List NodeId) : Prop :=
  ∀ up left right, tree.Attached up →
    tree.kind? up = some (.stmt (.block (left ++ mid ++ right))) →
      next.kind? up = some (.stmt (.block (left ++ mid' ++ right)))

/-- A block that links what is given up links what is placed instead. -/
theorem Grafted.inPlace {given placed : List NodeId} (hwf : tree.WellFormed) (hne : given ≠ [])
    (h : tree.Grafted next given placed) : InPlace tree next given placed := by
  intro up left right hup hblock
  have hparts : tree.parts up = left ++ given ++ right := parts_eq_children hblock
  have hout : up ∉ given.flatMap tree.preorder := fun hmem => by
    obtain ⟨m, hm, hmup⟩ := mem_flatMap_preorder.1 hmem
    exact hwf.linkedOnce.irrefl hup (strictlyReaches_iff.2 ⟨m, by simp [hparts, hm], hmup⟩)
  rw [h up hup hout, hblock, Option.map_some, Kind.graft_block,
    flatMap_exchange hne (hparts ▸ hwf.linkedOnce.once up hup)]

/-- A landmark of the tree stays the same where layers change as they do. -/
theorem mark?_eq_of_relayered
    (hkinds : ∀ n, next.kind? n = (edit.atop tree).kind? n ∨
      ∃ kind kind', Relayered tree next n kind kind')
    {n : NodeId} (hn : n.index < tree.size) : next.mark? n = tree.mark? n := by
  rcases hkinds n with hsame | ⟨old, new, hlayer⟩
  · exact mark?_congr (hsame.trans ((edit.grows_atop tree).kind?_eq n hn))
  · rw [mark?_eq_of_kind? hlayer.after, mark?_eq_of_kind? hlayer.before, hlayer.mark_eq]

/-- Changed layers fit where the tree was well-formed and its changes fit. -/
theorem WellFormed.of_relayered (hwf : tree.WellFormed) (hs : edit.Sound tree)
    (hc : tree.Committed edit next)
    (hkinds : ∀ n, next.kind? n = (edit.atop tree).kind? n ∨
      ∃ kind kind', Relayered tree next n kind kind')
    (hfits : ∀ n kind, next.Attached n → n.index < tree.size → tree.kind? n = some kind →
      tree.Fits kind)
    (hg : next.Grounded next.root) (hnodup : (next.preorder next.root).Nodup) :
    next.WellFormed := by
  have hgrow := edit.grows_atop tree
  -- what fitted into a place still fits into it
  have hholds : ∀ slot c, (edit.atop tree).Holds slot c → next.Holds slot c := by
    rintro slot c ⟨kind, hkind, hadmits⟩
    rcases hkinds c with hsame | ⟨old, new, hlayer⟩
    · exact ⟨kind, hsame.trans hkind, hadmits⟩
    · rw [hgrow.kind?_of_some hlayer.before] at hkind
      cases hkind
      exact ⟨new, hlayer.after, (hlayer.admits_eq slot).trans hadmits⟩
  refine {
    toClosed := hc.closed
    vars_known := fun n kind hkind v hv => ?_
    linkedOnce := .of_nodup hg hnodup
    fits := fun n kind hn hkind slot c hslot => ?_
    relinked := by rw [hc.closed.relink_eq, hc.relinked] }
  · -- a changed layer has the variables that it had
    rw [hc.vars_eq]
    rcases hkinds n with hsame | ⟨old, new, hlayer⟩
    · rw [hsame] at hkind
      by_cases hlt : n.index < tree.size
      · exact hwf.vars_known n kind ((hgrow.kind?_eq n hlt).symm.trans hkind) v hv
      · exact hs.vars_known n kind (Nat.le_of_not_lt hlt) hkind v hv
    · rw [hlayer.after] at hkind
      cases hkind
      exact hwf.vars_known n old hlayer.before v (hlayer.vars_eq ▸ hv)
  · -- and what it links fitted there before or fits there now
    rcases hkinds n with hsame | ⟨old, new, hlayer⟩
    · rw [hsame] at hkind
      refine hholds slot c ?_
      by_cases hlt : n.index < tree.size
      · exact hgrow.holds
          (hfits n kind hn hlt ((hgrow.kind?_eq n hlt).symm.trans hkind) slot c hslot)
      · exact hs.fits n kind (Nat.le_of_not_lt hlt) hkind slot c hslot
    · rw [hlayer.after] at hkind
      cases hkind
      rcases hlayer.parts_fit slot c hslot with hold | hnow
      · exact hholds slot c (hgrow.holds (hwf.fits n old hlayer.attached hlayer.before slot c hold))
      · exact hnow

/-- In what hangs in a tree, the stretch of the subtrees `mid` gives way to that of the subtrees
`mid'`, and what stands in front of it and behind it stays. -/
structure Stretch (tree next : Tree) (mid mid' front back : List NodeId) : Prop where
  before : tree.preorder tree.root = front ++ mid.flatMap tree.preorder ++ back
  after : next.preorder next.root = front ++ mid'.flatMap next.preorder ++ back

namespace Stretch

variable {front back : List NodeId} (h : Stretch tree next mid mid' front back)
include h

theorem attached_iff_before {n : NodeId} :
    tree.Attached n ↔ (n ∈ front ∨ n ∈ back) ∨ n ∈ mid.flatMap tree.preorder := by
  rw [attached_iff_mem_preorder, h.before]
  simp only [List.mem_append]
  tauto

theorem attached_iff_after {n : NodeId} :
    next.Attached n ↔ (n ∈ front ∨ n ∈ back) ∨ n ∈ mid'.flatMap next.preorder := by
  rw [attached_iff_mem_preorder, h.after]
  simp only [List.mem_append]
  tauto

/-- What stands below what is exchanged stands neither in front nor behind. -/
theorem apart (hwf : tree.WellFormed) {n : NodeId} (hn : n ∈ mid.flatMap tree.preorder) :
    n ∉ front ∧ n ∉ back := by
  have hall := hwf.nodup_preorder attached_root
  rw [h.before] at hall
  obtain ⟨hfront, -, hdisjoint⟩ := List.nodup_append'.1 hall
  exact ⟨fun hf => (List.nodup_append'.1 hfront).2.2 hf hn,
    fun hb => hdisjoint (List.mem_append_right _ hn) hb⟩

/-- Nothing hangs in the tree twice, if of the tree no more is put there than was given up. -/
theorem nodup (hwf : tree.WellFormed) {fresh : List NodeId}
    (hlisted : mid'.flatMap next.preorder ~ old ++ fresh) (hnodup : old.Nodup)
    (hfresh : fresh.Nodup) (hold : ∀ n ∈ old, n.index < tree.size)
    (hnew : ∀ n ∈ fresh, tree.size ≤ n.index)
    (hbelow : ∀ n ∈ old, tree.Attached n → n ∈ mid.flatMap tree.preorder) :
    (next.preorder next.root).Nodup := by
  have hall := hwf.nodup_preorder attached_root
  rw [h.before] at hall
  rw [h.after]
  refine nodup_regrow hall hlisted hnodup hfresh (fun n hn => ?_) fun n hn => ⟨?_, ?_, ?_⟩
  · -- what hangs in the tree was below what is given up, and so is on neither side
    rw [← not_or]
    intro hside
    have hapart := h.apart hwf (hbelow n hn (h.attached_iff_before.2 (.inl hside)))
    tauto
  · exact fun hside => Nat.not_lt.2 (hnew n hn)
      (hwf.lt_size (h.attached_iff_before.2 (.inl (.inl hside))))
  · exact fun hside => Nat.not_lt.2 (hnew n hn)
      (hwf.lt_size (h.attached_iff_before.2 (.inl (.inr hside))))
  · exact fun hmem => Nat.not_lt.2 (hnew n hn) (hold n hmem)

/-- The landmarks in front and behind are those of before. -/
theorem landmarks_eq (hlt : ∀ n, n ∈ front ∨ n ∈ back → n.index < tree.size)
    (hmark : ∀ n, n ∈ front ∨ n ∈ back → next.mark? n = tree.mark? n) :
    tree.landmarks tree.root = front.filterMap tree.mark? ++ mid.flatMap tree.landmarks ++
        back.filterMap tree.mark? ∧
      next.landmarksUpTo tree.size next.root = front.filterMap tree.mark? ++
        mid'.flatMap (next.landmarksUpTo tree.size) ++ back.filterMap tree.mark? := by
  -- on the sides, all landmarks are old ones and count as such
  have hsame : ∀ ids : List NodeId, (∀ n ∈ ids, n ∈ front ∨ n ∈ back) →
      (ids.filterMap next.mark?).filter (fun mark => mark.1.index < tree.size) =
        ids.filterMap tree.mark? := fun ids hids => by
    rw [List.filterMap_congr fun n hn => hmark n (hids n hn), List.filter_eq_self]
    intro mark hmem
    obtain ⟨n, hn, hmark⟩ := List.mem_filterMap.1 hmem
    obtain ⟨shape, -, rfl⟩ := Option.map_eq_some_iff.1 hmark
    simpa using hlt n (hids n hn)
  constructor
  · rw [Tree.landmarks, h.before, List.filterMap_append, List.filterMap_append, flatMap_landmarks]
  · rw [landmarksUpTo, Tree.landmarks, h.after, List.filterMap_append, List.filterMap_append,
      List.filter_append, List.filter_append, hsame front fun n => .inl, hsame back fun n => .inr,
      flatMap_landmarksUpTo, flatMap_landmarks]

end Stretch

/-- **An exchange of subtrees** below a node that stays. -/
theorem WellFormed.of_spliced (hwf : tree.WellFormed) (hs : edit.Sound tree)
    (hc : tree.Committed edit next) (hroot : next.root = tree.root)
    (hkinds : ∀ n, next.kind? n = (edit.atop tree).kind? n ∨
      ∃ kind kind', Relayered tree next n kind kind')
    (hup : tree.Attached up) (hsplice : tree.Spliced next tree.root up left mid mid' right)
    (hlisted : mid'.flatMap next.preorder ~ old ++ idsFrom tree.size edit.limit)
    (hmarks : mid'.flatMap (next.landmarksUpTo tree.size) = old.filterMap tree.mark?)
    (hnodup : old.Nodup) (hold : ∀ n ∈ old, n.index < tree.size)
    (hbelow : ∀ n ∈ old, tree.Attached n → n ∈ mid.flatMap tree.preorder)
    (hfits : ∀ n ∈ old, ∀ kind, tree.kind? n = some kind → tree.Fits kind) :
    Exchanged tree next mid old ∧ ∀ n ∈ mid', next.Attached n := by
  obtain ⟨hg, front, back, hbefore, hafter⟩ :=
    (hwf.grounded attached_root).preorder_splice (hwf.nodup_preorder attached_root) hsplice hup
  have h : Stretch tree next mid mid' front back := ⟨hbefore, hroot ▸ hafter⟩
  -- a node of the tree that hangs in it afterwards stands in front, behind, or was kept
  have hcases : ∀ n, next.Attached n → n.index < tree.size →
      (n ∈ front ∨ n ∈ back) ∨ n ∈ old := by
    intro n hn hlt
    refine (h.attached_iff_after.1 hn).imp_right fun hn => ?_
    exact (List.mem_append.1 (hlisted.subset hn)).resolve_right fun hge =>
      Nat.not_lt.2 (mem_idsFrom.1 hge).1 hlt
  have hside : ∀ n, n ∈ front ∨ n ∈ back → tree.Attached n := fun n hn =>
    h.attached_iff_before.2 (.inl hn)
  -- on both sides of what is exchanged, the landmarks are those of before
  obtain ⟨hmarksBefore, hmarksAfter⟩ := h.landmarks_eq (fun n hn => hwf.lt_size (hside n hn))
    fun n hn => mark?_eq_of_relayered hkinds (hwf.lt_size (hside n hn))
  refine ⟨{
    wellFormed := hwf.of_relayered hs hc hkinds (fun n kind hn hlt hkind => ?_) (hroot ▸ hg)
      (h.nodup hwf hlisted hnodup (nodup_idsFrom _ _) hold
        (fun n hn => (mem_idsFrom.1 hn).1) hbelow)
    bound := fun n hn hatt => ?_
    attached_or := fun n hn hlt => (hcases n hn hlt).imp_left (hside n)
    stays := fun n hn hout => h.attached_iff_after.2 (.inl ?_)
    landmarks := ⟨_, _, hmarksBefore, hmarks ▸ hmarksAfter⟩ }, fun n hn => ?_⟩
  · rcases hcases n hn hlt with hn | hn
    · exact hwf.fits n kind (hside n hn) hkind
    · exact hfits n hn kind hkind
  · have hlt := hwf.lt_size (h.attached_iff_before.2 (.inr hn))
    have hapart := h.apart hwf hn
    exact (hcases n hatt hlt).resolve_left (by tauto)
  · exact (h.attached_iff_before.1 hn).resolve_right hout
  · exact h.attached_iff_after.2 (.inr (mem_flatMap_preorder.2 ⟨n, hn, .refl n⟩))

/-! ### What staged code consists of -/

/-- Nodes below staged code are kept or staged. -/
theorem Built.reaches (h : Built tree (edit.atop tree) kept tree.size edit.limit [new]) {n : NodeId}
    (hn : (edit.atop tree).Reaches new n) :
    n ∈ kept.flatMap tree.preorder ∨ tree.size ≤ n.index := by
  have hlisted := h.listed
  rw [List.flatMap_singleton] at hlisted
  rcases List.mem_append.1 (hlisted.subset (mem_preorder_iff.2 hn)) with hn | hn
  · exact .inl hn
  · exact .inr (mem_idsFrom.1 hn).1

/-- A node is not below its parts. -/
theorem WellFormed.ne_of_mem_below (hwf : tree.WellFormed) (hup : tree.Attached up)
    (hmid : ∀ m ∈ mid, m ∈ tree.parts up) {n : NodeId} (hn : n ∈ mid.flatMap tree.preorder) :
    n ≠ up := by
  rintro rfl
  obtain ⟨m, hm, hmn⟩ := mem_flatMap_preorder.1 hn
  exact hwf.linkedOnce.irrefl hup (strictlyReaches_iff.2 ⟨m, hmid m hm, hmn⟩)

theorem WellFormed.lt_size_of_mem_below (hwf : tree.WellFormed) (hup : tree.Attached up)
    (hmid : ∀ m ∈ mid, m ∈ tree.parts up) {n : NodeId} (hn : n ∈ mid.flatMap tree.preorder) :
    n.index < tree.size := by
  obtain ⟨m, hm, hmn⟩ := mem_flatMap_preorder.1 hn
  exact hwf.lt_size ((hup.of_mem (hmid m hm)).reaches hmn)

/-- A node above what is given up is not kept below it. -/
theorem Salvage.ne_of_mem (h : Salvage tree mid kept comments) (hwf : tree.WellFormed)
    (hup : tree.Attached up) (hmid : ∀ m ∈ mid, m ∈ tree.parts up) {n : NodeId}
    (hn : n ∈ comments ++ kept.flatMap tree.preorder) : n ≠ up := by
  rintro rfl
  exact hwf.ne_of_mem_below hup hmid (h.below n hn hup) rfl

/-- Nodes of the tree are kept. -/
theorem Salvage.lt_size (h : Salvage tree mid kept comments) (hwf : tree.WellFormed) {n : NodeId}
    (hn : n ∈ comments ++ kept.flatMap tree.preorder) : n.index < tree.size := by
  rcases List.mem_append.1 hn with hn | hn
  · exact hwf.lt_size (h.comments n hn).1
  · obtain ⟨c, hc, hcn⟩ := mem_flatMap_preorder.1 hn
    exact ((h.grounded c hc).of_reaches hcn).lt_size

/-- Comments have no parts that might not fit. -/
theorem Salvage.fits_all (h : Salvage tree mid kept comments) {n : NodeId} {kind : Kind NodeId}
    (hn : n ∈ comments ++ kept.flatMap tree.preorder) (hkind : tree.kind? n = some kind) :
    tree.Fits kind := by
  rcases List.mem_append.1 hn with hn | hn
  · obtain ⟨text, htext⟩ := (h.comments n hn).2
    rw [htext] at hkind
    cases hkind
    exact fun slot c hslot => by simp [Kind.slots] at hslot
  · exact h.fits n hn kind hkind

/-- What was staged is as it was staged, below a node that is neither kept nor staged. -/
theorem Built.sameBelow (h : Built tree (edit.atop tree) kept tree.size edit.limit [new])
    (changed : NodeId → Prop) (hkinds : ∀ n, ¬ changed n → next.kind? n = (edit.atop tree).kind? n)
    (hchanged : ∀ n, changed n → n.index < tree.size ∧ n ∉ kept.flatMap tree.preorder) :
    (edit.atop tree).SameBelow next new := by
  intro n hn
  refine hkinds n fun hch => ?_
  rcases h.reaches hn with hkept | hge
  · exact (hchanged n hch).2 hkept
  · exact Nat.not_lt.2 hge (hchanged n hch).1

/-- Comments are landmarks with nothing below them, wherever they are put. -/
theorem landmarks_of_comments
    (hcomments : ∀ c ∈ comments, ∃ text, tree.kind? c = some (.comment text) ∧
      next.kind? c = some (.comment text)) :
    comments.flatMap (next.landmarksUpTo tree.size) = comments.filterMap tree.mark? := by
  rw [List.filterMap_eq_flatMap_toList]
  refine List.flatMap_congr fun c hc => ?_
  obtain ⟨text, hbefore, hafter⟩ := hcomments c hc
  have hg : next.Grounded c := .layer hafter (by simp [Kind.children])
  rw [landmarksUpTo, hg.landmarks_eq, parts_eq_children hafter, mark?_eq_of_kind? hafter,
    mark?_eq_of_kind? hbefore]
  simp [Kind.children, Kind.mark?, Kind.isLandmark, lt_size_of_kind? hbefore]

/-- Staged code has the landmarks that it keeps. -/
theorem Built.landmarks_new (h : Built tree (edit.atop tree) kept tree.size edit.limit [new])
    (hsame : (edit.atop tree).SameBelow next new) :
    next.landmarksUpTo tree.size new = kept.flatMap tree.landmarks := by
  rw [hsame.landmarksUpTo_eq h.grounded_single, ← h.landmarks_eq, List.flatMap_singleton]

/-- Comments and staged code, as they are listed after an edit. -/
theorem Built.listed_behind (comments : List NodeId)
    (h : Built tree (edit.atop tree) kept tree.size edit.limit [new])
    (hsame : (edit.atop tree).SameBelow next new)
    (hcomments : ∀ c ∈ comments, ∃ text, tree.kind? c = some (.comment text) ∧
      next.kind? c = some (.comment text)) :
    (∀ c ∈ comments ++ [new], next.Grounded c) ∧
      (comments ++ [new]).flatMap next.preorder ~
        (comments ++ kept.flatMap tree.preorder) ++ idsFrom tree.size edit.limit ∧
      (comments ++ [new]).flatMap (next.landmarksUpTo tree.size) =
        (comments ++ kept.flatMap tree.preorder).filterMap tree.mark? := by
  have hground : ∀ c ∈ comments, next.Grounded c := fun c hc => by
    obtain ⟨text, -, htext⟩ := hcomments c hc
    exact .layer htext (by simp [Kind.children])
  -- nothing is below a comment
  have hsingle : ∀ c ∈ comments, next.preorder c = [c] := fun c hc => by
    obtain ⟨text, -, htext⟩ := hcomments c hc
    rw [(hground c hc).preorder_eq, parts_eq_children htext]
    rfl
  -- the comments come first, and behind them the new code with what it keeps
  have hnew := h.grounded_single
  refine ⟨fun c hc => ?_, ?_, ?_⟩
  · rcases List.mem_append.1 hc with hc | hc
    · exact hground c hc
    · rw [List.mem_singleton] at hc
      exact hc ▸ hsame.grounded hnew
  · rw [List.flatMap_append, List.flatMap_congr hsingle, List.flatMap_singleton',
      List.flatMap_singleton, hsame.preorder_eq hnew, List.append_assoc]
    have hlisted := h.listed
    rw [List.flatMap_singleton] at hlisted
    exact List.Perm.append_left _ hlisted
  · rw [List.flatMap_append, List.filterMap_append, landmarks_of_comments hcomments,
      List.flatMap_singleton, h.landmarks_new hsame, flatMap_landmarks]

end Tree

/-! ### Replacing a node -/

namespace Edit.Sound

open LoopToStream.Tree

/-- The top of the tree is replaced. -/
theorem replaced_top (hwf : tree.WellFormed) (hs : edit.Sound tree)
    (hbuilt : Built tree (edit.atop tree) kept tree.size edit.limit [new])
    (hsalvage : Salvage tree [tree.root] kept []) (hc : tree.Committed edit next)
    (hroot : next.root = new) (hkinds : ∀ n, next.kind? n = (edit.atop tree).kind? n) :
    Regrown tree edit [tree.root] ([] ++ kept.flatMap tree.preorder) new next := by
  have hsame : (edit.atop tree).SameBelow next new := fun n _ => hkinds n
  have hg := hbuilt.grounded_single
  obtain ⟨-, hlisted, hmarks⟩ := hbuilt.listed_behind [] hsame (by simp)
  simp only [List.nil_append, List.flatMap_singleton] at hlisted hmarks
  have hnodup := hsalvage.nodup
  rw [List.nil_append] at hnodup
  -- all that hangs below the new top has been staged or was kept
  have hkept : ∀ n, next.Attached n → n.index < tree.size → n ∈ kept.flatMap tree.preorder := by
    intro n hn hlt
    rw [Attached, hroot, ← mem_preorder_iff] at hn
    rcases List.mem_append.1 (hlisted.subset hn) with hn | hn
    · exact hn
    · exact absurd hlt (Nat.not_lt.2 (mem_idsFrom.1 hn).1)
  refine {
    wellFormed :=
      hwf.of_relayered hs hc (fun n => .inl (hkinds n)) (fun n kind hn hlt hkind => ?_) ?_ ?_
    bound := fun n hn hatt => ?_
    attached_or := fun n hn hlt => .inr (by simpa using hkept n hn hlt)
    stays := fun n hn hout => absurd (mem_flatMap_preorder.2 ⟨_, by simp, hn⟩) hout
    landmarks := ⟨[], [], by simp, by simp [hroot, hmarks]⟩
    committed := hc
    size_le := hc.size_eq ▸ hs.le_limit
    new_attached := ?_
    sameBelow := hsame
    unchanged := fun n hn _ => ?_
    frame := fun n hn _ _ => (hkinds n).trans ((edit.grows_atop tree).kind?_eq n hn)
    root_eq := fun hout => absurd (List.mem_singleton_self _) hout
    root_eq_new := fun _ => hroot
    kind?_new := fun n _ => hkinds n
    glue := fun n kind hle hkind => hs.glue n kind hle (hkinds n ▸ hkind) }
  · -- what is kept fits where it stood, what is new was staged to fit
    exact hsalvage.fits n (hkept n hn hlt) kind hkind
  · exact hroot ▸ hsame.grounded hg
  · -- kept nodes have ids of before, and staged ones later ids
    rw [hroot, hlisted.nodup_iff, List.nodup_append']
    refine ⟨hnodup, nodup_idsFrom _ _, fun n hn hn' => ?_⟩
    exact Nat.not_lt.2 (mem_idsFrom.1 hn').1 (hsalvage.lt_size hwf (by simpa using hn))
  · rw [List.flatMap_singleton, mem_preorder_iff] at hn
    simpa using hkept n hatt (hwf.lt_size (attached_root.reaches hn))
  · exact hroot ▸ attached_root
  · rw [List.flatMap_singleton, mem_preorder_iff] at hn
    rw [hkinds n]
    exact (edit.grows_atop tree).kind?_eq n (hwf.lt_size (attached_root.reaches hn))

/-- A part of a node is replaced, or a statement of a block behind comments. -/
theorem replaced_part (hwf : tree.WellFormed) (hs : edit.Sound tree)
    (hbuilt : Built tree (edit.atop tree) kept tree.size edit.limit [new])
    (hsalvage : Salvage tree [a] kept comments) (hc : tree.Committed edit next)
    (hroot : next.root = tree.root) {kind kind' : Kind NodeId} (hup : tree.Attached up)
    (hkinds : ∀ n, n ≠ up → next.kind? n = (edit.atop tree).kind? n)
    (hlayer : Relayered tree next up kind kind') (hparts : kind.children = left ++ a :: right)
    (hparts' : kind'.children = left ++ comments ++ new :: right)
    (hcomments : ∀ c ∈ comments, ∃ text, tree.kind? c = some (.comment text) ∧
      next.kind? c = some (.comment text)) :
    Regrown tree edit [a] (comments ++ kept.flatMap tree.preorder) new next := by
  have huparts : tree.parts up = left ++ [a] ++ right := by
    rw [parts_eq_children hlayer.before, hparts]
    simp
  have hmem : a ∈ tree.parts up := by simp [huparts]
  -- nothing that is kept is the changed layer, which is above it
  have hne : ∀ n ∈ comments ++ kept.flatMap tree.preorder, n ≠ up :=
    fun n hn => hsalvage.ne_of_mem hwf hup (by simpa using hmem) hn
  have hsame : (edit.atop tree).SameBelow next new :=
    hbuilt.sameBelow (· = up) hkinds fun n hn =>
      ⟨hn ▸ hwf.lt_size hup, fun hkept => hne n (List.mem_append_right _ hkept) hn⟩
  obtain ⟨hground, hlisted, hmarks⟩ := hbuilt.listed_behind comments hsame hcomments
  -- one list of parts is exchanged, and all other layers stay
  have hsplice : tree.Spliced next tree.root up left [a] (comments ++ [new]) right := {
    before := huparts
    after := ⟨kind', hlayer.after, by rw [hparts']; simp⟩
    elsewhere := fun n hn hnup _ => by
      rw [hkinds n hnup]
      exact (edit.grows_atop tree).kind?_eq n (hwf.lt_size hn)
    grounded := hground }
  obtain ⟨hexchanged, hplaced⟩ := hwf.of_spliced hs hc hroot
    (fun n => (eq_or_ne n up).elim (fun heq => .inr ⟨kind, kind', heq ▸ hlayer⟩)
      fun hn => .inl (hkinds n hn))
    hup hsplice hlisted hmarks hsalvage.nodup (fun n hn => hsalvage.lt_size hwf hn) hsalvage.below
    fun n hn k hk => hsalvage.fits_all hn hk
  have hnew : ∀ n : NodeId, tree.size ≤ n.index → next.kind? n = (edit.atop tree).kind? n :=
    fun n hle => hkinds n fun heq => Nat.not_lt.2 hle (heq ▸ hwf.lt_size hup)
  refine ⟨hexchanged, hc, hc.size_eq ▸ hs.le_limit, hplaced new (by simp), hsame, fun n hn _ => ?_,
    fun n hn _ hparent => ?_, fun _ => hroot, fun htop => ?_, hnew,
    fun n k hle hk => hs.glue n k hle (hnew n hle ▸ hk)⟩
  · rw [hkinds n (hwf.ne_of_mem_below hup (by simpa using hmem) hn)]
    exact (edit.grows_atop tree).kind?_eq n (hwf.lt_size_of_mem_below hup (by simpa using hmem) hn)
  · rw [hkinds n fun heq => hparent a (by simp) (heq ▸ hwf.parent?_of_mem hup hmem)]
    exact (edit.grows_atop tree).kind?_eq n hn
  · -- the top is no part
    exact absurd (List.mem_singleton.1 htop ▸ hmem) (hwf.linkedOnce.top_unlinked up hup)

/-- The comments of a salvage are still comments where layers of other sorts have changed. -/
theorem comments_after (hsalvage : Salvage tree mid kept comments)
    (changed : NodeId → Prop) (hkinds : ∀ n, ¬ changed n → next.kind? n = (edit.atop tree).kind? n)
    (hchanged : ∀ n ∈ comments, ¬ changed n) :
    ∀ c ∈ comments, ∃ text, tree.kind? c = some (.comment text) ∧
      next.kind? c = some (.comment text) := by
  intro c hc
  obtain ⟨hatt, text, htext⟩ := hsalvage.comments c hc
  refine ⟨text, htext, ?_⟩
  rw [hkinds c (hchanged c hc)]
  exact (edit.grows_atop tree).kind?_of_some htext

/-- Staged code fits where the replaced node stands, if it is there as it was staged. -/
theorem holds_new (hfits : ∀ slot, tree.Holds slot a → (edit.atop tree).Holds slot new)
    (hsame : next.kind? new = (edit.atop tree).kind? new) (slot : Slot)
    (hslot : tree.Holds slot a) :
    next.Holds slot new := by
  obtain ⟨kind, hkind, hadmits⟩ := hfits slot hslot
  exact ⟨kind, hsame.trans hkind, hadmits⟩

/-- A node is replaced wherever it stands. -/
theorem replaced_alone (hwf : tree.WellFormed) (hs : edit.Sound tree)
    (hbuilt : Built tree (edit.atop tree) kept tree.size edit.limit [new])
    (hsalvage : Salvage tree [a] kept []) (ha : tree.Attached a) (hnew : tree.size ≤ new.index)
    (hfits : ∀ slot, tree.Holds slot a → (edit.atop tree).Holds slot new)
    (hops : edit.ops = [.replace a new]) :
    ∃ next, tree.commit edit = .ok next ∧
      Regrown tree edit [a] ([] ++ kept.flatMap tree.preorder) new next ∧
      tree.Grafted next [a] [new] := by
  have hlinks := hbuilt.checkLinks_eq hs hsalvage.grounded (List.nodup_append'.1 hsalvage.nodup).2.1
  have hnewlt : new.index < edit.limit := hs.size_atop ▸ hbuilt.grounded_single.lt_size
  obtain ⟨next, hcommit, hc, htop | ⟨up, hup, hmem, hroot, hkinds, hlayer⟩⟩ :=
    commit_replace hwf hs hlinks hops ha hnewlt
  · -- at the top there is no layer to look at
    obtain ⟨rfl, hroot, hkinds⟩ := htop
    refine ⟨next, hcommit, replaced_top hwf hs hbuilt hsalvage hc hroot hkinds, ?_⟩
    exact fun n hn hout => absurd (mem_flatMap_preorder.2 ⟨_, by simp, hn⟩) hout
  obtain ⟨kind, hkind⟩ := exists_kind_of_lt (hwf.lt_size hup)
  -- otherwise the node stands once among the parts of its parent
  obtain ⟨left, right, hsplit⟩ := List.append_of_mem hmem
  have hchildren : kind.children = left ++ a :: right := by rw [← parts_eq_children hkind, hsplit]
  have hafter : next.kind? up = some (swapped a new kind) := by rw [hlayer, hkind, Option.map_some]
  have hnewUp : new ≠ up := fun heq => Nat.not_lt.2 hnew (heq ▸ hwf.lt_size hup)
  refine ⟨next, hcommit, replaced_part hwf hs hbuilt hsalvage hc hroot hup hkinds
    (.of_swapped hwf hup hkind hafter (holds_new hfits (hkinds new hnewUp))) hchildren ?_ (by simp),
    ?_⟩
  · obtain ⟨hleft, hright⟩ := hwf.linkedOnce.notMem_beside hup hsplit
    rw [List.append_nil]
    exact swapped_children hchildren hleft hright
  · refine .of_layer hwf hup (by simpa using hmem) (fun n hn hnup _ => ?_) ?_
    · rw [hkinds n hnup]
      exact (edit.grows_atop tree).kind?_eq n (hwf.lt_size hn)
    · rw [hlayer]
      congr 1
      funext k
      exact (Kind.graft_exchange_single k).symm

/-- Neighbours in a block have given way. -/
theorem grafted_block {given placed : List NodeId} (hwf : tree.WellFormed) (hup : tree.Attached up)
    (hblock : tree.kind? up = some (.stmt (.block (left ++ given ++ right)))) (hne : given ≠ [])
    (hothers : ∀ n, tree.Attached n → n ≠ up → n ∉ given.flatMap tree.preorder →
      next.kind? n = tree.kind? n)
    (hlayer : next.kind? up = some (.stmt (.block (left ++ placed ++ right)))) :
    tree.Grafted next given placed := by
  have hparts : tree.parts up = left ++ given ++ right := parts_eq_children hblock
  refine .of_layer hwf hup (fun m hm => by simp [hparts, hm]) hothers ?_
  rw [hlayer, hblock, Option.map_some, Kind.graft_block,
    flatMap_exchange hne (hparts ▸ hwf.linkedOnce.once up hup)]

/-- A statement of a block is replaced, behind comments from below it. -/
theorem replaced_behind (hwf : tree.WellFormed) (hs : edit.Sound tree)
    (hbuilt : Built tree (edit.atop tree) kept tree.size edit.limit [new])
    (hsalvage : Salvage tree [a] kept comments) (hup : tree.Attached up)
    (hblock : tree.kind? up = some (.stmt (.block (left ++ a :: right))))
    (hnew : tree.size ≤ new.index)
    (hfits : ∀ slot, tree.Holds slot a → (edit.atop tree).Holds slot new)
    (hops : edit.ops = comments.map (EditOp.insertBefore a) ++ [.replace a new]) :
    ∃ next, tree.commit edit = .ok next ∧
      Regrown tree edit [a] (comments ++ kept.flatMap tree.preorder) new next ∧
      tree.Grafted next [a] (comments ++ [new]) := by
  have hlinks := hbuilt.checkLinks_eq hs hsalvage.grounded (List.nodup_append'.1 hsalvage.nodup).2.1
  have hnewlt : new.index < edit.limit := hs.size_atop ▸ hbuilt.grounded_single.lt_size
  have hnewUp : new ≠ up := fun heq => Nat.not_lt.2 hnew (heq ▸ hwf.lt_size hup)
  -- a comment is no block, and is below what it is put in front of
  have hneUp : ∀ c ∈ comments, ¬ c = up := fun c hc heq => by
    obtain ⟨text, htext⟩ := (hsalvage.comments c hc).2
    rw [heq, hblock] at htext
    cases htext
  have hneA : ∀ c ∈ comments, c ≠ a := fun c hc heq =>
    hsalvage.outside c (List.mem_append_left _ hc) (by simp [heq])
  obtain ⟨next, hcommit, hc, hroot, hkinds, hlayer⟩ := commit_replace_behind hwf hs hlinks hops hup
    hblock (fun c hc => ⟨(hsalvage.comments c hc).1, hneA c hc⟩) hnewlt
  have hcomments := comments_after hsalvage (· = up) hkinds hneUp
  have holds : tree.Holds .blockItem a :=
    hwf.fits up _ hup hblock .blockItem a (by simp [Kind.slots, Stmt.slots])
  -- the block has room for comments and for what fitted where the anchor was
  have hrelayered : Relayered tree next up (.stmt (.block (left ++ a :: right)))
      (.stmt (.block (left ++ comments ++ new :: right))) := by
    refine .of_block hup hblock hlayer fun c hc => ?_
    simp only [List.mem_append, List.mem_cons] at hc ⊢
    rcases hc with (hc | hc) | rfl | hc
    · exact .inl (.inl hc)
    · obtain ⟨text, -, htext⟩ := hcomments c hc
      exact .inr ⟨_, htext, rfl⟩
    · exact .inr (holds_new hfits (hkinds c hnewUp) _ holds)
    · exact .inl (.inr (.inr hc))
  refine ⟨next, hcommit, replaced_part hwf hs hbuilt hsalvage hc hroot hup hkinds hrelayered rfl rfl
    hcomments, grafted_block hwf hup (by simpa using hblock) (by simp) (fun n hn hnup _ => ?_)
      (by simpa using hlayer)⟩
  rw [hkinds n hnup]
  exact (edit.grows_atop tree).kind?_eq n (hwf.lt_size hn)

/-- **Replacing a node** by staged code, in a block perhaps behind comments from below it. -/
theorem replaced (hwf : tree.WellFormed) (hs : edit.Sound tree)
    (hbuilt : Built tree (edit.atop tree) kept tree.size edit.limit [new])
    (hsalvage : Salvage tree [a] kept comments) (ha : tree.Attached a)
    (hnew : tree.size ≤ new.index)
    (hfits : ∀ slot, tree.Holds slot a → (edit.atop tree).Holds slot new)
    (hops : edit.ops = comments.map (EditOp.insertBefore a) ++ [.replace a new])
    (hblock : comments ≠ [] → (tree.parent? a).any tree.isBlock = true) :
    ∃ next, tree.commit edit = .ok next ∧
      Regrown tree edit [a] (comments ++ kept.flatMap tree.preorder) new next ∧
      tree.Grafted next [a] (comments ++ [new]) := by
  rcases eq_or_ne comments [] with rfl | hne
  · exact replaced_alone hwf hs hbuilt hsalvage ha hnew hfits hops
  obtain ⟨up, hparent, hisBlock⟩ := (Option.any_eq_true _ _).1 (hblock hne)
  obtain ⟨hup, hmem⟩ := hwf.parent?_eq_some.1 hparent
  obtain ⟨stmt, hstmt, hshape⟩ := (Option.any_eq_true _ _).1 hisBlock
  -- there are comments, so the parent is a block
  obtain ⟨stmts, rfl⟩ : ∃ stmts, stmt = .block stmts := by
    cases stmt <;> simp_all [Stmt.isBlock]
  have hkind := stmt?_eq_some.1 hstmt
  rw [parts_eq_children hkind] at hmem
  obtain ⟨left, right, rfl⟩ := List.append_of_mem hmem
  exact replaced_behind hwf hs hbuilt hsalvage hup hkind hnew hfits hops

/-! ### Folding into a declaration -/

section Folding

variable {declaration init loop : NodeId} {var : VarId}

/-- The comments of a salvage are none of the nodes that folding is about. -/
theorem comments_apart (hwf : tree.WellFormed)
    (h : tree.DeclaredInFront up declaration init loop var left right)
    (hsalvage : Salvage tree [declaration, loop] kept comments) :
    ∀ c ∈ comments, c ≠ up ∧ c ≠ declaration ∧ c ≠ init ∧ c ≠ loop := by
  intro c hc
  obtain ⟨text, htext⟩ := (hsalvage.comments c hc).2
  have hout := hsalvage.outside c (List.mem_append_left _ hc)
  simp only [List.mem_cons, List.not_mem_nil, or_false, not_or] at hout
  refine ⟨?_, hout.1, ?_, hout.2⟩
  · -- what is a block is no comment
    rintro rfl
    rw [h.block] at htext
    cases htext
  · -- an initial value is an expression
    rintro rfl
    obtain ⟨kind, hkind, hadmits⟩ := hwf.fits declaration _ h.declaration_attached h.declares
      .expression c (by simp [Kind.slots, Stmt.slots])
    rw [htext] at hkind
    cases hkind
    cases hadmits

/-- What the staged nodes link of the tree is kept. -/
theorem mem_kept_of_staged (hs : edit.Sound tree)
    (hbuilt : Built tree (edit.atop tree) kept tree.size edit.limit [new])
    (hg : ∀ c ∈ kept, tree.Grounded c) {p c : NodeId} (hp : tree.size ≤ p.index)
    (hc : c ∈ (edit.atop tree).parts p) (hlt : c.index < tree.size) : c ∈ kept := by
  have hplt : p.index < edit.limit := hs.size_atop ▸ lt_size_of_mem_parts hc
  have hmem : c ∈ (idsFrom tree.size edit.limit).flatMap (edit.atop tree).parts :=
    List.mem_flatMap.2 ⟨p, mem_idsFrom.2 ⟨hp, hplt⟩, hc⟩
  have hall := (hbuilt.perm_parts hg).symm.subset (List.mem_cons_of_mem _ hmem)
  exact (List.mem_append.1 hall).resolve_right fun hge => Nat.not_lt.2 (mem_idsFrom.1 hge).1 hlt

/-- Comments and a declaration with a staged initial value, as they are listed after an edit: the
declaration stands in front of what was staged. -/
theorem listed_declared (hbuilt : Built tree (edit.atop tree) kept tree.size edit.limit [new])
    (hsame : (edit.atop tree).SameBelow next new)
    (hcomments : ∀ c ∈ comments, ∃ text, tree.kind? c = some (.comment text) ∧
      next.kind? c = some (.comment text))
    (hbefore : tree.kind? declaration = some (.stmt (.declare var (some init))))
    (hafter : next.kind? declaration = some (.stmt (.declare var (some new)))) :
    (∀ c ∈ comments ++ [declaration], next.Grounded c) ∧
      (comments ++ [declaration]).flatMap next.preorder ~
        (comments ++ declaration :: kept.flatMap tree.preorder) ++ idsFrom tree.size edit.limit ∧
      (comments ++ [declaration]).flatMap (next.landmarksUpTo tree.size) =
        (comments ++ declaration :: kept.flatMap tree.preorder).filterMap tree.mark? := by
  obtain ⟨hground, hlisted, -⟩ := hbuilt.listed_behind comments hsame hcomments
  have hg : next.Grounded declaration := .layer hafter fun d hd => by
    simp only [Kind.children, Stmt.children, Option.toList_some, List.mem_singleton] at hd
    exact hd ▸ hground new (by simp)
  -- the declaration has only the new code below it
  have hparts : next.parts declaration = [new] := parts_eq_children hafter
  refine ⟨fun c hc => ?_, ?_, ?_⟩
  · rcases List.mem_append.1 hc with hc | hc
    · exact hground c (List.mem_append_left _ hc)
    · exact List.mem_singleton.1 hc ▸ hg
  · rw [List.flatMap_append, List.flatMap_singleton] at hlisted ⊢
    rw [hg.preorder_eq, hparts, List.flatMap_singleton]
    refine List.perm_middle.trans ((List.Perm.cons declaration hlisted).trans ?_)
    rw [List.append_assoc, List.append_assoc, List.cons_append]
    exact List.perm_middle.symm
  · -- the declaration is a landmark, before and after
    have hmark : tree.mark? declaration = some (declaration, .stmt (.declare var (some ()))) :=
      mark?_eq_of_kind? hbefore
    have hmark' : next.mark? declaration = some (declaration, .stmt (.declare var (some ()))) :=
      mark?_eq_of_kind? hafter
    have hlandmarks : next.landmarksUpTo tree.size declaration =
        (tree.mark? declaration).toList ++ kept.flatMap tree.landmarks := by
      rw [landmarksUpTo, hg.landmarks_eq, hparts, hmark, hmark', ← hbuilt.landmarks_new hsame,
        List.filter_append, List.flatMap_singleton]
      simp [lt_size_of_kind? hbefore, landmarksUpTo]
    rw [List.flatMap_append, List.filterMap_append, landmarks_of_comments hcomments,
      List.flatMap_singleton, hlandmarks, flatMap_landmarks, List.filterMap_cons]
    cases tree.mark? declaration <;> rfl

/-- The declaration is kept with what is salvaged. -/
theorem exchanged_fold (hwf : tree.WellFormed) (hs : edit.Sound tree)
    (h : tree.DeclaredInFront up declaration init loop var left right)
    (hsalvage : Salvage tree [declaration, loop] kept comments) (hc : tree.Committed edit next)
    (hroot : next.root = tree.root)
    (hkinds : ∀ n, n ≠ up → n ≠ declaration → next.kind? n = (edit.atop tree).kind? n)
    (hlayerUp : Relayered tree next up (.stmt (.block (left ++ declaration :: loop :: right)))
      (.stmt (.block (left ++ comments ++ declaration :: right))))
    (hlayerDecl : Relayered tree next declaration (.stmt (.declare var (some init)))
      (.stmt (.declare var (some new))))
    (hground : ∀ c ∈ comments ++ [declaration], next.Grounded c)
    (hlisted : (comments ++ [declaration]).flatMap next.preorder ~
      (comments ++ declaration :: kept.flatMap tree.preorder) ++ idsFrom tree.size edit.limit)
    (hmarks : (comments ++ [declaration]).flatMap (next.landmarksUpTo tree.size) =
      (comments ++ declaration :: kept.flatMap tree.preorder).filterMap tree.mark?) :
    Exchanged tree next [declaration, loop]
        (comments ++ declaration :: kept.flatMap tree.preorder) ∧
      ∀ n ∈ comments ++ [declaration], next.Attached n := by
  -- in the list of the block, the two statements give way to the comments and the declaration
  have hsplice : tree.Spliced next tree.root up left [declaration, loop]
      (comments ++ [declaration]) right := {
    before := by simp [h.parts_up]
    after := ⟨_, hlayerUp.after, by simp [Kind.children, Stmt.children]⟩
    elsewhere := fun n hn hnup hnmid => by
      rw [hkinds n hnup fun heq => hnmid (mem_flatMap_preorder.2
        ⟨declaration, by simp, heq ▸ .refl n⟩)]
      exact (edit.grows_atop tree).kind?_eq n (hwf.lt_size hn)
    grounded := hground }
  -- the declaration counts as kept, in front of what is kept of it
  have hcases : ∀ {n}, n ∈ comments ++ declaration :: kept.flatMap tree.preorder →
      n = declaration ∨ n ∈ comments ++ kept.flatMap tree.preorder := by
    intro n hn
    simp only [List.mem_append, List.mem_cons] at hn ⊢
    tauto
  refine hwf.of_spliced hs hc hroot (fun n => ?_) h.attached hsplice hlisted hmarks ?_
    (fun n hn => ?_) (fun n hn hatt => ?_) fun n hn kind hkind => ?_
  · -- two layers are new, each of the sort that it was
    by_cases hnup : n = up
    · exact .inr ⟨_, _, hnup ▸ hlayerUp⟩
    by_cases hndecl : n = declaration
    · exact .inr ⟨_, _, hndecl ▸ hlayerDecl⟩
    exact .inl (hkinds n hnup hndecl)
  · rw [List.nodup_middle, List.nodup_cons]
    exact ⟨fun hmem => hsalvage.outside declaration hmem (by simp), hsalvage.nodup⟩
  · rcases hcases hn with rfl | hmem
    · exact hwf.lt_size h.declaration_attached
    · exact hsalvage.lt_size hwf hmem
  · rcases hcases hn with rfl | hmem
    · exact mem_flatMap_preorder.2 ⟨n, by simp, .refl n⟩
    · exact hsalvage.below n hmem hatt
  · rcases hcases hn with rfl | hmem
    · exact hwf.fits n kind h.declaration_attached hkind
    · exact hsalvage.fits_all hmem hkind

/-- **Replacing the initial value of a declaration** by staged code, behind comments, and giving
up the statement that follows. -/
theorem folded (hwf : tree.WellFormed) (hs : edit.Sound tree)
    (hbuilt : Built tree (edit.atop tree) kept tree.size edit.limit [new])
    (hsalvage : Salvage tree [declaration, loop] kept comments)
    (hkept : ∀ c ∈ kept, tree.Attached c)
    (h : tree.DeclaredInFront up declaration init loop var left right)
    (hnew : tree.size ≤ new.index) (hexpr : (edit.atop tree).Holds .expression new)
    (hops : edit.ops = comments.map (EditOp.insertBefore declaration) ++
      [.replace init new, .remove loop]) :
    ∃ next, tree.commit edit = .ok next ∧
      Regrown tree edit [declaration, loop]
        (comments ++ declaration :: kept.flatMap tree.preorder) new next ∧
      tree.Grafted next [declaration, loop] (comments ++ [declaration]) ∧
      next.Attached declaration ∧
      next.kind? declaration = some (.stmt (.declare var (some new))) := by
  -- the staged nodes link what is kept, each of it once
  have hlinks := hbuilt.checkLinks_eq hs hsalvage.grounded (List.nodup_append'.1 hsalvage.nodup).2.1
  have hnewlt : new.index < edit.limit := hs.size_atop ▸ hbuilt.grounded_single.lt_size
  have hapart := comments_apart hwf h hsalvage
  obtain ⟨next, hcommit, hc, hroot, hkinds, hlayer, hdeclares⟩ := commit_fold hwf hs hlinks hops h
    (fun c hc => ⟨(hsalvage.comments c hc).1, (hapart c hc).2⟩) ⟨hnew, hnewlt⟩
    fun p c hp hc hlt => by
      have hmem := mem_kept_of_staged hs hbuilt hsalvage.grounded hp hc hlt
      refine ⟨hkept c hmem, fun heq => hsalvage.outside c ?_ (by simp [heq])⟩
      exact List.mem_append_right _ (mem_flatMap_preorder.2 ⟨c, hmem, .refl c⟩)
  -- the layers that have changed are none of those that are kept
  have hkinds' : ∀ n, ¬ (n = up ∨ n = declaration) → next.kind? n = (edit.atop tree).kind? n :=
    fun n hn => hkinds n (fun heq => hn (.inl heq)) fun heq => hn (.inr heq)
  -- neither the block nor the declaration is below the new code
  have hsame : (edit.atop tree).SameBelow next new := by
    refine hbuilt.sameBelow _ hkinds' fun n hn => ⟨?_, fun hmem => ?_⟩
    · rcases hn with rfl | rfl
      · exact hwf.lt_size h.attached
      · exact hwf.lt_size h.declaration_attached
    · have hmem := List.mem_append_right comments hmem
      rcases hn with rfl | rfl
      · exact hsalvage.ne_of_mem hwf h.attached (fun m hm => h.mem_parts_up hm) hmem rfl
      · exact hsalvage.outside n hmem (by simp)
  have hcomments := comments_after hsalvage _ hkinds' fun c hc => by
    have hne := hapart c hc
    tauto
  obtain ⟨hground, hlisted, hmarks⟩ :=
    listed_declared hbuilt hsame hcomments h.declares hdeclares
  have hlayerUp : Relayered tree next up (.stmt (.block (left ++ declaration :: loop :: right)))
      (.stmt (.block (left ++ comments ++ declaration :: right))) := by
    refine .of_block h.attached h.block hlayer fun c hc => ?_
    simp only [List.mem_append, List.mem_cons] at hc ⊢
    rcases hc with (hc | hc) | hc | hc
    · exact .inl (.inl hc)
    · obtain ⟨text, -, htext⟩ := hcomments c hc
      exact .inr ⟨_, htext, rfl⟩
    · exact .inl (.inr (.inl hc))
    · exact .inl (.inr (.inr (.inr hc)))
  -- the initial value is an expression, as the one before it
  have hlayerDecl : Relayered tree next declaration (.stmt (.declare var (some init)))
      (.stmt (.declare var (some new))) := by
    obtain ⟨kind, hkind, hadmits⟩ := hexpr
    exact .of_declare h.declaration_attached h.declares hdeclares
      ⟨kind, (hsame new (.refl new)).trans hkind, hadmits⟩
  obtain ⟨hexchanged, hplaced⟩ :=
    exchanged_fold hwf hs h hsalvage hc hroot hkinds hlayerUp hlayerDecl hground hlisted hmarks
  have hattached := hplaced declaration (by simp)
  -- staged nodes are as they were staged
  have hfresh : ∀ n : NodeId, tree.size ≤ n.index → next.kind? n = (edit.atop tree).kind? n :=
    fun n hle => hkinds n (fun heq => Nat.not_lt.2 hle (heq ▸ hwf.lt_size h.attached))
      fun heq => Nat.not_lt.2 hle (heq ▸ hwf.lt_size h.declaration_attached)
  refine ⟨next, hcommit,
    ⟨hexchanged, hc, hc.size_eq ▸ hs.le_limit, hattached.of_mem ?_, hsame, fun n hn hmid => ?_,
      fun n hn hmid hparent => ?_, fun _ => hroot, fun htop => ?_, hfresh,
      fun n k hle hk => hs.glue n k hle (hfresh n hle ▸ hk)⟩,
    grafted_block hwf h.attached (by simpa using h.block) (by simp) (fun n hn hnup hout => ?_)
      (by simpa using hlayer), hattached, hdeclares⟩
  · simp [parts_eq_children hdeclares, Kind.children, Stmt.children]
  · have hmem : ∀ m ∈ [declaration, loop], m ∈ tree.parts up := fun m hm => h.mem_parts_up hm
    rw [hkinds n (hwf.ne_of_mem_below h.attached hmem hn) fun heq => hmid (by simp [heq])]
    exact (edit.grows_atop tree).kind?_eq n (hwf.lt_size_of_mem_below h.attached hmem hn)
  · have hup : tree.parent? declaration = some up :=
      hwf.parent?_of_mem h.attached (h.mem_parts_up (by simp))
    rw [hkinds n (fun heq => hparent declaration (by simp) (heq ▸ hup)) fun heq =>
      hmid (by simp [heq])]
    exact (edit.grows_atop tree).kind?_eq n hn
  · exact absurd (h.mem_parts_up htop) (hwf.linkedOnce.top_unlinked up h.attached)
  · rw [hkinds n hnup fun heq =>
      hout (mem_flatMap_preorder.2 ⟨declaration, by simp, heq ▸ .refl n⟩)]
    exact (edit.grows_atop tree).kind?_eq n (hwf.lt_size hn)

end Folding

end Edit.Sound

end LoopToStream
