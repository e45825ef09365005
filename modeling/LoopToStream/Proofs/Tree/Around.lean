import LoopToStream.Proofs.Tree.Grafting
import LoopToStream.Proofs.Tree.Undisturbed

/-!
# Around a change

A rewrite gives up some statements of a tree and puts others in their place (`Tree.Revised`). What
is outside of the statements that are given up (`Tree.Outside`) hangs in the tree as before and has
the parent that it had, and an expression there is the same layer. If nothing that is given up is
below it either (`Tree.Beside`), it is the same code.

Two rewrites in a row are put together from these: the statements that the second one gives up are
beside those of the first, so that they are still there, and what the first one has placed is
beside them (`Revised.beside_placed`).
-/

namespace LoopToStream

namespace Tree

variable {tree next : Tree} {given placed given' : List NodeId} {a b c g m n p : NodeId} {v : VarId}
  {kind : Kind NodeId} {e : Expr NodeId}

/-! ### What writes -/

/-- What is written to is a part of an expression, and the expression is a landmark and no glue. -/
theorem Overwrites.exists_expr {target : NodeId} (h : tree.Overwrites n target) :
    ∃ e, tree.kind? n = some (.expr e) ∧ target ∈ e.children ∧ (Kind.expr e).isLandmark = true ∧
      (Kind.expr e).isGlue = false := by
  cases h with
  | assign here => exact ⟨_, here, by simp [Expr.children], rfl, rfl⟩
  | step here steps => exact ⟨_, here, by simp [Expr.children], rfl, rfl⟩

theorem writtenAt?_of_writesTo (h : tree.writesTo v n = true) :
    ∃ target, Flow.writtenAt? tree n = some target := by
  rw [writesTo, decide_eq_true_eq] at h
  obtain ⟨target, htarget, -⟩ := Option.bind_eq_some_iff.1 h
  exact ⟨target, htarget⟩

/-- Writing is done by landmarks, though it takes more than the landmark to tell to which variable.
-/
theorem writesTo_eq_any (tree : Tree) (v : VarId) (n : NodeId) :
    tree.writesTo v n =
      (tree.mark? n).any fun mark => mark.2.expr?.isSome && tree.writesTo v mark.1 := by
  cases hwrites : tree.writesTo v n with
  | false =>
    cases hmark : tree.mark? n with
    | none => rfl
    | some mark =>
      obtain ⟨shape, -, rfl⟩ := Option.map_eq_some_iff.1 hmark
      simp [hwrites]
  | true =>
    obtain ⟨target, htarget⟩ := writtenAt?_of_writesTo hwrites
    -- assignments, increments and decrements are landmarks, and their shape is that of an
    -- expression
    obtain ⟨e, hkind, -, hlandmark, -⟩ := (writtenAt?_eq_some.1 htarget).exists_expr
    have hshape : (Kind.expr e).shape.expr?.isSome = true := rfl
    simp [mark?_eq_of_kind? hkind, Kind.mark?, hlandmark, hshape, hwrites]

/-- Writes in code that is the same are the same. -/
theorem SameBelow.writesTo_eq (h : tree.SameBelow next n) (hg : tree.Grounded n) (v : VarId) :
    next.writesTo v n = tree.writesTo v n := by
  have hwritten : Flow.writtenAt? next n = Flow.writtenAt? tree n := by
    unfold Flow.writtenAt?
    rw [h.expr?_eq]
  rw [writesTo, writesTo, hwritten]
  cases htarget : Flow.writtenAt? tree n with
  | none => rfl
  | some target =>
    -- what is written to is a part of the write, where nothing has changed either
    obtain ⟨e, hkind, hmem, -⟩ := (writtenAt?_eq_some.1 htarget).exists_expr
    have hpart : target ∈ tree.parts n := parts_eq_children hkind ▸ hmem
    rw [Option.bind_some, Option.bind_some,
      (h.of_reaches (.of_mem hpart)).variableAt?_eq (hg.of_mem_parts hpart)]

/-! ### Outside of what is given up -/

/-- The node hangs in the tree, and not in what is given up. -/
structure Outside (tree : Tree) (given : List NodeId) (n : NodeId) : Prop where
  attached : tree.Attached n
  not_below : ∀ g ∈ given, ¬ tree.Reaches g n

/-- Nothing that is given up is below the node either. -/
structure Beside (tree : Tree) (given : List NodeId) (a : NodeId) : Prop
    extends Outside tree given a where
  not_above : ∀ g ∈ given, ¬ tree.Reaches a g

namespace Outside

theorem notMem (h : tree.Outside given n) : n ∉ given := fun hmem => h.not_below n hmem (.refl n)

/-- What is above is outside as well. -/
theorem of_reaches (h : tree.Outside given n) (hm : tree.Attached m) (hmn : tree.Reaches m n) :
    tree.Outside given m :=
  ⟨hm, fun g hg hgm => h.not_below g hg (hgm.trans hmn)⟩

/-- A part that is not given up is outside as well. -/
theorem of_mem (h : tree.Outside given p) (hwf : tree.WellFormed)
    (hgiven : ∀ g ∈ given, tree.Attached g) (hc : c ∈ tree.parts p) (hno : c ∉ given) :
    tree.Outside given c := by
  refine ⟨h.attached.of_mem hc, fun g hg hgc => ?_⟩
  rcases Relation.ReflTransGen.cases_tail hgc with rfl | ⟨q, hgq, hq⟩
  · exact hno hg
  · obtain rfl := hwf.linkedOnce.one_linker q p c ((hgiven g hg).reaches hgq) h.attached hq hc
    exact h.not_below g hg hgq

end Outside

/-- Below what is beside something, everything is. -/
theorem Beside.of_reaches (h : tree.Beside given a) (hwf : tree.WellFormed)
    (hgiven : ∀ g ∈ given, tree.Attached g) (hn : tree.Reaches a n) : tree.Beside given n where
  attached := h.attached.reaches hn
  not_below g hg hgn := by
    rcases hwf.linkedOnce.total (hgiven g hg) h.attached hgn hn with hga | hag
    · exact h.not_below g hg hga
    · exact h.not_above g hg hag
  not_above g hg hng := h.not_above g hg (hn.trans hng)

/-! ### Statements that are given up -/

/-- **A rewrite** of a well-formed tree. It has put `placed` in the place of the statements `given`,
which are no blocks, and the top is the same. -/
structure Revised (tree next : Tree) (given placed : List NodeId) : Prop where
  before : tree.WellFormed
  after : next.WellFormed
  root_eq : next.root = tree.root
  root_notMem : tree.root ∉ given
  given_attached : ∀ g ∈ given, tree.Attached g
  given_stmt : ∀ g ∈ given, ∃ s, tree.kind? g = some (.stmt s) ∧ s.isBlock = false
  grafted : tree.Grafted next given placed

namespace Revised

variable (h : tree.Revised next given placed)
include h

theorem kind?_eq (hn : tree.Outside given n) :
    next.kind? n = (tree.kind? n).map (Kind.graft (exchange given placed)) :=
  h.grafted n hn.attached fun hmem => by
    obtain ⟨g, hg, hgn⟩ := List.mem_flatMap.1 hmem
    exact hn.not_below g hg (mem_preorder_iff.1 hgn)

theorem outside_root : tree.Outside given tree.root := by
  refine ⟨attached_root, fun g hg hreach => ?_⟩
  rcases Relation.ReflTransGen.cases_tail hreach with heq | ⟨p, hp, hroot⟩
  · exact h.root_notMem (heq ▸ hg)
  · exact h.before.linkedOnce.top_unlinked p ((h.given_attached g hg).reaches hp) hroot

/-- What is outside is linked from where it was. -/
theorem mem_parts (hp : tree.Attached p) (hc : c ∈ tree.parts p) (hout : tree.Outside given c) :
    c ∈ next.parts p := by
  obtain ⟨kind, hkind⟩ := exists_kind_of_lt (h.before.lt_size hp)
  have hafter := h.kind?_eq (hout.of_reaches hp (.of_mem hc))
  rw [hkind, Option.map_some] at hafter
  rw [parts_eq_children hafter]
  exact Kind.mem_children_graft (parts_eq_children hkind ▸ hc) (exchange_of_notMem hout.notMem)

/-- What is linked from outside afterwards has been linked from there before, or has been placed. -/
theorem mem_parts_or_placed (hn : tree.Outside given n) (hc : c ∈ next.parts n) :
    c ∈ tree.parts n ∨ c ∈ placed := by
  obtain ⟨kind, hkind⟩ := exists_kind_of_lt (h.before.lt_size hn.attached)
  have hafter := h.kind?_eq hn
  rw [hkind, Option.map_some] at hafter
  rw [parts_eq_children hafter] at hc
  rw [parts_eq_children hkind]
  -- a part is kept, or it stands in the exchange for one that is given up
  rcases Kind.mem_children_of_graft hc with hc | ⟨d, hd, hc⟩
  · exact .inl hc
  · rcases eq_or_mem_of_mem_exchange hc with rfl | hplaced
    · exact .inl hd
    · exact .inr hplaced

/-- **What is outside still hangs in the tree.** By induction on the way down from the top. -/
theorem attached (hn : tree.Outside given n) : next.Attached n := by
  obtain ⟨hattached, hout⟩ := hn
  induction hattached with
  | refl => exact h.root_eq ▸ attached_root
  | @tail p c hp hc ih =>
    have hp : tree.Attached p := hp
    have hc' : tree.Outside given c := ⟨hp.of_mem hc, hout⟩
    exact (ih (hc'.of_reaches hp (.of_mem hc)).not_below).of_mem (h.mem_parts hp hc hc')

/-- **What is outside has the parent that it had.** -/
theorem parent?_eq (hn : tree.Outside given n) : next.parent? n = tree.parent? n := by
  rcases hn.attached.eq_root_or with rfl | ⟨p, hp, hc⟩
  · rw [h.before.parent?_root, ← h.root_eq, h.after.parent?_root]
  · rw [h.before.parent?_of_mem hp hc,
      h.after.parent?_of_mem (h.attached (hn.of_reaches hp (.of_mem hc))) (h.mem_parts hp hc hn)]

/-- What is above it afterwards was above it before. By induction on the way up. -/
theorem reaches_of_next (hn : tree.Outside given n) (hm : next.Attached m)
    (hreach : next.Reaches m n) : tree.Reaches m n ∧ tree.Outside given m := by
  induction hreach with
  | refl => exact ⟨.refl m, hn⟩
  | @tail p c hp hc ih =>
    -- outside the parents are the old ones, which lead back up the old way
    have hparent := h.after.parent?_of_mem (hm.reaches hp) hc
    rw [h.parent?_eq hn] at hparent
    obtain ⟨hp', hc'⟩ := h.before.parent?_eq_some.1 hparent
    obtain ⟨hmp, hout⟩ := ih (hn.of_reaches hp' (.of_mem hc'))
    exact ⟨hmp.tail hc', hout⟩

/-- **What is beside is the same code.** -/
theorem sameBelow (ha : tree.Beside given a) : tree.SameBelow next a := by
  intro n hn
  have hbeside := ha.of_reaches h.before h.given_attached hn
  obtain ⟨kind, hkind⟩ := exists_kind_of_lt (h.before.lt_size hbeside.attached)
  have hself : kind.graft (exchange given placed) = kind := by
    refine Kind.graft_eq_self fun c hc => exchange_of_notMem fun hmem => ?_
    exact hbeside.not_above c hmem (.of_mem (parts_eq_children hkind ▸ hc))
  rw [h.kind?_eq hbeside.toOutside, hkind, Option.map_some, hself]

/-! ### Expressions -/

/-- Where expressions have their places, no statement is given up. -/
theorem notMem_of_slot {slot : Slot} (hn : tree.Attached n) (hkind : tree.kind? n = some kind)
    (hslot : (slot, c) ∈ kind.slots) (hplace : slot = .expression ∨ slot = .functionBody) :
    c ∉ given := by
  intro hmem
  -- what is given up is a statement that is no block, and these places admit expressions and blocks
  obtain ⟨s, hstmt, hblock⟩ := h.given_stmt c hmem
  obtain ⟨kind', hkind', hadmits⟩ := h.before.fits n _ hn hkind slot c hslot
  obtain rfl : Kind.stmt s = kind' := Option.some.inj (hstmt.symm.trans hkind')
  rcases hplace with rfl | rfl
  · cases hadmits
  · rw [Slot.admits, hblock] at hadmits
    cases hadmits

theorem notMem_of_expr (hn : tree.Attached n) (hkind : tree.kind? n = some (.expr e)) :
    ∀ c ∈ e.children, c ∉ given := by
  intro c hc
  cases e with
  | lambda params explicitTypes body =>
    obtain rfl : c = body := by simpa [Expr.children] using hc
    exact h.notMem_of_slot hn hkind (List.mem_singleton_self _) (.inr rfl)
  | _ => exact h.notMem_of_slot hn hkind (List.mem_map.2 ⟨c, hc, rfl⟩) (.inl rfl)

/-- **An expression outside is the same layer.** -/
theorem kind?_expr (hn : tree.Outside given n) (hkind : tree.kind? n = some (.expr e)) :
    next.kind? n = some (.expr e) := by
  have hself : (Kind.expr e).graft (exchange given placed) = .expr e :=
    Kind.graft_eq_self fun c hc => exchange_of_notMem (h.notMem_of_expr hn.attached hkind c hc)
  rw [h.kind?_eq hn, hkind, Option.map_some, hself]

theorem outside_of_expr (hn : tree.Outside given n) (hkind : tree.kind? n = some (.expr e))
    (hc : c ∈ e.children) : tree.Outside given c :=
  hn.of_mem h.before h.given_attached (parts_eq_children hkind ▸ hc)
    (h.notMem_of_expr hn.attached hkind c hc)

/-- No expression comes about outside. -/
theorem expr?_eq (hn : tree.Outside given n) : next.expr? n = tree.expr? n := by
  cases hexpr : tree.expr? n with
  | some e => exact expr?_eq_some.2 (h.kind?_expr hn (expr?_eq_some.1 hexpr))
  | none =>
    -- an exchange of statements makes no layer an expression
    rw [expr?, h.kind?_eq hn]
    rw [expr?] at hexpr
    cases hkind : tree.kind? n with
    | none => rfl
    | some kind =>
      rw [hkind] at hexpr
      cases kind with
      | stmt s => cases s <;> rfl
      | expr e => cases hexpr
      | comment text => rfl

/-- An expression outside stands for the variable that it stood for. By induction on the expression,
since there may be parentheses around a name. -/
theorem variableAt?_eq (hn : tree.Outside given n) : next.variableAt? n = tree.variableAt? n := by
  have hg := h.before.grounded hn.attached
  induction hg with
  | @layer n kind here below ih =>
    have hg : tree.Grounded n := .layer here below
    have hparen : next.parenthesised? n = tree.parenthesised? n := by
      rw [parenthesised?, parenthesised?, h.expr?_eq hn]
    rw [variableAt?, variableAt?, hg.skipParens_eq,
      (h.after.grounded (h.attached hn)).skipParens_eq, hparen]
    cases hinner : tree.parenthesised? n with
    | none => rw [h.expr?_eq hn]
    | some inner =>
      have hkind := parenthesised?_eq_some.1 hinner
      obtain rfl := Option.some.inj (here.symm.trans hkind)
      -- parentheses have an expression in them, so their content is outside as well
      exact ih inner (by simp [Kind.children, Expr.children])
        (h.outside_of_expr hn hkind (by simp [Expr.children]))

/-- **A write outside is the write that it was.** -/
theorem writesTo_eq (hn : tree.Outside given n) (v : VarId) :
    next.writesTo v n = tree.writesTo v n := by
  have hwritten : Flow.writtenAt? next n = Flow.writtenAt? tree n := by
    unfold Flow.writtenAt?
    rw [h.expr?_eq hn]
  rw [writesTo, writesTo, hwritten]
  cases htarget : Flow.writtenAt? tree n with
  | none => rfl
  | some target =>
    -- what is written to is an expression below one outside, so it is outside too
    obtain ⟨e, hkind, hmem, -⟩ := (writtenAt?_eq_some.1 htarget).exists_expr
    rw [Option.bind_some, Option.bind_some, h.variableAt?_eq (h.outside_of_expr hn hkind hmem)]

/-! ### Two rewrites in a row -/

variable (hgiven : ∀ g ∈ given', tree.Beside given g)
include hgiven

/-- What is outside of both is still outside of the second after the first. -/
theorem outside_next (hn : tree.Outside given n) (hn' : tree.Outside given' n) :
    next.Outside given' n :=
  ⟨h.attached hn, fun g hg hreach =>
    hn'.not_below g hg ((h.sameBelow (hgiven g hg)).reaches_iff.1 hreach)⟩

/-- **What the first rewrite has put into the tree** is beside what the second one gives up. -/
theorem beside_placed (hn : next.Attached n) (hno : ¬ tree.Outside given n) :
    next.Beside given' n where
  attached := hn
  not_below g hg hreach := by
    have hgn := (h.sameBelow (hgiven g hg)).reaches_iff.1 hreach
    exact hno ((hgiven g hg).of_reaches h.before h.given_attached hgn).toOutside
  not_above g hg hreach := hno (h.reaches_of_next (hgiven g hg).toOutside hn hreach).2

end Revised

end Tree

end LoopToStream
