import LoopToStream.Proofs.Tree.Relinking

/-!
# Rules for what may stand where

That a tree is well-formed includes that each part may stand at its place (`Slot.admits`). For most
places that is a matter of sorts: they take any statement, any expression, or between the statements
of a block a comment as well. Only the body of a function literal is asked for more, as a statement
there has to be a block. `Slot.takes` is the rule that goes by sorts alone.

Either rule looks at the outline of a layer, which edits leave as it is. `Tree.WellFormedBy` asks
the same of a tree as `Tree.WellFormed` does, with what may stand where left to a rule.
-/

namespace LoopToStream

variable {tree next : Tree} {c n : NodeId} {kind : Kind NodeId} {slot : Slot}
  {rule rule' : Slot → Kind Unit → Bool}

/-! ### Sorts -/

namespace Kind

variable {α β ι : Type}

/-- Two statements, two expressions or two comments. -/
def sameSort : Kind α → Kind β → Bool
  | stmt _, stmt _ | expr _, expr _ | comment _, comment _ => true
  | _, _ => false

theorem sameSort_outline (kind : Kind ι) : kind.outline.sameSort kind = true := by
  cases kind with
  | stmt s => cases s <;> rfl
  | expr e => rfl
  | comment text => rfl

theorem mem_slots_block {stmts : List ι} {c : ι} :
    (slot, c) ∈ (Kind.stmt (.block stmts)).slots ↔ slot = .blockItem ∧ c ∈ stmts := by
  simp [slots, Stmt.slots, eq_comm, and_comm]

end Kind

namespace Slot

variable {α β ι : Type}

/-- A layer is of a sort that such a place takes. -/
def takes : Slot → Kind ι → Bool
  | statement, .stmt _ => true
  | expression, .expr _ => true
  | blockItem, .stmt _ => true
  | blockItem, .comment _ => true
  | functionBody, .expr _ => true
  | functionBody, .stmt _ => true
  | _, _ => false

/-- Function bodies aside, the sort of a layer is all that matters. -/
theorem takes_eq_admits (h : slot ≠ .functionBody)
    (kind : Kind ι) : slot.takes kind = slot.admits kind := by
  cases slot <;> first | exact absurd rfl h | (cases kind <;> rfl)

theorem takes_of_admits {kind : Kind ι} (h : slot.admits kind = true) : slot.takes kind = true := by
  cases slot <;> cases kind <;> first | rfl | exact h

theorem takes_congr {kind : Kind α} {kind' : Kind β} (h : kind.sameSort kind' = true) :
    slot.takes kind = slot.takes kind' := by
  cases kind <;> cases kind' <;> first | cases slot <;> rfl | cases h

@[simp] theorem takes_outline (slot : Slot) (kind : Kind ι) :
    slot.takes kind.outline = slot.takes kind :=
  takes_congr kind.sameSort_outline

@[simp] theorem admits_outline (slot : Slot) (kind : Kind ι) :
    slot.admits kind.outline = slot.admits kind := by
  cases kind with
  | stmt s =>
    cases s with
    | block stmts => cases slot <;> rfl
    | _ => exact admits_map slot _ (.stmt _)
  | expr e => exact admits_map slot _ (.expr e)
  | comment text => cases slot <;> rfl

end Slot

/-! ### Trees that obey a rule -/

namespace Tree

/-- Something stands at `id` that the rule lets stand at a place of this sort. -/
def HoldsBy (rule : Slot → Kind Unit → Bool) (tree : Tree) (slot : Slot) (id : NodeId) : Prop :=
  ∃ outline, tree.outline? id = some outline ∧ rule slot outline = true

/-- The rule lets each part of a layer stand at its place. -/
def FitsBy (rule : Slot → Kind Unit → Bool) (tree : Tree) (kind : Kind NodeId) : Prop :=
  ∀ slot c, (slot, c) ∈ kind.slots → tree.HoldsBy rule slot c

/-- **Well-formed by a rule.** What may stand where is up to the rule, and all else is asked of the
tree that is asked of well-formed ones. -/
structure WellFormedBy (rule : Slot → Kind Unit → Bool) (tree : Tree) :
    Prop extends tree.Closed where
  vars_known : ∀ id kind, tree.kind? id = some kind → ∀ v ∈ kind.vars, v.index < tree.vars.size
  linkedOnce : tree.LinkedOnce
  fits : ∀ id kind, tree.Attached id → tree.kind? id = some kind → tree.FitsBy rule kind
  relinked : tree.relink = .ok tree

theorem holdsBy_iff : tree.HoldsBy rule slot n ↔
    ∃ kind, tree.kind? n = some kind ∧ rule slot kind.outline = true := by
  simp [HoldsBy, outline?_eq_some]

theorem holdsBy_admits : tree.HoldsBy Slot.admits slot n ↔ tree.Holds slot n := by
  simp [holdsBy_iff, Holds]

theorem holdsBy_takes : tree.HoldsBy Slot.takes slot n ↔
    ∃ kind, tree.kind? n = some kind ∧ slot.takes kind = true := by
  simp [holdsBy_iff]

theorem fitsBy_admits : tree.FitsBy Slot.admits kind ↔ tree.Fits kind := by
  simp [FitsBy, Fits, holdsBy_admits]

/-- Well-formed trees are so by the rule that their definition states. -/
theorem wellFormedBy_admits : tree.WellFormedBy Slot.admits ↔ tree.WellFormed :=
  ⟨fun h => { h with fits := fun id kind hid hkind => fitsBy_admits.1 (h.fits id kind hid hkind) },
    fun h => { h with fits := fun id kind hid hkind => fitsBy_admits.2 (h.fits id kind hid hkind) }⟩

/-- A rule that lets more stand is obeyed as well. -/
theorem WellFormedBy.mono (h : tree.WellFormedBy rule)
    (hrule : ∀ slot outline, rule slot outline = true → rule' slot outline = true) :
    tree.WellFormedBy rule' :=
  { h with
    fits := fun id kind hid hkind slot c hc => by
      obtain ⟨outline, houtline, holds⟩ := h.fits id kind hid hkind slot c hc
      exact ⟨outline, houtline, hrule slot outline holds⟩ }

/-- In a well-formed tree, each part is of a sort that its place takes. -/
theorem WellFormed.wellFormedBy_takes (h : tree.WellFormed) : tree.WellFormedBy Slot.takes :=
  (wellFormedBy_admits.2 h).mono fun _ _ => Slot.takes_of_admits

/-- No operation changes what a rule looks at. -/
theorem Relinks.holdsBy (h : tree.Relinks next) (hc : tree.HoldsBy rule slot c) :
    next.HoldsBy rule slot c := by
  rwa [HoldsBy, h.outline_eq]

theorem Grows.holdsBy (h : tree.Grows next) (hc : tree.HoldsBy rule slot c) :
    next.HoldsBy rule slot c := by
  obtain ⟨kind, hkind, hrule⟩ := holdsBy_iff.1 hc
  exact holdsBy_iff.2 ⟨kind, h.kind?_of_some hkind, hrule⟩

end Tree

end LoopToStream
