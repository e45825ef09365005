import LoopToStream.Proofs.Tree.WellFormed

/-!
# The way up

Where the parent of a node links it and no way down returns (`Tree.Upward`), the way up ends, after
at most as many steps as there are nodes. `Tree.climb` then satisfies the equation that one expects
of it (`Upward.climb_eq`). A node may be linked from several places for that.

In a well-formed tree there is one way up only, which leads to the top from every node that hangs in
the tree, and the questions asked by climbing have the answers that the parts give:
`WellFormed.isAncestor_eq` and `WellFormed.isAttached_eq` state them in terms of what can be
reached.
-/

namespace LoopToStream

namespace Tree

variable {tree : Tree} {β : Type} {judge : NodeId → NodeId → Option β} {a b c n p id : NodeId}

/-! ### Enough steps -/

open Classical in
/-- How many nodes that hang in the tree are above a node. -/
noncomputable def height (tree : Tree) (id : NodeId) : Nat :=
  (tree.ids.filter fun n => tree.Attached n ∧ tree.StrictlyReaches n id).card

theorem height_le : tree.height id ≤ tree.size := by
  classical
  exact (Finset.card_filter_le _ _).trans_eq card_ids

theorem climbWithin_succ (hid : id.index < tree.size) (steps : Nat) :
    tree.climbWithin judge (steps + 1) id =
      match tree.parent? id with
      | none => .ok none
      | some up =>
        match judge id up with
        | some verdict => .ok (some verdict)
        | none => tree.climbWithin judge steps up := by
  rw [climbWithin, parent_of_lt hid, ok_bind]
  cases tree.parent? id with
  | none => rfl
  | some up => cases judge id up <;> rfl

/-- The parents are nodes of the table. -/
def ParentsKnown (tree : Tree) : Prop := ∀ id p, tree.parent? id = some p → p.index < tree.size

/-- **A way up does not get lost** where the parents are known, wherever it ends. -/
theorem ParentsKnown.exists_climb (hup : tree.ParentsKnown) (hid : id.index < tree.size)
    (judge : NodeId → NodeId → Option β) : ∃ verdict, tree.climb judge id = .ok verdict := by
  rw [climb]
  -- by induction on the steps, from wherever they start
  induction tree.pathBound generalizing id with
  | zero => exact ⟨none, rfl⟩
  | succ steps ih =>
    rw [climbWithin_succ hid]
    cases hparent : tree.parent? id with
    | none => exact ⟨none, rfl⟩
    | some up =>
      cases hjudge : judge id up with
      | some verdict => exact ⟨some verdict, by simp [hjudge]⟩
      | none =>
        obtain ⟨verdict, hverdict⟩ := ih (hup id up hparent)
        exact ⟨verdict, by simpa [hjudge] using hverdict⟩

theorem ParentsKnown.exists_isAncestor (hup : tree.ParentsKnown) (hid : id.index < tree.size)
    (a : NodeId) :
    ∃ answer, tree.isAncestor a id = .ok answer := by
  rw [isAncestor]
  split
  · exact ⟨true, rfl⟩
  · obtain ⟨verdict, hverdict⟩ := hup.exists_climb hid fun _ up => if up = a then some () else none
    exact ⟨verdict.isSome, by rw [climbsTo, hverdict]; rfl⟩

theorem isInBlock_eq (hid : id.index < tree.size) :
    tree.isInBlock id = .ok ((tree.parent? id).any tree.isBlock) := by
  rw [isInBlock, parent_of_lt hid]
  rfl

/-- No way down from the top returns to a node. -/
def Acyclic (tree : Tree) : Prop := ∀ n, tree.Attached n → ¬ tree.StrictlyReaches n n

/-- The way down from `a` to `n` goes from a node to a part of it. -/
def GoesBy (tree : Tree) (a n up c : NodeId) : Prop :=
  tree.Reaches a up ∧ c ∈ tree.parts up ∧ tree.Reaches c n

/-- **The parents lead up**: the parent of a node links it and hangs in the tree, and no way down
returns. -/
structure Upward (tree : Tree) : Prop where
  known : ∀ n, tree.Attached n → n.index < tree.size
  acyclic : tree.Acyclic
  links : ∀ id p, tree.parent? id = some p → tree.Attached p ∧ id ∈ tree.parts p

namespace Upward

variable (h : tree.Upward)
include h

theorem parentsKnown : tree.ParentsKnown := fun id p hp => h.known p (h.links id p hp).1

theorem height_lt (hp : tree.Attached p) (hc : c ∈ tree.parts p) :
    tree.height p < tree.height c := by
  classical
  refine Finset.card_lt_card ((Finset.ssubset_iff_of_subset fun x hx => ?_).2 ⟨p, ?_, ?_⟩)
  · rw [Finset.mem_filter] at hx ⊢
    exact ⟨hx.1, hx.2.1, Relation.TransGen.tail hx.2.2 hc⟩
  · exact Finset.mem_filter.2 ⟨mem_ids.2 (h.known _ hp), hp, .of_mem hc⟩
  · rw [Finset.mem_filter]
    exact fun hx => h.acyclic p hp hx.2.2

/-- The number of steps does not matter once there are more than nodes above. -/
theorem climbWithin_eq (hid : id.index < tree.size) {i j : Nat} (hi : tree.height id < i)
    (hj : tree.height id < j) : tree.climbWithin judge i id = tree.climbWithin judge j id := by
  induction hw : tree.height id using Nat.strong_induction_on generalizing id i j with
  | _ w ih =>
    -- both have a step left, and the parent is one node higher up
    obtain ⟨i, rfl⟩ : ∃ k, i = k + 1 := ⟨i - 1, by omega⟩
    obtain ⟨j, rfl⟩ : ∃ k, j = k + 1 := ⟨j - 1, by omega⟩
    rw [climbWithin_succ hid, climbWithin_succ hid]
    cases hparent : tree.parent? id with
    | none => rfl
    | some up =>
      obtain ⟨hup, hmem⟩ := h.links _ _ hparent
      have hlt := h.height_lt hup hmem
      cases hjudge : judge id up with
      | some verdict => simp [hjudge]
      | none =>
        simp only [hjudge]
        exact ih (tree.height up) (hw ▸ hlt) (h.known _ hup) (by omega) (by omega) rfl

/-- **The way up, step by step.** -/
theorem climb_eq (hid : id.index < tree.size) :
    tree.climb judge id =
      match tree.parent? id with
      | none => .ok none
      | some up =>
        match judge id up with
        | some verdict => .ok (some verdict)
        | none => tree.climb judge up := by
  rw [climb, pathBound, climbWithin_succ hid]
  cases hparent : tree.parent? id with
  | none => rfl
  | some up =>
    obtain ⟨hup, hmem⟩ := h.links _ _ hparent
    cases hjudge : judge id up with
    | some verdict => simp [hjudge]
    | none =>
      -- a parent is higher up, so its way is shorter and the bound covers it
      have hlt := h.height_lt hup hmem
      have hle : tree.height id ≤ tree.size := height_le
      simp only [hjudge]
      exact h.climbWithin_eq (h.known _ hup) (by omega) (by rw [pathBound]; omega)

end Upward

namespace WellFormed

variable (h : tree.WellFormed)
include h

theorem upward : tree.Upward where
  known _ hn := h.lt_size hn
  acyclic _ hn := h.linkedOnce.irrefl hn
  links _ _ hparent := h.parent?_eq_some.1 hparent

/-- From a node that does not hang in the tree no way leads up. -/
theorem climb_of_not_attached (hid : id.index < tree.size) (hno : ¬ tree.Attached id) :
    tree.climb judge id = .ok none := by
  rw [h.upward.climb_eq hid, h.parent?_of_not_attached hno]

theorem climb_root : tree.climb judge tree.root = .ok none := by
  rw [h.upward.climb_eq h.top_known, h.parent?_root]

theorem climb_part (hp : tree.Attached p) (hc : c ∈ tree.parts p) :
    tree.climb judge c =
      match judge c p with
      | some verdict => .ok (some verdict)
      | none => tree.climb judge p := by
  rw [h.upward.climb_eq (h.lt_size (hp.of_mem hc)), h.parent?_of_mem hp hc]

/-! ### Above and below -/

open Classical in
theorem climbsTo_eq (hid : id.index < tree.size) :
    tree.climbsTo a id = .ok (decide (tree.Attached a ∧ tree.StrictlyReaches a id)) := by
  by_cases hatt : tree.Attached id
  · induction hatt with
    | refl =>
      rw [climbsTo, h.climb_root]
      -- nothing is above the top
      have hno : ¬ (tree.Attached a ∧ tree.StrictlyReaches a tree.root) := by
        rintro ⟨ha, hstrict⟩
        obtain ⟨p, hp, hmem⟩ := strictlyReaches_iff_last.1 hstrict
        exact h.linkedOnce.top_unlinked p (ha.reaches hp) hmem
      simp [hno]
    | @tail p c hp hc ih =>
      have hp : tree.Attached p := hp
      have ih := ih (h.lt_size hp)
      rw [climbsTo, h.climb_part hp hc]
      by_cases hpa : p = a
      · subst hpa
        simp [hp, StrictlyReaches.of_mem hc]
      · -- the last step down to the node comes from its parent
        have hiff : tree.Attached a ∧ tree.StrictlyReaches a c ↔
            tree.Attached a ∧ tree.StrictlyReaches a p := by
          refine and_congr_right fun ha => ⟨fun hs => ?_, fun hs => hs.tail hc⟩
          obtain ⟨q, hq, hqc⟩ := strictlyReaches_iff_last.1 hs
          obtain rfl := h.linkedOnce.one_linker q p c (ha.reaches hq) hp hqc hc
          exact (reaches_iff_eq_or_strictly.1 hq).resolve_left hpa
        rw [climbsTo] at ih
        simpa [hpa, hiff] using ih
  · rw [climbsTo, h.climb_of_not_attached hid hatt]
    -- what is below the tree hangs in it
    have hno : ¬ (tree.Attached a ∧ tree.StrictlyReaches a id) :=
      fun hs => hatt (hs.1.reaches hs.2.reaches)
    simp [hno]

open Classical in
/-- **Being at or above a node** is a matter of what can be reached. -/
theorem isAncestor_eq (hid : id.index < tree.size) :
    tree.isAncestor a id =
      .ok (decide (id = a ∨ tree.Attached a ∧ tree.StrictlyReaches a id)) := by
  rw [isAncestor, h.climbsTo_eq hid]
  by_cases heq : id = a <;> simp [heq]

open Classical in
/-- Among the nodes that hang in the tree, the ancestors are those that reach the node. -/
theorem isAncestor_eq_of_attached (ha : tree.Attached a) (hid : id.index < tree.size) :
    tree.isAncestor a id = .ok (decide (tree.Reaches a id)) := by
  rw [h.isAncestor_eq hid]
  simp [ha, reaches_iff_eq_or_strictly]

open Classical in
theorem isAttached_eq (hid : id.index < tree.size) :
    tree.isAttached id = .ok (decide (tree.Attached id)) :=
  h.isAncestor_eq_of_attached attached_root hid

theorem isAttached_eq_true (hid : id.index < tree.size) :
    tree.isAttached id = .ok true ↔ tree.Attached id := by
  rw [h.isAttached_eq hid]
  simp

/-- A way up from an id that names no node is lost at once. -/
theorem attached_of_isAttached (hattached : tree.isAttached id = .ok true) : tree.Attached id := by
  by_cases hid : id.index < tree.size
  · exact (h.isAttached_eq_true hid).1 hattached
  · have hroot : id ≠ tree.root := fun heq => hid (heq ▸ h.top_known)
    have hnode : tree.node? id = none := Array.getElem?_eq_none (Nat.le_of_not_lt hid)
    simp [isAttached, isAncestor, hroot, climbsTo, climb, pathBound, climbWithin, parent,
      node, hnode] at hattached

/-! ### Searching up to a node -/

omit h in
/-- The nodes on the way down to a node are those above it. -/
theorem exists_goesBy {P : NodeId → Prop} : (∃ up c, tree.GoesBy a n up c ∧ P up) ↔
    ∃ up, tree.Reaches a up ∧ tree.StrictlyReaches up n ∧ P up := by
  constructor
  · rintro ⟨up, c, ⟨hup, hc, hcn⟩, hP⟩
    exact ⟨up, hup, strictlyReaches_iff.2 ⟨c, hc, hcn⟩, hP⟩
  · rintro ⟨up, hup, hn, hP⟩
    obtain ⟨c, hc, hcn⟩ := strictlyReaches_iff.1 hn
    exact ⟨up, c, ⟨hup, hc, hcn⟩, hP⟩

/-- The step to a part is the last one on the way down, or on the way to the node above. -/
theorem goesBy_part (ha : tree.Attached a) (hp : tree.Reaches a p) (hn : n ∈ tree.parts p)
    {up : NodeId} :
    tree.GoesBy a n up c ↔ up = p ∧ c = n ∨ tree.GoesBy a p up c := by
  constructor
  · rintro ⟨hup, hc, hcn⟩
    have hupAttached := ha.reaches hup
    rcases reaches_iff_eq_or_strictly.1 hcn with rfl | hstrict
    · exact .inl ⟨h.linkedOnce.one_linker up p _ hupAttached (ha.reaches hp) hc hn, rfl⟩
    · obtain ⟨q, hq, hqn⟩ := strictlyReaches_iff_last.1 hstrict
      -- the last step on the way to `n` comes from the one node that links it
      obtain rfl :=
        h.linkedOnce.one_linker q p n ((hupAttached.of_mem hc).reaches hq) (ha.reaches hp) hqn hn
      exact .inr ⟨hup, hc, hq⟩
  · rintro (⟨rfl, rfl⟩ | ⟨hup, hc, hcp⟩)
    · exact ⟨hp, hn, .refl _⟩
    · exact ⟨hup, hc, hcp.tail hn⟩

/-- No step leads from a node to itself. -/
theorem not_goesBy_self (ha : tree.Attached a) {up : NodeId} : ¬ tree.GoesBy a a up c := by
  rintro ⟨hup, hc, hca⟩
  exact h.linkedOnce.irrefl ha
    (Relation.TransGen.trans_right hup (strictlyReaches_iff.2 ⟨c, hc, hca⟩))

open Classical in
/-- **A search up to a node** finds one of the steps on the way down from it, or none of them. By
induction on the way down. -/
theorem climb_upTo (hit : NodeId → NodeId → Bool) (ha : tree.Attached a)
    (hn : tree.StrictlyReaches a n) :
    tree.climb (fun child up => if hit child up then some true else if up = a then some false
      else none) n =
      .ok (some (decide (∃ up child, tree.GoesBy a n up child ∧ hit child up = true))) := by
  induction hn with
  | @single n hn =>
    rw [h.climb_part ha hn]
    have hiff : (∃ up child, tree.GoesBy a n up child ∧ hit child up = true) ↔ hit n a = true := by
      simp [h.goesBy_part ha (.refl a) hn, h.not_goesBy_self ha]
    cases hhit : hit n a <;> simp [hiff, hhit]
  | @tail p n hp hn ih =>
    -- the parent is not the end of the way, which is strictly above it
    have hpa : p ≠ a := by
      rintro rfl
      exact h.linkedOnce.irrefl ha hp
    rw [h.climb_part (ha.reaches (StrictlyReaches.reaches hp)) hn]
    -- the last step is the hit, or one of the steps to the parent is
    have hiff : (∃ up child, tree.GoesBy a n up child ∧ hit child up = true) ↔
        hit n p = true ∨ ∃ up child, tree.GoesBy a p up child ∧ hit child up = true := by
      simp [h.goesBy_part ha (StrictlyReaches.reaches hp) hn, or_and_right, exists_or]
    cases hhit : hit n p with
    | true => simp [hiff, hhit]
    | false => simpa [hiff, hhit, hpa] using ih

end WellFormed

end Tree

end LoopToStream
