import LoopToStream.Proofs.Flow.Finality

/-!
# Flow queries that are given up

A bound on flow queries can keep a query from finishing, and that is all it can do. Of two bounds,
the wider one (`Flow.Narrower`) lets a query get as far as the narrower one does, so that an answer
found within the narrower bound is the answer (`Narrower.look`). A raised cancel flag keeps every
query from looking at anything.

An attempt that is declined for a certain reason, or else is the same as another one, is
`Attempt.SameUnless` that reason. This is an order in which the declined attempt is below
everything, and putting attempts together is monotone in it (`SameUnless.bind`): that is what
carries the statement from the walk at the bottom to everything that is found out by asking flow
queries one after the other.

Without bounds no query is given up: it is then not declined at all (`Attempt.Unrefused`), and finds
all that there is at its nodes (`look_unbounded`).
-/

namespace LoopToStream

variable {α β ε ε' : Type}

/-! ### The same, or declined -/

namespace Attempt

/-- The first attempt is declined for the reason, or both come to the same. -/
def SameUnless (reason : ε) (x y : Attempt ε α) : Prop := x = refuse reason ∨ x = y

namespace SameUnless

variable {reason : ε} {x y : Attempt ε α}

@[refl] theorem refl (x : Attempt ε α) : x.SameUnless reason x := .inr rfl

/-- An answer is an answer to both. -/
theorem eq_ok (h : x.SameUnless reason y) {a : α} (hx : x = .ok a) : y = .ok a := by
  rcases h with hdeclined | rfl
  · simp [hdeclined] at hx
  · exact hx

/-- **Attempts one after the other.** The second one matters only where the first has an answer. -/
theorem bind {f g : α → Attempt ε β} (h : x.SameUnless reason y)
    (hfg : ∀ a, x = .ok a → (f a).SameUnless reason (g a)) :
    (x >>= f).SameUnless reason (y >>= g) := by
  rcases h with rfl | rfl
  · exact .inl rfl
  · cases hx : x with
    | error refusal => exact .inr rfl
    | ok a => exact hfg a hx

/-- The same attempts with their reasons put in other words. -/
theorem mapReason {f : ε → ε'} (h : x.SameUnless reason y) :
    (x.mapReason f).SameUnless (f reason) (y.mapReason f) := by
  rcases h with rfl | rfl
  · exact .inl rfl
  · rfl

/-- Attempts on the members of a list. -/
theorem mapM {f g : β → Attempt ε α} {l : List β} (h : ∀ b, (f b).SameUnless reason (g b)) :
    (l.mapM f).SameUnless reason (l.mapM g) := by
  induction l with
  | nil => rfl
  | cons b l ih =>
    rw [List.mapM_cons, List.mapM_cons]
    exact (h b).bind fun a _ => ih.bind fun answers _ => .refl _

end SameUnless

/-! ### Not declined -/

/-- The attempt is not declined, whatever else becomes of it. -/
def Unrefused (x : Attempt ε α) : Prop := ∀ reason, x ≠ refuse reason

namespace Unrefused

variable {x : Attempt ε α}

theorem pure (a : α) : (Pure.pure a : Attempt ε α).Unrefused := fun _ h => by cases h

/-- A lookup is never declined. -/
theorem lift (y : Lookup α) : (liftM y : Attempt ε α).Unrefused := by
  intro reason h
  cases y <;> cases h

/-- Attempts one after the other. -/
theorem bind {f : α → Attempt ε β} (h : x.Unrefused) (hf : ∀ a, (f a).Unrefused) :
    (x >>= f).Unrefused := by
  intro reason hrefused
  match x with
  | .ok a => exact hf a reason hrefused
  | .error (.because reason) => exact h reason rfl
  | .error (.dangling ref) => cases hrefused

theorem discard (h : x.Unrefused) : (discard x).Unrefused := by
  intro reason hrefused
  match x with
  | .ok a => cases hrefused
  | .error (.because reason) => exact h reason rfl
  | .error (.dangling ref) => cases hrefused

/-- Attempts on the members of a list. -/
theorem mapM {f : β → Attempt ε α} (l : List β)
    (h : ∀ b, (f b).Unrefused) : (l.mapM f).Unrefused := by
  induction l with
  | nil => exact pure _
  | cons b l ih =>
    rw [List.mapM_cons]
    exact (h b).bind fun a => ih.bind fun as => pure _

/-- What is neither declined nor lost has an answer. -/
theorem exists_ok {P : α → Prop} (h : x.Unrefused) (hanswered : x.Answered P) :
    ∃ a, x = .ok a ∧ P a := by
  match x with
  | .ok a => exact ⟨a, rfl, hanswered⟩
  | .error (.because reason) => exact absurd rfl (h reason)

end Unrefused

end Attempt

open Attempt (SameUnless Unrefused)

namespace Flow

variable {flow wider : Flow} {tree : Tree} {body place : NodeId} {v : VarId}

/-! ### Bounds -/

/-- The second flow allows as much as the first one, and neither is canceled or both are. -/
structure Narrower (flow wider : Flow) : Prop where
  canceled_eq : flow.canceled = wider.canceled
  exhausted_of : ∀ number, wider.exhausted number = true → flow.exhausted number = true

/-- Having no budget is the widest bound. -/
theorem narrower_of_no_budget (flow : Flow) : flow.Narrower ⟨none, flow.canceled⟩ :=
  ⟨rfl, fun number h => by simp [exhausted] at h⟩

/-- A larger budget is a wider bound. -/
theorem narrower_of_le {b b' : Nat} (h : b ≤ b') (canceled : Bool) :
    Narrower ⟨some b, canceled⟩ ⟨some b', canceled⟩ := by
  refine ⟨rfl, fun number hexhausted => ?_⟩
  simp only [exhausted, Option.any_some, decide_eq_true_eq] at hexhausted ⊢
  omega

/-! ### Queries within bounds -/

namespace Narrower

variable (h : flow.Narrower wider)
include h

/-- **A walk within a narrower bound** gets as far as within a wider one, or is given up. By
induction on the nodes that are left. -/
theorem look {see : NodeId → Lookup (List α)} (before : Nat) (ids : List NodeId) :
    (flow.look tree see before ids).SameUnless .timeout (wider.look tree see before ids) := by
  induction ids generalizing before with
  | nil => rfl
  | cons id rest ih =>
    rw [Flow.look, Flow.look, h.canceled_eq]
    split
    · rfl
    · -- the wider bound is not used up where the narrower one is not
      by_cases hnarrow : flow.exhausted (before + 1) = true
      · exact .inl (if_pos hnarrow)
      · rw [if_neg hnarrow, if_neg fun hwide => hnarrow (h.exhausted_of _ hwide)]
        exact (SameUnless.refl _).bind fun found _ => (SameUnless.refl _).bind fun _ _ =>
          (ih (before + 1)).bind fun others _ => .refl _

theorem exits : (flow.exits tree body).SameUnless .timeout (wider.exits tree body) := h.look _ _

theorem used : (flow.used tree body).SameUnless .timeout (wider.used tree body) :=
  (h.look _ _).bind fun _ _ => .refl _

theorem writes : (flow.writes tree body).SameUnless .timeout (wider.writes tree body) := h.look _ _

theorem written : (flow.written tree body).SameUnless .timeout (wider.written tree body) :=
  h.writes.bind fun _ _ => .refl _

/-- **Whether a variable keeps its value** has the same answer within a wider bound. -/
theorem isEffectivelyFinal : (flow.isEffectivelyFinal tree v place).SameUnless .timeout
    (wider.isEffectivelyFinal tree v place) := by
  rw [Flow.isEffectivelyFinal, Flow.isEffectivelyFinal]
  refine (SameUnless.refl _).bind fun declared _ => ?_
  split
  · rfl
  · exact h.writes.bind fun writes _ => .refl _

/-- All that asking for finality may be given up over are the writes of the tree. Where it has been
answered for one place, the answer for any other is the same within a wider bound. -/
theorem isEffectivelyFinal_eq_of_answered {answer : Bool}
    (hasked : flow.isEffectivelyFinal tree v body = .ok answer) :
    flow.isEffectivelyFinal tree v place = wider.isEffectivelyFinal tree v place := by
  rw [Flow.isEffectivelyFinal] at hasked ⊢
  rw [Flow.isEffectivelyFinal]
  obtain ⟨declared, hdeclared, hasked⟩ := bind_eq_ok.1 hasked
  refine bind_congr_of_ok fun found hfound => ?_
  obtain rfl : found = declared := Except.ok.inj (hfound.symm.trans hdeclared)
  split
  · rfl
  · -- the writes have been counted once, in the whole tree, so counting them again is not given up
    next hfinal =>
    rw [if_neg hfinal] at hasked
    obtain ⟨writes, hwrites, -⟩ := bind_eq_ok.1 hasked
    rw [hwrites, h.writes.eq_ok hwrites]

end Narrower

/-! ### Queries without bounds -/

/-- **Without bounds**, a walk finds what there is at each of its nodes. -/
theorem look_unbounded {see : NodeId → Lookup (List α)} {found : NodeId → List α}
    {ids : List NodeId} (before : Nat)
    (h : ∀ id ∈ ids, id.index < tree.size ∧ see id = .ok (found id)) :
    unbounded.look tree see before ids = .ok (ids.flatMap found) := by
  induction ids generalizing before with
  | nil => rfl
  | cons id rest ih =>
    obtain ⟨hlt, hsee⟩ := h id (by simp)
    obtain ⟨node, -, hnode⟩ := Tree.node_of_lt hlt
    rw [look, hsee, hnode, ih (before + 1) fun x hx => h x (by simp [hx])]
    rfl

/-- A query finds what there is at each node of finite code. -/
theorem query_unbounded {see : NodeId → Lookup (List α)} {found : NodeId → List α} {a : NodeId}
    (hg : tree.Grounded a) (hsee : ∀ id, see id = .ok (found id)) :
    unbounded.query tree see a = .ok ((tree.preorder a).flatMap found) := by
  refine look_unbounded 0 fun id hid => ⟨?_, hsee id⟩
  exact (hg.of_reaches (Tree.mem_preorder_iff.1 hid)).lt_size

/-- It is never given up. -/
theorem look_unrefused (see : NodeId → Lookup (List α)) (before : Nat) (ids : List NodeId) :
    (unbounded.look tree see before ids).Unrefused := by
  induction ids generalizing before with
  | nil => exact .pure _
  | cons id rest ih =>
    -- without a budget and a flag, two of the tests of a turn are decided
    show Unrefused (do
      let found ← see id
      discard (tree.node id)
      return found ++ (← unbounded.look tree see (before + 1) rest))
    exact (Unrefused.lift _).bind fun found => (Unrefused.lift _).discard.bind fun _ =>
      (ih (before + 1)).bind fun others => .pure _

theorem exits_unrefused : (unbounded.exits tree body).Unrefused := look_unrefused _ _ _

theorem used_unrefused : (unbounded.used tree body).Unrefused :=
  (look_unrefused _ _ _).bind fun _ => .pure _

theorem writes_unrefused : (unbounded.writes tree body).Unrefused := look_unrefused _ _ _

theorem written_unrefused : (unbounded.written tree body).Unrefused :=
  writes_unrefused.bind fun _ => .pure _

theorem isEffectivelyFinal_unrefused : (unbounded.isEffectivelyFinal tree v place).Unrefused := by
  rw [Flow.isEffectivelyFinal]
  refine (Unrefused.lift _).bind fun declared => ?_
  split
  · exact .pure _
  · refine writes_unrefused.bind fun writes => ?_
    -- what is made of the writes is looked up
    dsimp only
    split
    · refine (Unrefused.lift _).bind fun initial => ?_
      -- the declaration is looked up, and where there is one write, what is above it
      split
      · exact .pure _
      · split
        · exact .pure _
        · exact (Unrefused.lift _).bind fun above => .pure _
        · exact .pure _
      · exact .pure _
    · exact .pure _

/-! ### Canceled queries -/

/-- **A canceled walk** ends before it has looked at anything. -/
theorem look_of_canceled {see : NodeId → Lookup (List α)} {ids : List NodeId}
    (h : flow.canceled = true) (hids : ids ≠ [])
    (before : Nat) : flow.look tree see before ids = refuse .canceled := by
  obtain ⟨id, rest, rfl⟩ := List.exists_cons_of_ne_nil hids
  rw [look, if_pos h]

theorem exits_of_canceled (h : flow.canceled = true) : flow.exits tree body = refuse .canceled := by
  rw [exits, queryOutsideClosures]
  exact look_of_canceled h (List.cons_ne_nil _ _) 0

theorem writes_of_canceled (h : flow.canceled = true) :
    flow.writes tree body = refuse .canceled := by
  rw [writes, query]
  exact look_of_canceled h (List.cons_ne_nil _ _) 0

end Flow

end LoopToStream
