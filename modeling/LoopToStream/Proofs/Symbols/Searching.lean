import LoopToStream.Proofs.Symbols.Hierarchy
import LoopToStream.Symbols.Basic
import Mathlib.Algebra.GroupWithZero.Nat
import Mathlib.Algebra.Order.BigOperators.Group.List
import Mathlib.Algebra.Order.Group.Nat

/-!
# Subtypes of the classes that have been told of

Symbols are told of one class after another, of some more than once, and what has been told last of
a class counts (`Symbols.Latest`). The supertypes may never be told of, may be told of later, and
may lead back to where they come from. `Symbols.Told.isSubtype_iff_reachable` is about all symbols
that come about in this way: a class is a subtype of what can be reached from it by the declarations
that count.

That the search for it ends is more than that it is a function. `Hierarchy.turn` is one turn of its
loop, with the two things that the loop works on, and `Hierarchy.iterate_turn` bounds how many turns
it takes to decide: one for each declared supertype, one for the class itself, and one to find that
nothing is left to look at. The bound is paid for by what is in the queue and what can still get
there (`Search.due`). A class that has been gone on from adds nothing, which is why cycles do no
harm.

The loop remembers each class that it has looked at, whereas `Hierarchy.reaches` only remembers
those that it could go on from. A class of which nothing is known leads nowhere, seen or not
(`Hierarchy.reaches_congr`).
-/

namespace LoopToStream

open Relation

/-! ### The turns of the search -/

/-- How far the search for a supertype has come: it is decided, or there are classes to look at, and
others that have been looked at. -/
inductive Search where
  | decided (answer : Bool)
  | looking (seen queue : List String)
deriving DecidableEq, Repr

namespace Hierarchy

variable {hierarchy : Hierarchy} {goal name : String} {seen seen' queue supertypes : List String}

/-- The search from a class on. Of a class that is not known there is nothing to look for. -/
def search (hierarchy : Hierarchy) (name : String) : Search :=
  if hierarchy.contains name then .looking [] [name] else .decided false

/-- **One turn of the search**: the next class is the goal, or has been looked at, or is looked at
now, with its supertypes put behind the classes to look at. -/
def turn (hierarchy : Hierarchy) (goal : String) : Search → Search
  | .decided answer => .decided answer
  | .looking _ [] => .decided false
  | .looking seen (name :: queue) =>
    if name = goal then .decided true
    else if seen.contains name then .looking seen queue
    else .looking (name :: seen) (queue ++ (hierarchy.supertypes? name).getD [])

/-- What the search comes to from where it is. -/
def outcome (hierarchy : Hierarchy) (goal : String) : Search → Bool
  | .decided answer => answer
  | .looking seen queue => hierarchy.reaches goal seen queue

/-! The equations of the search. -/

theorem reaches_goal : hierarchy.reaches goal seen (goal :: queue) = true := by
  rw [reaches, if_pos rfl]

theorem reaches_of_unknown (hne : name ≠ goal) (unknown : hierarchy.supertypes? name = none) :
    hierarchy.reaches goal seen (name :: queue) = hierarchy.reaches goal seen queue := by
  rw [reaches, if_neg hne]
  split
  · split
    · rfl
    · next hknown =>
      rw [unknown] at hknown
      cases hknown
  · -- it has been seen
    rfl

theorem reaches_of_seen (hne : name ≠ goal) (hseen : seen.contains name = true) :
    hierarchy.reaches goal seen (name :: queue) = hierarchy.reaches goal seen queue := by
  rw [reaches, if_neg hne, dif_neg (by simpa using hseen)]

theorem reaches_of_fresh (hne : name ≠ goal) (hfresh : seen.contains name = false)
    (known : hierarchy.supertypes? name = some supertypes) :
    hierarchy.reaches goal seen (name :: queue) =
      hierarchy.reaches goal (name :: seen) (queue ++ supertypes) := by
  rw [reaches, if_neg hne, dif_pos hfresh]
  split
  · next hunknown =>
    rw [known] at hunknown
    cases hunknown
  · next found hknown =>
    obtain rfl : supertypes = found := Option.some.inj (known.symm.trans hknown)
    rfl

/-- Classes of which nothing is known need not be remembered. By induction on the search. -/
theorem reaches_congr
    (h : ∀ name, hierarchy.contains name = true → seen.contains name = seen'.contains name) :
    hierarchy.reaches goal seen queue = hierarchy.reaches goal seen' queue := by
  fun_induction hierarchy.reaches goal seen queue generalizing seen' with
  | case1 => simp [reaches]
  | case2 => rw [reaches_goal]
  | case3 seen name queue hne _ hunknown ih => rw [reaches_of_unknown hne hunknown, ih h]
  | case4 seen name queue hne hfresh supertypes hknown ih =>
    have hfresh' : seen'.contains name = false := by
      rw [← h name (by simp [contains, hknown]), hfresh]
    rw [reaches_of_fresh hne hfresh' hknown]
    -- both remember one class more, and the same one
    refine ih fun other hother => ?_
    simp only [List.contains_cons, h other hother]
  | case5 seen name queue hne hseen ih =>
    rw [Bool.not_eq_false] at hseen
    -- the other list may lack the class only if it is not known
    cases hknown : hierarchy.supertypes? name with
    | none => rw [reaches_of_unknown hne hknown, ih h]
    | some supertypes =>
      have hseen' : seen'.contains name = true := by
        rw [← h name (by simp [contains, hknown]), hseen]
      rw [reaches_of_seen hne hseen', ih h]

/-- **What the search comes to is the same after a turn of it.** -/
theorem outcome_turn (state : Search) :
    hierarchy.outcome goal (hierarchy.turn goal state) = hierarchy.outcome goal state := by
  cases state with
  | decided answer => rfl
  | looking seen queue =>
    cases queue with
    | nil => simp [turn, outcome, reaches]
    | cons name queue =>
      -- the cases are those of the turn: found, seen before, or looked at for the first time
      simp only [turn]
      split
      · next heq =>
        subst heq
        exact reaches_goal.symm
      · next hne =>
        split
        · next hseen => exact (reaches_of_seen hne hseen).symm
        · next hfresh =>
          rw [Bool.not_eq_true] at hfresh
          cases hknown : hierarchy.supertypes? name with
          | some supertypes => exact (reaches_of_fresh hne hfresh hknown).symm
          | none =>
            show hierarchy.reaches goal (name :: seen) (queue ++ []) =
              hierarchy.reaches goal seen (name :: queue)
            rw [reaches_of_unknown hne hknown, List.append_nil]
            -- the class is remembered, but it is not known
            refine reaches_congr fun other hother => ?_
            have hother : (other == name) = false := by
              rw [beq_eq_false_iff_ne]
              rintro rfl
              simp [contains, hknown] at hother
            rw [List.contains_cons, hother, Bool.false_or]

theorem outcome_search (name : String) :
    hierarchy.outcome goal (hierarchy.search name) = hierarchy.isSubtype name goal := by
  unfold search isSubtype
  split
  · next hknown =>
    rw [hknown, Bool.true_and]
    rfl
  · next hunknown =>
    rw [Bool.not_eq_true] at hunknown
    rw [hunknown, Bool.false_and]
    rfl

/-! ### How long it takes -/

/-- How many supertypes the classes declare that have not been looked at. -/
def owed (hierarchy : Hierarchy) (seen : List String) : Nat :=
  (hierarchy.entries.map fun entry => if seen.contains entry.1 then 0 else entry.2.length).sum

/-- At most so many turns are left. -/
def due (hierarchy : Hierarchy) : Search → Nat
  | .decided _ => 0
  | .looking seen queue => queue.length + hierarchy.owed seen + 1

/-- With one class more looked at, no entries declare more than before. -/
theorem sum_cons_le (name : String) (seen : List String) (entries : List (String × List String)) :
    (entries.map fun entry => if (name :: seen).contains entry.1 then 0 else entry.2.length).sum ≤
      (entries.map fun entry => if seen.contains entry.1 then 0 else entry.2.length).sum := by
  refine List.sum_le_sum fun entry _ => ?_
  cases hseen : seen.contains entry.1 with
  | true => simp only [List.contains_cons, hseen, Bool.or_true, if_true, le_refl]
  | false => split <;> simp

/-- **What a class puts in the queue** when it is looked at is no longer owed. -/
theorem owed_cons_add_le (hfresh : seen.contains name = false) :
    hierarchy.owed (name :: seen) + ((hierarchy.supertypes? name).getD []).length ≤
      hierarchy.owed seen := by
  cases hknown : hierarchy.supertypes? name with
  | none => exact sum_cons_le name seen hierarchy.entries
  | some supertypes =>
    obtain ⟨before, behind, hentries, -⟩ := List.lookup_eq_some_iff.1 hknown
    have hbefore := sum_cons_le name seen before
    have hbehind := sum_cons_le name seen behind
    -- the entry that has been found counted for its supertypes, and counts for nothing now
    have hsplit : ∀ seen, hierarchy.owed seen = _ + (_ + _) := fun seen => by
      rw [owed, hentries, List.map_append, List.sum_append, List.map_cons, List.sum_cons]
    have hnow : (name :: seen).contains name = true := by simp
    rw [hsplit, hsplit, hfresh, hnow, Option.getD_some]
    simp only [if_true, Bool.false_eq_true, if_false]
    omega

/-- **A turn is paid for**, as long as nothing is decided. -/
theorem due_turn (goal : String) (state : Search) :
    hierarchy.due (hierarchy.turn goal state) ≤ hierarchy.due state - 1 := by
  cases state with
  | decided answer => simp [turn, due]
  | looking seen queue =>
    cases queue with
    | nil => simp [turn, due]
    | cons name queue =>
      simp only [turn]
      split
      · simp [due]
      · split
        · -- the queue is shorter, and nothing else has changed
          simp only [due, List.length_cons]
          omega
        · next hfresh =>
          -- what the queue grows by has been owed before
          rw [Bool.not_eq_true] at hfresh
          have howed := hierarchy.owed_cons_add_le hfresh
          simp only [due, List.length_append, List.length_cons]
          omega

/-- A search that need not be gone on with is decided. -/
theorem eq_decided_of_due {state : Search} (h : hierarchy.due state = 0) :
    state = .decided (hierarchy.outcome goal state) := by
  cases state with
  | decided answer => rfl
  | looking seen queue => simp [due] at h

/-- **The search ends**, after no more turns than are due. By induction on the turns. -/
theorem iterate_turn {state : Search} {turns : Nat} (h : hierarchy.due state ≤ turns) :
    (hierarchy.turn goal)^[turns] state = .decided (hierarchy.outcome goal state) := by
  induction turns generalizing state with
  | zero => exact eq_decided_of_due (Nat.le_zero.1 h)
  | succ turns ih =>
    have hturn := hierarchy.due_turn goal state
    have hleft : hierarchy.due (hierarchy.turn goal state) ≤ turns := by omega
    rw [Function.iterate_succ_apply, ih hleft, outcome_turn]

end Hierarchy

namespace Symbols

/-! ### Learning of classes -/

/-- **Symbols that have been told of classes**, one after the other, and of whatever else. -/
inductive Told : Symbols → List (String × List String) → Prop where
  | nothing : Told (ofHierarchy .empty) []
  | addClass {symbols : Symbols} {classes : List (String × List String)}
      (told : Told symbols classes) (name : String) (supertypes : List String) :
    Told (symbols.addClass name supertypes) (classes ++ [(name, supertypes)])
  | addMethod {symbols : Symbols} {classes : List (String × List String)}
      (told : Told symbols classes)
      (signature : Signature) : Told (symbols.addMethod signature).2 classes
  | markAmbiguous {symbols : Symbols} {classes : List (String × List String)}
      (told : Told symbols classes) (method : String) : Told (symbols.markAmbiguous method) classes

/-- Every hierarchy can have come about in this way, the one of the standard classes among them. -/
theorem told_ofHierarchy (hierarchy : Hierarchy) :
    Told (ofHierarchy hierarchy) hierarchy.entries.reverse := by
  obtain ⟨entries⟩ := hierarchy
  induction entries with
  | nil => exact .nothing
  | cons entry entries ih =>
    obtain ⟨name, supertypes⟩ := entry
    rw [List.reverse_cons]
    exact ih.addClass name supertypes

/-- The last that has been told of a class. -/
def Latest (classes : List (String × List String)) (a : String) (supertypes : List String) : Prop :=
  ∃ earlier later, classes = earlier ++ (a, supertypes) :: later ∧ ∀ entry ∈ later, entry.1 ≠ a

/-- The last that has been told of `a` is that `b` is among its supertypes. -/
def Declared (classes : List (String × List String)) (a b : String) : Prop :=
  ∃ supertypes, Latest classes a supertypes ∧ b ∈ supertypes

namespace Told

variable {symbols : Symbols} {classes : List (String × List String)} {a name : String}
  {supertypes : List String} (told : Told symbols classes)
include told

/-- What has been told last stands first. -/
theorem entries_eq : symbols.hierarchy.entries = classes.reverse := by
  induction told with
  | nothing => rfl
  | addClass _ name supertypes ih =>
    rw [List.reverse_append, ← ih]
    rfl
  | addMethod _ _ ih | markAmbiguous _ _ ih => exact ih

theorem supertypes?_eq_some :
    symbols.hierarchy.supertypes? a = some supertypes ↔ Latest classes a supertypes := by
  rw [Hierarchy.supertypes?, told.entries_eq, List.lookup_eq_some_iff]
  -- the entries are in reverse, so what has been told later stands in front
  constructor
  · rintro ⟨later, earlier, hreverse, hlater⟩
    refine ⟨earlier.reverse, later.reverse, ?_, fun entry hmem heq => ?_⟩
    · rw [← classes.reverse_reverse, hreverse]
      simp
    · have hne := hlater entry (List.mem_reverse.1 hmem)
      simp [heq] at hne
  · rintro ⟨earlier, later, rfl, hlater⟩
    refine ⟨later.reverse, earlier.reverse, by simp, fun entry hmem => ?_⟩
    have hne := hlater entry (List.mem_reverse.1 hmem)
    simpa using Ne.symm hne

theorem contains_iff : symbols.hierarchy.contains a = true ↔ a ∈ classes.map Prod.fst := by
  rw [Hierarchy.contains, Hierarchy.supertypes?, told.entries_eq, List.lookup_isSome_iff,
    List.mem_map]
  refine exists_congr fun entry => and_congr List.mem_reverse ?_
  rw [beq_iff_eq, eq_comm]

theorem declares_eq : symbols.hierarchy.Declares = Declared classes := by
  funext a b
  exact propext (exists_congr fun supertypes => and_congr_left' told.supertypes?_eq_some)

/-- No more turns are due than supertypes have been declared, and two. -/
theorem due_search_le : symbols.hierarchy.due (symbols.hierarchy.search name) ≤
    2 + (classes.map fun entry => entry.2.length).sum := by
  unfold Hierarchy.search
  split
  · have howed : symbols.hierarchy.owed [] = (classes.map fun entry => entry.2.length).sum := by
      simp [Hierarchy.owed, told.entries_eq, List.sum_reverse]
    simp only [Hierarchy.due, howed, List.length_singleton]
    omega
  · exact Nat.zero_le _

/-- **Subtypes are the classes that can be reached**, by the declarations that count, from one that
has been told of. The search for it is over after as many turns as there are declared supertypes and
two more, even if they lead in circles.

So each class that has been told of is a subtype of itself, and of what its supertypes are subtypes
of. Of what has not been told of nothing is said, not even that it is a subtype of itself. -/
theorem isSubtype_iff_reachable :
    (∀ c a, symbols.hierarchy.isSubtype c a = true ↔
      c ∈ classes.map Prod.fst ∧ ReflTransGen (Declared classes) c a) ∧
    (∀ c a turns, 2 + (classes.map fun entry => entry.2.length).sum ≤ turns →
      (symbols.hierarchy.turn a)^[turns] (symbols.hierarchy.search c) =
        .decided (symbols.hierarchy.isSubtype c a)) ∧
    (∀ c ∈ classes.map Prod.fst, symbols.hierarchy.isSubtype c c = true) ∧
    (∀ c b a, symbols.hierarchy.isSubtype c b = true → symbols.hierarchy.isSubtype b a = true →
      symbols.hierarchy.isSubtype c a = true) ∧
    ∀ c ∉ classes.map Prod.fst, ∀ a, symbols.hierarchy.isSubtype c a = false := by
  have hiff : ∀ c a, symbols.hierarchy.isSubtype c a = true ↔
      c ∈ classes.map Prod.fst ∧ ReflTransGen (Declared classes) c a := by
    intro c a
    rw [Hierarchy.isSubtype_iff, told.contains_iff, Hierarchy.Below, told.declares_eq]
  refine ⟨hiff, fun c a turns hturns => ?_, fun c hc => (hiff c c).2 ⟨hc, .refl⟩,
    fun c b a hcb hba => ?_, fun c hc a => ?_⟩
  · -- enough turns have been taken, and none of them changes what the search comes to
    rw [Hierarchy.iterate_turn (told.due_search_le.trans hturns), Hierarchy.outcome_search]
  · obtain ⟨hc, hreach⟩ := (hiff c b).1 hcb
    exact (hiff c a).2 ⟨hc, hreach.trans ((hiff b a).1 hba).2⟩
  · rw [← Bool.not_eq_true]
    exact fun h => hc ((hiff c a).1 h).1

end Told

/-- There are two ways from `A` to `D`, and one back. It has once been told that `A` is below
`Gone`, and never what `Missing` is. -/
def circling : Symbols :=
  (((((ofHierarchy .empty).addClass "A" ["Gone"]).addClass "B" ["D"]).addClass "C"
    ["D", "Missing"]).addClass "D" ["A"]).addClass "A" ["B", "C"]

/-- All the way round the circle only what counts now is found, in nine turns at most. -/
theorem isSubtype_iff_reachable_circling :
    Told circling
        [("A", ["Gone"]), ("B", ["D"]), ("C", ["D", "Missing"]), ("D", ["A"]), ("A", ["B", "C"])] ∧
      (circling.hierarchy.turn "Gone")^[9] (circling.hierarchy.search "D") = .decided false ∧
      circling.hierarchy.isSubtype "D" "Gone" = false ∧
      circling.hierarchy.isSubtype "D" "Missing" = true ∧
      circling.hierarchy.isSubtype "Missing" "Missing" = false := by
  have told : Told circling _ :=
    ((((Told.nothing.addClass "A" ["Gone"]).addClass "B" ["D"]).addClass "C"
      ["D", "Missing"]).addClass "D" ["A"]).addClass "A" ["B", "C"]
  obtain ⟨-, hturns, -, htrans, hunknown⟩ := told.isSubtype_iff_reachable
  have hfound : ∀ c a answer,
      (circling.hierarchy.turn a)^[9] (circling.hierarchy.search c) = .decided answer →
        circling.hierarchy.isSubtype c a = answer := by
    intro c a answer h
    exact (Search.decided.inj (h.symm.trans (hturns c a 9 (by decide)))).symm
  -- nine turns are enough, whatever the search comes to
  have hgone :
      (circling.hierarchy.turn "Gone")^[9] (circling.hierarchy.search "D") = .decided false := by
    decide +kernel
  have hback := hfound "D" "A" true (by decide +kernel)
  have hmissing := hfound "A" "Missing" true (by decide +kernel)
  exact ⟨told, hgone, hfound "D" "Gone" false hgone, htrans "D" "A" "Missing" hback hmissing,
    hunknown "Missing" (by decide) "Missing"⟩

end Symbols

end LoopToStream
