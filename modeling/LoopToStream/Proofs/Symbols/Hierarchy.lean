import LoopToStream.Symbols.Hierarchy
import Mathlib.Logic.Relation

/-!
# Subtypes as classes that can be reached

`Hierarchy.isSubtype` searches the classes that can be reached by declared supertypes, with a queue
of classes to look at and a list of those that it has gone on from. `Hierarchy.isSubtype_iff` says
what is found, without the search: a class is a subtype of what it reaches (`Hierarchy.Below`), if
it is known.

The search loses nothing (`Hierarchy.reaches_of_below`). What carries the induction is that no class
that has been gone on from is the goal, and that each of their supertypes has been gone on from as
well, is still in the queue, or is a dead end (`Hierarchy.Explored`).

Classes may be added to a hierarchy as long as those that it has are not declared anew
(`Hierarchy.Extends`). With the standard classes among them, the collections above a sort of
collection are known (`Hierarchy.Extends.isSubtype_interface_iff`).
-/

namespace LoopToStream

open Relation

namespace Hierarchy

variable {hierarchy other : Hierarchy} {goal name a b c : String}
    {seen queue supertypes : List String}

/-! ### Declared supertypes -/

/-- The class `a` is known and declares `b` as one of its supertypes. -/
def Declares (hierarchy : Hierarchy) (a b : String) : Prop :=
  ∃ supertypes, hierarchy.supertypes? a = some supertypes ∧ b ∈ supertypes

/-- **The class `a` is `b`, or below it** by declared supertypes. -/
def Below (hierarchy : Hierarchy) : String → String → Prop := ReflTransGen hierarchy.Declares

theorem below_iff :
    hierarchy.Below a b ↔ a = b ∨ ∃ c, hierarchy.Declares a c ∧ hierarchy.Below c b :=
  ReflTransGen.cases_head_iff

theorem declares_iff (known : hierarchy.supertypes? a = some supertypes) :
    hierarchy.Declares a b ↔ b ∈ supertypes := by
  simp [Declares, known]

/-- What is above a known class is above one of its declared supertypes. -/
theorem below_iff_of_known (known : hierarchy.supertypes? a = some supertypes) :
    hierarchy.Below a b ↔ a = b ∨ ∃ c ∈ supertypes, hierarchy.Below c b := by
  rw [below_iff]
  simp [declares_iff known]

theorem not_declares (unknown : hierarchy.supertypes? a = none) : ¬ hierarchy.Declares a b := by
  simp [Declares, unknown]

/-! ### The search -/

/-- **What has been gone on from** is not the goal, and neither it nor what it declares is left
behind: a declared supertype has been gone on from, or is in the queue, or is a class other than the
goal of which nothing is known. -/
structure Explored (hierarchy : Hierarchy) (goal : String) (seen queue : List String) : Prop where
  no_goal : goal ∉ seen
  closed : ∀ a ∈ seen, ∀ b, hierarchy.Declares a b →
    b ∈ seen ∨ b ∈ queue ∨ b ≠ goal ∧ hierarchy.supertypes? b = none

theorem Explored.start : hierarchy.Explored goal [] queue := ⟨by simp, by simp⟩

/-- A class without known supertypes is left behind. -/
theorem Explored.skip_unknown (h : hierarchy.Explored goal seen (name :: queue)) (hne : name ≠ goal)
    (unknown : hierarchy.supertypes? name = none) : hierarchy.Explored goal seen queue := by
  refine ⟨h.no_goal, fun a ha b hab => ?_⟩
  rcases h.closed a ha b hab with hseen | hqueue | hdead
  · exact .inl hseen
  · rcases List.mem_cons.1 hqueue with rfl | hqueue
    · exact .inr (.inr ⟨hne, unknown⟩)
    · exact .inr (.inl hqueue)
  · exact .inr (.inr hdead)

/-- A class that has been gone on from is not needed again. -/
theorem Explored.skip_seen (h : hierarchy.Explored goal seen (name :: queue))
    (hseen : name ∈ seen) :
    hierarchy.Explored goal seen queue := by
  refine ⟨h.no_goal, fun a ha b hab => ?_⟩
  rcases h.closed a ha b hab with hb | hqueue | hdead
  · exact .inl hb
  · rcases List.mem_cons.1 hqueue with rfl | hqueue
    · exact .inl hseen
    · exact .inr (.inl hqueue)
  · exact .inr (.inr hdead)

/-- Going on from a class puts its supertypes in the queue. -/
theorem Explored.go_on (h : hierarchy.Explored goal seen (name :: queue)) (hne : name ≠ goal)
    (known : hierarchy.supertypes? name = some supertypes) :
    hierarchy.Explored goal (name :: seen) (queue ++ supertypes) := by
  refine ⟨?_, fun a ha b hab => ?_⟩
  · simp [Ne.symm hne, h.no_goal]
  · rcases List.mem_cons.1 ha with rfl | ha
    · exact .inr (.inl (by simp [(declares_iff known).1 hab]))
    · -- what was waiting in the queue has become a class that has been seen, or waits on
      rcases h.closed a ha b hab with hseen | hqueue | hdead
      · exact .inl (by simp [hseen])
      · rcases List.mem_cons.1 hqueue with rfl | hqueue
        · exact .inl (by simp)
        · exact .inr (.inl (by simp [hqueue]))
      · exact .inr (.inr hdead)

/-- **A way to the goal leads through the queue**, from wherever the search has been. By induction
on the way. -/
theorem Explored.exists_mem_queue (h : hierarchy.Explored goal seen queue) (ha : a ∈ seen)
    (hbelow : hierarchy.Below a goal) : ∃ b ∈ queue, hierarchy.Below b goal := by
  induction hbelow using ReflTransGen.head_induction_on with
  | refl => exact absurd ha h.no_goal
  | @head a c hstep hrest ih =>
    rcases h.closed a ha c hstep with hseen | hqueue | ⟨hne, hunknown⟩
    · exact ih hseen
    · exact ⟨c, hqueue, hrest⟩
    · -- nothing leads on from a class of which nothing is known
      rcases below_iff.1 hrest with rfl | ⟨d, hd, -⟩
      · exact absurd rfl hne
      · exact absurd hd (not_declares hunknown)

/-- **What is found can be reached** from the queue. -/
theorem exists_below_of_reaches (h : hierarchy.reaches goal seen queue = true) :
    ∃ a ∈ queue, hierarchy.Below a goal := by
  -- the cases are those of the search, the fourth of which looks a class up
  fun_induction hierarchy.reaches goal seen queue with
  | case1 => cases h
  | case2 seen queue => exact ⟨goal, by simp, .refl⟩
  | case3 seen name queue _ _ _ ih =>
    obtain ⟨a, ha, hbelow⟩ := ih h
    exact ⟨a, by simp [ha], hbelow⟩
  | case4 seen name queue _ _ supertypes hknown ih =>
    obtain ⟨a, ha, hbelow⟩ := ih h
    -- a way from a new entry of the queue begins with the class that put it there
    rcases List.mem_append.1 ha with ha | ha
    · exact ⟨a, by simp [ha], hbelow⟩
    · exact ⟨name, by simp, .head ⟨supertypes, hknown, ha⟩ hbelow⟩
  | case5 seen name queue _ _ ih =>
    obtain ⟨a, ha, hbelow⟩ := ih h
    exact ⟨a, by simp [ha], hbelow⟩

/-- **What can be reached is found.** By induction on the search. -/
theorem reaches_of_below (hexplored : hierarchy.Explored goal seen queue)
    (h : ∃ a ∈ queue, hierarchy.Below a goal) : hierarchy.reaches goal seen queue = true := by
  fun_induction hierarchy.reaches goal seen queue with
  | case1 => simp at h
  | case2 => rfl
  | case3 seen name queue hne _ hunknown ih =>
    refine ih (hexplored.skip_unknown hne hunknown) ?_
    obtain ⟨a, ha, hbelow⟩ := h
    rcases List.mem_cons.1 ha with rfl | ha
    · -- nothing is above a class that is not known
      rcases below_iff.1 hbelow with rfl | ⟨d, hd, -⟩
      · exact absurd rfl hne
      · exact absurd hd (not_declares hunknown)
    · exact ⟨a, ha, hbelow⟩
  | case4 seen name queue hne _ supertypes hknown ih =>
    have hnext := hexplored.go_on hne hknown
    refine ih hnext ?_
    obtain ⟨a, ha, hbelow⟩ := h
    rcases List.mem_cons.1 ha with rfl | ha
    · -- what is above the class that has been taken off is now in the queue
      exact hnext.exists_mem_queue (by simp) hbelow
    · exact ⟨a, by simp [ha], hbelow⟩
  | case5 seen name queue hne hseen ih =>
    have hseen : name ∈ seen := by simpa using hseen
    have hnext := hexplored.skip_seen hseen
    refine ih hnext ?_
    obtain ⟨a, ha, hbelow⟩ := h
    rcases List.mem_cons.1 ha with rfl | ha
    · -- or has been put there when the class was seen before
      exact hnext.exists_mem_queue hseen hbelow
    · exact ⟨a, ha, hbelow⟩

/-- **A known class is a subtype of what it reaches.** -/
theorem isSubtype_iff :
    hierarchy.isSubtype a b = true ↔ hierarchy.contains a = true ∧ hierarchy.Below a b := by
  have hreaches : hierarchy.reaches b [] [a] = true ↔ hierarchy.Below a b := by
    refine ⟨fun h => ?_, fun h => reaches_of_below .start ⟨a, by simp, h⟩⟩
    obtain ⟨c, hc, hbelow⟩ := exists_below_of_reaches h
    rwa [List.mem_singleton.1 hc] at hbelow
  rw [isSubtype, Bool.and_eq_true, hreaches]

/-! ### More classes -/

/-- **The classes of a hierarchy are as they were**, and there may be others. -/
def Extends (hierarchy other : Hierarchy) : Prop :=
  ∀ name supertypes, hierarchy.supertypes? name = some supertypes →
    other.supertypes? name = some supertypes

variable {interface made : String} (h : standard.Extends hierarchy)
include h

/-- Of what is above collections, only collections are collections. -/
theorem Extends.eq_of_above_collection (habove : hierarchy.Below "Collection" b)
    (hcollection : hierarchy.isSubtype b "Collection" = true) : b = "Collection" := by
  have hiterable := h "Iterable" ["Object"] rfl
  have hobject := h "Object" [] rfl
  obtain ⟨-, hbelow⟩ := isSubtype_iff.1 hcollection
  -- `Iterable` and `Object` are above collections, and are not below them
  rw [below_iff_of_known (h "Collection" ["Iterable"] rfl)] at habove
  rcases habove with rfl | ⟨c, hc, habove⟩
  · rfl
  obtain rfl := List.mem_singleton.1 hc
  have hup : b = "Iterable" ∨ b = "Object" := by
    simpa [below_iff_of_known hiterable, below_iff_of_known hobject, eq_comm] using habove
  rcases hup with rfl | rfl
  · simp [below_iff_of_known hiterable, below_iff_of_known hobject] at hbelow
  · simp [below_iff_of_known hobject] at hbelow

/-- **The collections above a sort of collection**, such as lists, are that sort and all
collections. -/
theorem Extends.isSubtype_interface_iff
    (hinterface : standard.supertypes? interface = some ["Collection"])
    (hcollection : hierarchy.isSubtype b "Collection" = true) :
    hierarchy.isSubtype interface b = true ↔ b = interface ∨ b = "Collection" := by
  -- more classes may be known, but what the standard says about this one still stands
  have hknown := h interface _ hinterface
  have hcontains : hierarchy.contains interface = true := by simp [contains, hknown]
  rw [isSubtype_iff, and_iff_right hcontains, below_iff_of_known hknown]
  constructor
  · rintro (rfl | ⟨c, hc, habove⟩)
    · exact .inl rfl
    · obtain rfl := List.mem_singleton.1 hc
      exact .inr (h.eq_of_above_collection habove hcollection)
  · rintro (rfl | rfl)
    · exact .inl rfl
    · exact .inr ⟨_, List.mem_singleton_self _, .refl⟩

/-- What is above a class of such collections is the class itself and what is above the sort. -/
theorem Extends.isSubtype_made_iff
    (hinterface : standard.supertypes? interface = some ["Collection"])
    (hmade : standard.supertypes? made = some [interface]) :
    hierarchy.isSubtype made b = true ↔ b = made ∨ hierarchy.isSubtype interface b = true := by
  have hknown := h made _ hmade
  have hcontains : hierarchy.contains made = true := by simp [contains, hknown]
  have hcontains' : hierarchy.contains interface = true := by
    simp [contains, h interface _ hinterface]
  rw [isSubtype_iff, isSubtype_iff, and_iff_right hcontains, and_iff_right hcontains',
    below_iff_of_known hknown]
  simp [eq_comm]

end Hierarchy

end LoopToStream
