/-!
# The class hierarchy

A `Hierarchy` knows some classes and, for each, the names of the classes that it declares as
its supertypes. These may be unknown themselves, and nothing keeps the declarations free of
cycles.

`Hierarchy.isSubtype` asks whether one class can be reached from another by going from a class
to its declared supertypes, any number of times. The search keeps the classes that it has
gone on from and never goes on from one again, so that it ends on cyclic declarations too. An
unknown class is a subtype of nothing, not even of itself.
-/

namespace LoopToStream

/-- Classes with the names of their declared supertypes. -/
structure Hierarchy where
  /-- Of several entries for a class the first counts. -/
  entries : List (String × List String)
deriving Repr

namespace Hierarchy

variable (hierarchy : Hierarchy)

/-- No class is known. -/
def empty : Hierarchy := ⟨[]⟩

/-- The hierarchy with new supertypes for a class. -/
def insert (name : String) (supertypes : List String) : Hierarchy :=
  ⟨(name, supertypes) :: hierarchy.entries⟩

/-- The declared supertypes of a class that is known. -/
def supertypes? (name : String) : Option (List String) := hierarchy.entries.lookup name

/-- A class is known. -/
def contains (name : String) : Bool := (hierarchy.supertypes? name).isSome

@[simp] theorem supertypes?_empty (name : String) : empty.supertypes? name = none := rfl

theorem supertypes?_insert (name other : String) (supertypes : List String) :
    (hierarchy.insert name supertypes).supertypes? other =
      if other = name then some supertypes else hierarchy.supertypes? other := by
  simp only [supertypes?, insert, List.lookup_cons]
  by_cases h : other = name
  · simp [h]
  · rw [beq_false_of_ne h, if_neg h]

/-! ### Searching for a supertype -/

/-- How many entries are for classes that are not in `seen`. -/
def unseen (seen : List String) : Nat :=
  (hierarchy.entries.filter fun entry => !seen.contains entry.1).length

/-- Going on from a known class for the first time leaves fewer classes to go on from. -/
theorem unseen_cons_lt {name : String} {supertypes seen : List String}
    (known : hierarchy.supertypes? name = some supertypes) (fresh : seen.contains name = false) :
    hierarchy.unseen (name :: seen) < hierarchy.unseen seen := by
  -- a lookup that succeeds has found one of the entries
  have hmem : (name, supertypes) ∈ hierarchy.entries := by
    obtain ⟨entries⟩ := hierarchy
    simp only [supertypes?] at known
    induction entries with
    | nil => simp at known
    | cons entry rest ih =>
      obtain ⟨key, value⟩ := entry
      rw [List.lookup_cons] at known
      split at known
      · next h =>
        rw [beq_iff_eq] at h
        simp_all
      · exact List.mem_cons_of_mem _ (ih known)
  unfold unseen
  -- seeing one class more takes the entries for it away, and nothing else
  have hsub : (hierarchy.entries.filter fun entry => !(name :: seen).contains entry.1) =
      (hierarchy.entries.filter fun entry => !seen.contains entry.1).filter
        fun entry => !(entry.1 == name) := by
    rw [List.filter_filter]
    congr 1
    funext entry
    simp only [List.contains_cons, Bool.not_or]
  rw [hsub]
  -- the entry that was found is one of those
  apply List.length_filter_lt_length_iff_exists.2
  exact ⟨(name, supertypes), List.mem_filter.2 ⟨hmem, by simpa using fresh⟩, by simp⟩

/-- Searches for `goal` among the classes of `queue` and those that can be reached from them.
The classes of `seen` have been gone on from already. -/
def reaches (goal : String) (seen : List String) (queue : List String) : Bool :=
  match queue with
  | [] => false
  | name :: queue =>
    if name = goal then true
    else if _fresh : seen.contains name = false then
      match _known : hierarchy.supertypes? name with
      -- an unknown class is a dead end, seen or not
      | none => reaches goal seen queue
      | some supertypes => reaches goal (name :: seen) (queue ++ supertypes)
    else reaches goal seen queue
termination_by (hierarchy.unseen seen, queue.length)
decreasing_by
  -- only going on from a class makes the queue longer, and that happens once for each
  · exact Prod.Lex.right _ (by simp)
  · exact Prod.Lex.left _ _ (hierarchy.unseen_cons_lt _known _fresh)
  · exact Prod.Lex.right _ (by simp)

/-- The class `ancestor` is `name` or can be reached from it by declared supertypes, and `name`
is known. -/
def isSubtype (name ancestor : String) : Bool :=
  hierarchy.contains name && hierarchy.reaches ancestor [] [name]

/-- An exception that need not be declared. Unknown exceptions are not of this sort. -/
def isUnchecked (name : String) : Bool :=
  hierarchy.isSubtype name "RuntimeException" || hierarchy.isSubtype name "Error"

/-! ### The classes that are usually known -/

/-- The part of the standard classes that decisions about loops rest on: collections and
exceptions. -/
def standard : Hierarchy :=
  ⟨[("Object", []),
    ("String", ["Object"]),
    ("Iterable", ["Object"]),
    ("Collection", ["Iterable"]),
    ("List", ["Collection"]),
    ("Set", ["Collection"]),
    ("ArrayList", ["List"]),
    ("LinkedList", ["List"]),
    ("HashSet", ["Set"]),
    ("TreeSet", ["Set"]),
    ("Throwable", ["Object"]),
    ("Exception", ["Throwable"]),
    ("Error", ["Throwable"]),
    ("RuntimeException", ["Exception"]),
    ("IllegalArgumentException", ["RuntimeException"]),
    ("IOException", ["Exception"])]⟩

end Hierarchy

end LoopToStream
