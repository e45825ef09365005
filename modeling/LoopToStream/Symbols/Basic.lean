import LoopToStream.Symbols.Hierarchy
import LoopToStream.Tree.Query

/-!
# Known symbols

What is known about the code besides the code itself: the class hierarchy, a table of method
signatures that resolved calls point into, and the names of the methods that accept function
literals of several shapes, so that a literal without parameter types passed to them has no
type.

`Symbols` answers which method a call means (`resolve?`) and of which class type an expression
is, as far as that can be told without inference (`typeOf?`).
-/

namespace LoopToStream

/-- The declared shape of a method or of a constructor. -/
structure Signature where
  /-- The class that declares it. -/
  owner : String
  name : String
  params : List ClassType
  /-- How many type parameters it declares. -/
  typeParams : UInt64
  throws : List ClassType
  /-- Missing where nothing is returned, and for constructors. -/
  returns : Option ClassType
  isStatic : Bool
deriving Repr

/-- Classes, methods, and methods to which a bare function literal cannot be passed. -/
structure Symbols where
  hierarchy : Hierarchy
  methods : Array Signature
  ambiguousSinks : List String
deriving Repr

namespace Symbols

variable (symbols : Symbols) (tree : Tree)

/-- Nothing but the given classes is known. -/
def ofHierarchy (hierarchy : Hierarchy) : Symbols := ⟨hierarchy, #[], []⟩

/-! ### Learning -/

/-- The symbols with new supertypes for a class. -/
def addClass (name : String) (supertypes : List String) : Symbols :=
  { symbols with hierarchy := symbols.hierarchy.insert name supertypes }

/-- The id of a new method, and the symbols with it. -/
def addMethod (signature : Signature) : MethodId × Symbols :=
  (⟨symbols.methods.size⟩, { symbols with methods := symbols.methods.push signature })

/-- The symbols with a further method that accepts function literals of several shapes. -/
def markAmbiguous (method : String) : Symbols :=
  { symbols with ambiguousSinks := method :: symbols.ambiguousSinks }

/-! ### Asking -/

/-- The signature of a known method. -/
def method? (id : MethodId) : Option Signature := symbols.methods[id.index]?

/-- The method or constructor that the call or creation at `id` means. -/
def resolve? (id : NodeId) : Option Signature :=
  let target := match tree.expr? id with
    | some (.call c) => c.target
    | some (.create c) => c.target
    | _ => none
  target.bind symbols.method?

/-- The class type of the expression at `id`, where its form gives it away. -/
def typeOf? (id : NodeId) : Lookup (Option ClassType) := do
  let id := tree.skipParens id
  match tree.expr? id with
  | some (.name _ (some var)) => return some (← tree.var var).type
  | some (.field _ _ (some var)) => return some (← tree.var var).type
  | some (.literal (.str _)) => return some (.simple "String")
  -- in a static member as well, where there is no `this`
  | some .thisRef => return tree.scope.enclosingClass.map ClassType.simple
  | some (.create c) => return some c.type
  | some (.call _) => return (symbols.resolve? tree id).bind Signature.returns
  | _ => return none

/-- The expression at `id` is of a known class that is a collection. -/
def isCollection (id : NodeId) : Lookup Bool :=
  return (← symbols.typeOf? tree id).any fun type =>
    symbols.hierarchy.isSubtype type.name "Collection"

/-- A bare function literal passed to the call at `id` gets its type from there. -/
def acceptsBareLambda (id : NodeId) : Bool :=
  (tree.call? id).any fun c => !symbols.ambiguousSinks.contains c.method

end Symbols

end LoopToStream
