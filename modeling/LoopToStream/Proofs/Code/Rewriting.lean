import LoopToStream.Code.Kind

/-!
# Reading and writing the parts of a layer

`Kind.children` reads the parts of a layer and `Kind.map` writes them. Each of the two goes through
all constructors on its own, several of which have parts that may be missing or that are repeated: a
part that one of them leaves out, or that they take in a different order, would be read in one place
and written in another.

That they go through the same places is said here without either of them. Two layers are *alike*
(`Kind.Alike`) if they have the same constructor, the same data beside their parts, and parts at the
same places.

A layer is *rewritten* (`Kind.Rewritten`) if the result is alike and its list of parts is the list
of parts that there was, each of them rewritten where it stands. `Kind.rewritten_iff` states that
`Kind.map` rewrites layers, and that there is no other way to rewrite one: what is alike agrees on
all that is not among the parts (`Kind.eq_map_of_alike`).
-/

namespace LoopToStream

variable {α β ι : Type}

/-! ### Parts at the same places -/

/-- What a handler is apart from its body. -/
def Catch.head (handler : Catch ι) : VarId × List ClassType := (handler.var, handler.types)

namespace Stmt

/-- Statements with the same constructor, the same data beside their parts, and parts at the same
places. -/
inductive Alike : Stmt α → Stmt β → Prop where
  | block {stmts : List α} {stmts' : List β} (count : stmts.length = stmts'.length) :
    Alike (block stmts) (block stmts')
  | expr {value : α} {value' : β} : Alike (expr value) (expr value')
  | declare (var : VarId) {init : Option α} {init' : Option β}
      (hinit : init.isSome = init'.isSome) :
    Alike (declare var init) (declare var init')
  | branch {cond thenBranch elseBranch : Option α} {cond' thenBranch' elseBranch' : Option β}
    (hcond : cond.isSome = cond'.isSome) (hthen : thenBranch.isSome = thenBranch'.isSome)
    (helse : elseBranch.isSome = elseBranch'.isSome) :
    Alike (branch cond thenBranch elseBranch) (branch cond' thenBranch' elseBranch')
  | forEach (var : VarId) {iterated body : Option α} {iterated' body' : Option β}
    (hiterated : iterated.isSome = iterated'.isSome) (hbody : body.isSome = body'.isSome) :
    Alike (forEach ⟨var, iterated, body⟩) (forEach ⟨var, iterated', body'⟩)
  | whileLoop {cond body : α} {cond' body' : β} :
      Alike (whileLoop cond body) (whileLoop cond' body')
  | labeled (label : String) {body : α} {body' : β} :
      Alike (labeled label body) (labeled label body')
  | breakTo (label : Option String) : Alike (breakTo label) (breakTo label)
  | continueTo (label : Option String) : Alike (continueTo label) (continueTo label)
  | giveBack {value : Option α} {value' : Option β} (hvalue : value.isSome = value'.isSome) :
    Alike (giveBack value) (giveBack value')
  | throwValue {value : α} {value' : β} : Alike (throwValue value) (throwValue value')
  | tryCatch {body : α} {body' : β} {handlers : List (Catch α)} {handlers' : List (Catch β)}
    (heads : handlers.map Catch.head = handlers'.map Catch.head) :
    Alike (tryCatch body handlers) (tryCatch body' handlers')
  | empty : Alike empty empty

end Stmt

namespace Expr

/-- Expressions with the same constructor, the same data beside their parts, and parts at the same
places. -/
inductive Alike : Expr α → Expr β → Prop where
  | literal (value : Literal) : Alike (literal value) (literal value)
  | name (name : String) (var : Option VarId) : Alike (.name name var) (.name name var)
  | typeName (type : ClassType) : Alike (typeName type) (typeName type)
  | thisRef : Alike thisRef thisRef
  | superRef : Alike superRef superRef
  | field (name : String) (var : Option VarId) {receiver : α} {receiver' : β} :
    Alike (field receiver name var) (field receiver' name var)
  | call (method : String) (target : Option MethodId) {receiver : Option α} {receiver' : Option β}
    {args : List α} {args' : List β} (hreceiver : receiver.isSome = receiver'.isSome)
    (count : args.length = args'.length) :
    Alike (call ⟨receiver, method, args, target⟩) (call ⟨receiver', method, args', target⟩)
  | create (type : ClassType) (target : Option MethodId) {args : List α} {args' : List β}
    (count : args.length = args'.length) :
    Alike (create ⟨type, args, target⟩) (create ⟨type, args', target⟩)
  | binary (op : BinaryOp) {lhs rhs : α} {lhs' rhs' : β} :
    Alike (binary op lhs rhs) (binary op lhs' rhs')
  | unary (op : UnaryOp) {operand : α} {operand' : β} : Alike (unary op operand) (unary op operand')
  | assign (op : Option BinaryOp) {target value : α} {target' value' : β} :
    Alike (assign op target value) (assign op target' value')
  | paren {inner : α} {inner' : β} : Alike (paren inner) (paren inner')
  | lambda (params : List VarId) (explicitTypes : Bool) {body : α} {body' : β} :
    Alike (lambda params explicitTypes body) (lambda params explicitTypes body')
  | methodRef (method : String) {qualifier : α} {qualifier' : β} :
    Alike (methodRef qualifier method) (methodRef qualifier' method)

end Expr

namespace Kind

/-- Layers with the same constructor, the same data beside their parts, and parts at the same
places. -/
inductive Alike : Kind α → Kind β → Prop where
  | stmt {s : Stmt α} {t : Stmt β} (h : s.Alike t) : Alike (stmt s) (stmt t)
  | expr {e : Expr α} {d : Expr β} (h : e.Alike d) : Alike (expr e) (expr d)
  | comment (text : String) : Alike (comment text) (comment text)

end Kind

/-! ### Writing leaves all else -/

theorem Stmt.alike_map (f : α → β) (s : Stmt α) : s.Alike (s.map f) := by
  cases s with
  | block stmts => exact .block (List.length_map f).symm
  | expr value => exact .expr
  | declare var init => exact .declare var Option.isSome_map.symm
  | branch cond thenBranch elseBranch =>
    -- a part that may be missing is there after the rewriting if it was before
    exact .branch Option.isSome_map.symm Option.isSome_map.symm Option.isSome_map.symm
  | forEach loop => exact .forEach loop.var Option.isSome_map.symm Option.isSome_map.symm
  | whileLoop cond body => exact .whileLoop
  | labeled label body => exact .labeled label
  | breakTo label => exact .breakTo label
  | continueTo label => exact .continueTo label
  | giveBack value => exact .giveBack Option.isSome_map.symm
  | throwValue value => exact .throwValue
  | tryCatch body handlers =>
    -- a handler keeps its head
    refine .tryCatch ?_
    rw [List.map_map]
    rfl
  | empty => exact .empty

theorem Expr.alike_map (f : α → β) (e : Expr α) : e.Alike (e.map f) := by
  cases e with
  | literal value => exact .literal value
  | name name var => exact .name name var
  | typeName type => exact .typeName type
  | thisRef => exact .thisRef
  | superRef => exact .superRef
  | field receiver name var => exact .field name var
  | call c => exact .call c.method c.target Option.isSome_map.symm (List.length_map f).symm
  | create c => exact .create c.type c.target (List.length_map f).symm
  | binary op lhs rhs => exact .binary op
  | unary op operand => exact .unary op
  | assign op target value => exact .assign op
  | paren inner => exact .paren
  | lambda params explicitTypes body => exact .lambda params explicitTypes
  | methodRef qualifier method => exact .methodRef method

/-- **Writing the parts** of a layer leaves its constructor, its data, and which parts are missing.
-/
theorem Kind.alike_map (f : α → β) (kind : Kind α) : kind.Alike (kind.map f) := by
  cases kind with
  | stmt s => exact .stmt (s.alike_map f)
  | expr e => exact .expr (e.alike_map f)
  | comment text => exact .comment text

/-! ### Nothing is left out -/

section Missing

variable {f : α → β} {part : Option α} {part' : Option β} {rest : List α} {rest' : List β}

/-- A part that may be missing, and the parts behind it. -/
theorem eq_map_of_toList_append (hpart : part.isSome = part'.isSome)
    (h : part'.toList ++ rest' = (part.toList ++ rest).map f) :
    part' = part.map f ∧ rest' = rest.map f := by
  cases part with
  | none =>
    obtain rfl : part' = none := by simpa using hpart.symm
    exact ⟨rfl, h⟩
  | some a =>
    obtain ⟨b, rfl⟩ := Option.isSome_iff_exists.1 hpart.symm
    obtain ⟨rfl, hrest⟩ := List.cons.inj h
    exact ⟨rfl, hrest⟩

/-- A part that may be missing, with none behind it. -/
theorem eq_map_of_toList (hpart : part.isSome = part'.isSome)
    (h : part'.toList = part.toList.map f) :
    part' = part.map f := by
  have hlast : part'.toList ++ [] = (part.toList ++ []).map f := by simpa using h
  exact (eq_map_of_toList_append hpart hlast).1

end Missing

/-- A handler is its head and its body. -/
theorem Catch.eq_map_of_heads {f : α → β} {handlers : List (Catch α)} {handlers' : List (Catch β)}
    (heads : handlers.map head = handlers'.map head)
    (bodies : handlers'.map body = (handlers.map body).map f) :
    handlers' = handlers.map fun c => ⟨c.var, c.types, f c.body⟩ := by
  induction handlers generalizing handlers' with
  | nil => exact List.map_eq_nil_iff.1 heads.symm
  | cons c handlers ih =>
    cases handlers' with
    | nil => cases heads
    | cons c' handlers' =>
      obtain ⟨hhead, hheads⟩ := List.cons.inj heads
      obtain ⟨hbody, hbodies⟩ := List.cons.inj bodies
      obtain ⟨hvar, htypes⟩ := Prod.mk.inj hhead
      have hc : c' = ⟨c.var, c.types, f c.body⟩ := by
        rw [hvar, htypes, ← hbody]
      rw [List.map_cons, ← hc, ih hheads hbodies]

theorem Stmt.eq_map_of_alike {f : α → β} {s : Stmt α} {t : Stmt β} (h : s.Alike t)
    (hparts : t.children = s.children.map f) : t = s.map f := by
  cases h with
  | block count => exact congrArg block hparts
  -- a single part is the one that is given
  | expr => exact congrArg expr (List.cons.inj hparts).1
  | declare var hinit => exact congrArg (declare var) (eq_map_of_toList hinit hparts)
  | branch hcond hthen helse =>
    simp only [children, List.append_assoc] at hparts
    -- the parts that are there are read off the front one after the other
    obtain ⟨hcond, hparts⟩ := eq_map_of_toList_append hcond hparts
    obtain ⟨hthen, hparts⟩ := eq_map_of_toList_append hthen hparts
    rw [map, hcond, hthen, eq_map_of_toList helse hparts]
  | forEach var hiterated hbody =>
    obtain ⟨hiterated, hparts⟩ := eq_map_of_toList_append hiterated hparts
    rw [map, hiterated, eq_map_of_toList hbody hparts]
  | whileLoop =>
    -- both parts are there
    cases hparts
    rfl
  | labeled label => exact congrArg (labeled label) (List.cons.inj hparts).1
  | breakTo label => rfl
  | continueTo label => rfl
  | giveBack hvalue => exact congrArg giveBack (eq_map_of_toList hvalue hparts)
  | throwValue => exact congrArg throwValue (List.cons.inj hparts).1
  | tryCatch heads =>
    -- the bodies of the handlers follow the body of the statement
    obtain ⟨rfl, hbodies⟩ := List.cons.inj hparts
    exact congrArg (tryCatch _) (Catch.eq_map_of_heads heads hbodies)
  | empty => rfl

theorem Expr.eq_map_of_alike {f : α → β} {e : Expr α} {d : Expr β} (h : e.Alike d)
    (hparts : d.children = e.children.map f) : d = e.map f := by
  cases h with
  | literal value => rfl
  | name name var => rfl
  | typeName type => rfl
  | thisRef => rfl
  | superRef => rfl
  | call method target hreceiver count =>
    obtain ⟨rfl, hargs⟩ := eq_map_of_toList_append hreceiver hparts
    exact congrArg (fun args => call ⟨_, method, args, target⟩) hargs
  | create type target count =>
    exact congrArg (fun args => create ⟨type, args, target⟩) hparts
  | field name var | binary op | unary op | assign op | paren | lambda params explicitTypes
  | methodRef method =>
    -- no part can be missing
    cases hparts
    rfl

/-- **What is alike agrees on all that is not among the parts.** -/
theorem Kind.eq_map_of_alike {f : α → β} {kind : Kind α} {other : Kind β} (h : kind.Alike other)
    (hparts : other.children = kind.children.map f) : other = kind.map f := by
  cases h with
  | stmt h => exact congrArg stmt (Stmt.eq_map_of_alike h hparts)
  | expr h => exact congrArg expr (Expr.eq_map_of_alike h hparts)
  | comment text => rfl

/-! ### Reading what has been written -/

namespace Kind

variable {f : α → β} {kind : Kind α} {other : Kind β}

/-- **A layer with its parts rewritten**: it is alike, and its list of parts is the list of parts
that there was, each of them rewritten where it stands. -/
structure Rewritten (f : α → β) (kind : Kind α) (other : Kind β) : Prop where
  alike : kind.Alike other
  children_eq : other.children = kind.children.map f

theorem rewritten_map (f : α → β) (kind : Kind α) : kind.Rewritten f (kind.map f) :=
  ⟨kind.alike_map f, children_map f kind⟩

/-- **Writing the parts is rewriting them**, and there is no other way to do so. -/
theorem rewritten_iff : kind.Rewritten f other ↔ other = kind.map f := by
  constructor
  · intro h
    exact eq_map_of_alike h.alike h.children_eq
  · intro h
    rw [h]
    exact rewritten_map f kind

end Kind

end LoopToStream
