import LoopToStream.Code.Kind

/-!
# What may stand where

`Kind` has one type for everything that stands at a place of the code. What its parts may be is
said here: `Kind.slots` lists the parts of a layer with the sort of place that each of them
takes, and `Slot.admits` says what may stand at such a place. The variables that a layer
mentions are listed by `Kind.vars`.

Replacing the parts of a layer changes neither the sorts of the places (`Kind.slots_map`) nor
the variables (`Kind.vars_map`), nor where the layer itself may stand (`Slot.admits_map`).
-/

namespace LoopToStream

variable {α β ι : Type}

/-- A sort of places for the parts of a layer. -/
inductive Slot where
  | statement
  | expression
  /-- Between the statements of a block, where comments may stand as well. -/
  | blockItem
  /-- Behind the arrow of a function literal. -/
  | functionBody
deriving DecidableEq, Repr

namespace Slot

/-- A layer may stand at such a place. -/
def admits : Slot → Kind ι → Bool
  | statement, .stmt _ => true
  | expression, .expr _ => true
  | blockItem, .stmt _ => true
  | blockItem, .comment _ => true
  | functionBody, .expr _ => true
  | functionBody, .stmt s => s.isBlock
  | _, _ => false

@[simp] theorem admits_map (slot : Slot) (f : α → β) (kind : Kind α) :
    slot.admits (kind.map f) = slot.admits kind := by
  cases kind with
  | stmt s => cases slot <;> cases s <;> rfl
  | expr e => cases slot <;> rfl
  | comment text => cases slot <;> rfl

/-- A place for an expression takes any. -/
@[simp] theorem admits_expr {e : Expr ι} : expression.admits (Kind.expr e) = true := rfl

@[simp] theorem admits_stmt {s : Stmt ι} : statement.admits (Kind.stmt s) = true := rfl

end Slot

/-- The parts of a statement, with their places. -/
def Stmt.slots : Stmt ι → List (Slot × ι)
  | block stmts => stmts.map (.blockItem, ·)
  | expr value => [(.expression, value)]
  | declare _ init => init.toList.map (.expression, ·)
  | branch cond thenBranch elseBranch =>
    cond.toList.map (.expression, ·) ++ thenBranch.toList.map (.statement, ·) ++
      elseBranch.toList.map (.statement, ·)
  | forEach loop =>
    loop.iterated.toList.map (.expression, ·) ++ loop.body.toList.map (.statement, ·)
  | whileLoop cond body => [(.expression, cond), (.statement, body)]
  | labeled _ body => [(.statement, body)]
  | breakTo _ => []
  | continueTo _ => []
  | giveBack value => value.toList.map (.expression, ·)
  | throwValue value => [(.expression, value)]
  | tryCatch body handlers => (.statement, body) :: handlers.map fun c => (.statement, c.body)
  | empty => []

/-- The parts of an expression, with their places. -/
def Expr.slots : Expr ι → List (Slot × ι)
  | lambda _ _ body => [(.functionBody, body)]
  | e => e.children.map (.expression, ·)

/-- The variables that a statement declares. -/
def Stmt.vars : Stmt ι → List VarId
  | declare v _ => [v]
  | forEach loop => [loop.var]
  | tryCatch _ handlers => handlers.map Catch.var
  | _ => []

/-- The variables that an expression declares or refers to. -/
def Expr.vars : Expr ι → List VarId
  | name _ var => var.toList
  | field _ _ var => var.toList
  | lambda params _ _ => params
  | _ => []

namespace Kind

/-- The parts of a layer, left to right, with their places. -/
def slots : Kind ι → List (Slot × ι)
  | stmt s => s.slots
  | expr e => e.slots
  | comment _ => []

/-- The variables that a layer mentions. -/
def vars : Kind ι → List VarId
  | stmt s => s.vars
  | expr e => e.vars
  | comment _ => []

/-- Each part has its place, and there are no places without a part. -/
theorem map_slots (kind : Kind ι) : kind.slots.map Prod.snd = kind.children := by
  cases kind with
  | stmt s => cases s <;> simp [slots, Stmt.slots, children, Stmt.children, Function.comp_def]
  | expr e => cases e <;> simp [slots, Expr.slots, children, Expr.children, Function.comp_def]
  | comment _ => rfl

theorem mem_children_of_mem_slots {kind : Kind ι} {slot : Slot} {c : ι}
    (h : (slot, c) ∈ kind.slots) : c ∈ kind.children := by
  rw [← map_slots]
  exact List.mem_map_of_mem h

theorem slots_map (f : α → β) (kind : Kind α) :
    (kind.map f).slots = kind.slots.map fun place => (place.1, f place.2) := by
  -- a part that may be left out has a place only where it is there
  have hopt : ∀ o : Option α, (o.map f).toList = o.toList.map f := by
    intro o
    cases o <;> rfl
  cases kind with
  | stmt s => cases s <;> simp [map, Stmt.map, slots, Stmt.slots, hopt, Function.comp_def]
  | expr e =>
    cases e <;> simp [map, Expr.map, slots, Expr.slots, Expr.children, hopt, Function.comp_def]
  | comment _ => rfl

@[simp] theorem vars_map (f : α → β) (kind : Kind α) : (kind.map f).vars = kind.vars := by
  cases kind with
  | stmt s => cases s <;> simp [map, Stmt.map, vars, Stmt.vars, Function.comp_def]
  | expr e => cases e <;> rfl
  | comment _ => rfl

end Kind

end LoopToStream
