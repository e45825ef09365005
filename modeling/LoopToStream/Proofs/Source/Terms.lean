import LoopToStream.Proofs.Source.Lexemes
import LoopToStream.Proofs.Tree.Printing

/-!
# Expressions as terms

An expression that is made of names, numbers, calls and operators is a `Term`, whatever its names
stand for in the tree that it is in. `Tree.IsTerm` says that the code at an id is a certain term.
Its text is then a row of lexemes (`Term.lexemes`, `IsTerm.text_eq`), with parentheses around each
operand that binds looser than its place demands. Words are always apart in it
(`Term.separated_lexemes`), so that the row can be read off the text.
-/

namespace LoopToStream

/-! ### Terms -/

/-- An expression, without what its names stand for. -/
inductive Term where
  | name (name : Identifier)
  | int (value : Nat)
  | field (receiver : Term) (name : Identifier)
  | call (method : Identifier) (args : List Term)
  | callOn (receiver : Term) (method : Identifier) (args : List Term)
  | binary (op : BinaryOp) (lhs rhs : Term)
  | unary (op : UnaryOp) (operand : Term)
  | assign (target value : Term)
  | paren (inner : Term)
deriving Repr

namespace Term

section

variable {motive : Term → Prop} (name : ∀ n, motive (name n)) (int : ∀ value, motive (int value))
  (field : ∀ receiver n, motive receiver → motive (field receiver n))
  (call : ∀ method args, (∀ arg ∈ args, motive arg) → motive (call method args))
  (callOn : ∀ receiver method args, motive receiver → (∀ arg ∈ args, motive arg) →
    motive (callOn receiver method args))
  (binary : ∀ op lhs rhs, motive lhs → motive rhs → motive (binary op lhs rhs))
  (unary : ∀ op operand, motive operand → motive (unary op operand))
  (assign : ∀ target value, motive target → motive value → motive (assign target value))
  (paren : ∀ inner, motive inner → motive (paren inner))

include name int field call callOn binary unary assign paren

/-- Induction on a term, with the arguments of a call by their membership. -/
@[induction_eliminator]
theorem induction (t : Term) : motive t :=
  @Term.rec motive (fun args => ∀ arg ∈ args, motive arg)
    name int field call callOn binary unary assign paren
    (by simp) (fun _ _ hfirst hrest => by simpa using ⟨hfirst, hrest⟩) t

end

/-- Binding strength; higher binds tighter. -/
def binding : Term → Nat
  | name _ | int _ | field .. | call .. | callOn .. | paren _ => 15
  | binary op .. => op.precedence
  | unary op _ => op.precedence
  | assign .. => 1

@[simp] theorem binding_unary (op : UnaryOp) (operand : Term) :
    (unary op operand).binding = op.precedence := rfl

theorem binding_bounds (t : Term) : 1 ≤ t.binding ∧ t.binding ≤ 15 := by
  cases t with
  | binary op _ _ => cases op <;> simp [binding, BinaryOp.precedence]
  | unary op _ => cases op <;> simp [binding, UnaryOp.precedence, UnaryOp.followsOperand]
  | _ => simp [binding]

/-! ### Marks -/

/-- What is written beside names and numbers. A decrement is two dashes. -/
inductive Mark where
  | opening | closing | comma | dot
  | bang | dash | increment
  | becomes
  | between (op : BinaryOp)
deriving DecidableEq, Repr

namespace Mark

def spelling : Mark → String
  | opening => "("
  | closing => ")"
  | comma => ", "
  | dot => "."
  | bang => "!"
  | dash => "-"
  | increment => "++"
  | becomes => " = "
  | between op => " " ++ op.text ++ " "

/-- All marks. -/
def every : List Mark :=
  [opening, closing, comma, dot, bang, dash, increment, becomes] ++
    ([.add, .sub, .mul, .div, .rem, .lt, .le, .gt, .ge, .eq, .ne, .and, .or, .bitAnd, .bitOr,
    .bitXor] :
      List BinaryOp).map between

theorem mem_every (mark : Mark) : mark ∈ every := by
  cases mark with
  | between op => cases op <;> decide
  | _ => decide

theorem separates_every :
    ∀ mark ∈ every, mark.spelling.toList.head?.any (· ∈ separators) = true := by
  decide +kernel

theorem apart_every : ∀ mark ∈ every, ∀ mark' ∈ every,
    mark.spelling.toList <+: mark'.spelling.toList → mark = mark' := by
  decide +kernel

instance : Spelled Mark where
  spelling := spelling
  separates mark := separates_every mark mark.mem_every
  apart mark mark' := apart_every mark mark.mem_every mark' mark'.mem_every

/-- The text of a mark by itself. -/
@[simp] theorem text_mark (mark : Mark) : (Lexeme.mark mark).text = mark.spelling := rfl

end Mark

/-! ### Lexemes -/

/-- The lexemes of an operand at a place that demands a binding strength. -/
def placed (least binding : Nat) (operand : List (Lexeme Mark)) : List (Lexeme Mark) :=
  if binding < least then .mark .opening :: (operand ++ [.mark .closing]) else operand

mutual

/-- What is printed of a term. -/
def lexemes : Term → List (Lexeme Mark)
  | name n => [.name n]
  | int value => [.number value]
  | field receiver n => placed 15 receiver.binding receiver.lexemes ++ [.mark .dot, .name n]
  | call method args => .name method :: .mark .opening :: (listed args ++ [.mark .closing])
  | callOn receiver method args =>
    placed 15 receiver.binding receiver.lexemes ++
      .mark .dot :: .name method :: .mark .opening :: (listed args ++ [.mark .closing])
  | binary op lhs rhs =>
    placed op.precedence lhs.binding lhs.lexemes ++
      .mark (.between op) :: placed (op.precedence + 1) rhs.binding rhs.lexemes
  | unary .not operand => .mark .bang :: placed 13 operand.binding operand.lexemes
  | unary .neg operand => .mark .dash :: placed 13 operand.binding operand.lexemes
  | unary .preInc operand => .mark .increment :: placed 13 operand.binding operand.lexemes
  | unary .preDec operand => .mark .dash :: .mark .dash :: placed 13 operand.binding operand.lexemes
  | unary .postInc operand => placed 14 operand.binding operand.lexemes ++ [.mark .increment]
  | unary .postDec operand =>
    placed 14 operand.binding operand.lexemes ++ [.mark .dash, .mark .dash]
  | assign target value =>
    placed 2 target.binding target.lexemes ++ .mark .becomes :: placed 1 value.binding value.lexemes
  | paren inner => .mark .opening :: (inner.lexemes ++ [.mark .closing])

/-- Terms with commas between them. -/
def listed : List Term → List (Lexeme Mark)
  | [] => []
  | [arg] => arg.lexemes
  | arg :: next :: rest => arg.lexemes ++ .mark .comma :: listed (next :: rest)

end

@[simp] theorem separated_placed {least binding : Nat} {operand : List (Lexeme Mark)} :
    Lexeme.Separated (placed least binding operand) ↔ Lexeme.Separated operand := by
  unfold placed
  split <;> simp

theorem separated_listed {args : List Term} (h : ∀ arg ∈ args, Lexeme.Separated arg.lexemes) :
    Lexeme.Separated (listed args) := by
  induction args with
  | nil => simp [listed]
  | cons arg rest ih =>
    cases rest with
    | nil => simpa [listed] using h
    | cons next rest =>
      -- arguments have a comma between them
      rw [listed, Lexeme.separated_append_mark]
      exact ⟨h arg (by simp), ih fun arg harg => h arg (by simp [harg])⟩

/-- **No two words** stand side by side in a term. -/
theorem separated_lexemes (t : Term) : Lexeme.Separated t.lexemes := by
  -- a mark stands between any two parts of a term
  induction t with
  | name n => simp [lexemes]
  | int value => simp [lexemes]
  | field receiver n ih => simp [lexemes, ih]
  | call method args ih => simp [lexemes, separated_listed ih]
  | callOn receiver method args ih ihargs => simp [lexemes, ih, separated_listed ihargs]
  | binary op lhs rhs ihl ihr => simp [lexemes, ihl, ihr]
  | unary op operand ih => cases op <;> simp [lexemes, ih]
  | assign target value iht ihv => simp [lexemes, iht, ihv]
  | paren inner ih => simp [lexemes, ih]

end Term

/-! ### Terms in trees -/

namespace Tree

open Lexeme (textOf)

variable {tree : Tree} {id : NodeId} {t : Term}

/-- **The code at the id is the term**, whatever its names stand for. -/
inductive IsTerm (tree : Tree) : NodeId → Term → Prop where
  | name {id : NodeId} {n : Identifier} {var : Option VarId}
      (here : tree.kind? id = some (.expr (.name n.text var))) : IsTerm tree id (.name n)
  | int {id : NodeId} {number : Int64} {value : Nat}
      (here : tree.kind? id = some (.expr (.literal (.int number)))) (same : number.toInt = value) :
      IsTerm tree id (.int value)
  | field {id receiver : NodeId} {n : Identifier} {var : Option VarId} {on : Term}
      (here : tree.kind? id = some (.expr (.field receiver n.text var)))
      (object : IsTerm tree receiver on) :
      IsTerm tree id (.field on n)
  | call {id : NodeId} {method : Identifier} {ids : List NodeId} {target : Option MethodId}
      {args : List Term}
      (here : tree.kind? id = some (.expr (.call ⟨none, method.text, ids, target⟩)))
      (count : ids.length = args.length) (each : ∀ pair ∈ ids.zip args, IsTerm tree pair.1 pair.2) :
      IsTerm tree id (.call method args)
  | callOn {id receiver : NodeId} {method : Identifier} {ids : List NodeId}
      {target : Option MethodId} {on : Term} {args : List Term}
      (here : tree.kind? id = some (.expr (.call ⟨some receiver, method.text, ids, target⟩)))
      (object : IsTerm tree receiver on) (count : ids.length = args.length)
      (each : ∀ pair ∈ ids.zip args, IsTerm tree pair.1 pair.2) :
      IsTerm tree id (.callOn on method args)
  | binary {id left right : NodeId} {op : BinaryOp} {lhs rhs : Term}
      (here : tree.kind? id = some (.expr (.binary op left right))) (first : IsTerm tree left lhs)
      (second : IsTerm tree right rhs) : IsTerm tree id (.binary op lhs rhs)
  | unary {id inner : NodeId} {op : UnaryOp} {operand : Term}
      (here : tree.kind? id = some (.expr (.unary op inner))) (on : IsTerm tree inner operand) :
      IsTerm tree id (.unary op operand)
  | assign {id left right : NodeId} {target value : Term}
      (here : tree.kind? id = some (.expr (.assign none left right)))
      (first : IsTerm tree left target)
      (second : IsTerm tree right value) : IsTerm tree id (.assign target value)
  | paren {id inner : NodeId} {t : Term} (here : tree.kind? id = some (.expr (.paren inner)))
      (inside : IsTerm tree inner t) : IsTerm tree id (.paren t)

theorem grounded_of_zip {α : Type} {ids : List NodeId} {parts : List α}
    (hcount : ids.length = parts.length)
    (heach : ∀ pair ∈ ids.zip parts, tree.Grounded pair.1) : ∀ c ∈ ids, tree.Grounded c := by
  intro c hc
  rw [← List.map_fst_zip hcount.le] at hc
  obtain ⟨pair, hpair, rfl⟩ := List.mem_map.1 hc
  exact heach pair hpair

theorem IsTerm.grounded (h : tree.IsTerm id t) : tree.Grounded id := by
  induction h with
  | name here => exact .layer here (by simp [Kind.children, Expr.children])
  | int here _ => exact .layer here (by simp [Kind.children, Expr.children])
  | field here _ ih => exact .layer here (by simpa [Kind.children, Expr.children] using ih)
  | call here hcount _ ih =>
    exact .layer here (by simpa [Kind.children, Expr.children] using grounded_of_zip hcount ih)
  | callOn here _ hcount _ ih iheach =>
    exact .layer here
      (by simpa [Kind.children, Expr.children] using ⟨ih, grounded_of_zip hcount iheach⟩)
  | binary here _ _ ihl ihr =>
    exact .layer here (by simpa [Kind.children, Expr.children] using ⟨ihl, ihr⟩)
  | unary here _ ih => exact .layer here (by simpa [Kind.children, Expr.children] using ih)
  | assign here _ _ iht ihv =>
    exact .layer here (by simpa [Kind.children, Expr.children] using ⟨iht, ihv⟩)
  | paren here _ ih => exact .layer here (by simpa [Kind.children, Expr.children] using ih)

end Tree

/-- The layer is one of a term. -/
def Expr.isSimple {ι : Type} : Expr ι → Bool
  | .name n _ => isIdentifier n
  | .literal (.int value) => 0 ≤ value.toInt
  | .field _ n _ => isIdentifier n
  | .call c => isIdentifier c.method
  | .binary .. | .unary .. | .assign none .. | .paren _ => true
  | _ => false

namespace Tree

open Lexeme (textOf)

variable {tree : Tree} {id : NodeId} {t : Term}

/-- Where there is something for each part, there is a list of it. -/
theorem exists_zip {α : Type} {R : NodeId → α → Prop} {ids : List NodeId}
    (h : ∀ c ∈ ids, ∃ part, R c part) :
    ∃ parts : List α, ids.length = parts.length ∧ ∀ pair ∈ ids.zip parts, R pair.1 pair.2 := by
  induction ids with
  | nil => exact ⟨[], rfl, by simp⟩
  | cons c ids ih =>
    obtain ⟨part, hpart⟩ := h c (by simp)
    obtain ⟨parts, hcount, heach⟩ := ih fun c hc => h c (by simp [hc])
    exact ⟨part :: parts,
      by simp [hcount], by simpa using ⟨hpart, fun a b hmem => heach (a, b) hmem⟩⟩

/-- **Finite code with simple layers only** is a term. -/
theorem Grounded.exists_isTerm (hg : tree.Grounded id)
    (h : ∀ n, tree.Reaches id n → ∃ e, tree.kind? n = some (.expr e) ∧ e.isSimple = true) :
    ∃ t, tree.IsTerm id t := by
  induction hg with
  | @layer a kind here below ih =>
    obtain ⟨e, he, hsimple⟩ := h a (.refl a)
    obtain rfl : kind = .expr e := Option.some.inj (here.symm.trans he)
    -- the parts are simple as well, so each is a term
    have hpart : ∀ c ∈ e.children, ∃ t, tree.IsTerm c t := fun c hc =>
      ih c hc fun n hn => h n (hn.head (parts_eq_children here ▸ hc))
    cases e with
    | name n var => exact ⟨.name ⟨n, hsimple⟩, .name here⟩
    -- a number that is less than zero is written with a dash and is no literal of a term
    | literal value =>
      cases value with
      | int number =>
        exact ⟨_, .int here (Int.toNat_of_nonneg (by simpa [Expr.isSimple] using hsimple)).symm⟩
      | _ => cases hsimple
    | field receiver n var =>
      obtain ⟨on, hon⟩ := hpart receiver (by simp [Expr.children])
      exact ⟨.field on ⟨n, hsimple⟩, .field here hon⟩
    | call c =>
      obtain ⟨receiver, method, ids, target⟩ := c
      obtain ⟨args, hcount, heach⟩ :=
        exists_zip fun c (hc : c ∈ ids) => hpart c (by simp [Expr.children, hc])
      cases receiver with
      | none => exact ⟨.call ⟨method, hsimple⟩ args, .call here hcount heach⟩
      | some receiver =>
        obtain ⟨on, hon⟩ := hpart receiver (by simp [Expr.children])
        exact ⟨.callOn on ⟨method, hsimple⟩ args, .callOn here hon hcount heach⟩
    | binary op left right =>
      obtain ⟨lhs, hlhs⟩ := hpart left (by simp [Expr.children])
      obtain ⟨rhs, hrhs⟩ := hpart right (by simp [Expr.children])
      exact ⟨_, .binary here hlhs hrhs⟩
    | unary op inner =>
      obtain ⟨operand, hoperand⟩ := hpart inner (by simp [Expr.children])
      exact ⟨_, .unary here hoperand⟩
    | assign op left right =>
      obtain ⟨target, htarget⟩ := hpart left (by simp [Expr.children])
      obtain ⟨value, hvalue⟩ := hpart right (by simp [Expr.children])
      cases op with
      | none => exact ⟨_, .assign here htarget hvalue⟩
      | some op => cases hsimple
    | paren inner =>
      obtain ⟨t, ht⟩ := hpart inner (by simp [Expr.children])
      exact ⟨_, .paren here ht⟩
    | _ => cases hsimple

/-! ### The text of a term -/

section Layers

variable {inner left right receiver : NodeId} {n : String} {var : Option VarId}
  {bound bound' : Option Nat} {part part' : String}

/-- A layer that does not look at its variables prints, whether they are known or not. -/
theorem Prints.of_layout {kind : Kind NodeId} (hg : tree.Grounded id)
    (hkind : tree.kind? id = some kind)
    (hparts : ∀ c ∈ kind.children, ∃ binding text, tree.Prints c binding text)
    {code : List Layout.Command} (hcode : (kind.map tree.printed).layout tree.var = .ok code)
    (hplain : Layout.Plain code) :
    tree.Prints id (kind.expr?.map Expr.precedence) (Layout.flat code) := by
  refine ⟨code, (hg.fragment_eq hkind (fun c hc => ?_) hcode).trans (by simp [shownId]),
    hplain, rfl⟩
  obtain ⟨binding, text, h⟩ := hparts c hc
  exact h.fragment_eq

theorem Prints.of_eq (h : tree.Prints id bound part) (heq : part = part') :
    tree.Prints id bound part' :=
  heq ▸ h

theorem Prints.name (hg : tree.Grounded id) (hkind : tree.kind? id = some (.expr (.name n var))) :
    tree.Prints id (some 15) n := by
  have h := Prints.of_layout hg hkind (by simp [Kind.children, Expr.children]) rfl (by simp)
  simpa [Layout.Command.flat, Kind.expr?, Expr.precedence] using h

theorem Prints.literal {value : Literal} (hg : tree.Grounded id)
    (hkind : tree.kind? id = some (.expr (.literal value))) :
    tree.Prints id (some 15) value.text := by
  have h := Prints.of_layout hg hkind (by simp [Kind.children, Expr.children]) rfl (by simp)
  simpa [Layout.Command.flat, Kind.expr?, Expr.precedence] using h

theorem Prints.field (hg : tree.Grounded id)
    (hkind : tree.kind? id = some (.expr (.field receiver n var)))
    (h : tree.Prints receiver bound part) :
    tree.Prints id (some 15) (operandText 15 bound part ++ "." ++ n) := by
  have hlayer :=
    Prints.of_layout hg hkind (by simpa [Kind.children, Expr.children] using ⟨_, _, h⟩) rfl
    (by simp [Fragment.plain_operand h.plain])
  simpa [Layout.Command.flat, Kind.expr?, Expr.precedence, h.flat_operand, String.append_assoc]
    using hlayer

theorem Prints.binary {op : BinaryOp} (hg : tree.Grounded id)
    (hkind : tree.kind? id = some (.expr (.binary op left right))) (h : tree.Prints left bound part)
    (h' : tree.Prints right bound' part') :
    tree.Prints id (some op.precedence)
      (operandText op.precedence bound part ++ " " ++ op.text ++ " " ++
      operandText (op.precedence + 1) bound' part') := by
  have hlayer := Prints.layer hg hkind
    (by simpa [Kind.children, Expr.children] using ⟨⟨_, _, h⟩, ⟨_, _, h'⟩⟩)
    (by simp [Kind.vars, Expr.vars]) rfl
  simpa [Layout.Command.flat, Kind.expr?, Expr.precedence, h.flat_operand, h'.flat_operand,
    String.append_assoc] using hlayer

theorem Prints.unary {op : UnaryOp} (hg : tree.Grounded id)
    (hkind : tree.kind? id = some (.expr (.unary op inner))) (h : tree.Prints inner bound part) :
    tree.Prints id (some op.precedence)
      (if op.followsOperand then operandText op.precedence bound part ++ op.text
        else op.text ++ operandText op.precedence bound part) := by
  have hparts : ∀ c ∈ Kind.children (.expr (.unary op inner)), ∃ binding text,
      tree.Prints c binding text := by
    simpa [Kind.children, Expr.children] using ⟨_, _, h⟩
  cases op <;>
    simpa [Layout.Command.flat, Kind.expr?, Expr.precedence, h.flat_operand, UnaryOp.followsOperand]
      using Prints.layer hg hkind hparts (by simp [Kind.vars, Expr.vars]) rfl

theorem Prints.assign {op : Option BinaryOp} (hg : tree.Grounded id)
    (hkind : tree.kind? id = some (.expr (.assign op left right))) (h : tree.Prints left bound part)
    (h' : tree.Prints right bound' part') :
    tree.Prints id (some 1)
      (operandText 2 bound part ++ " " ++ (op.map BinaryOp.text).getD "" ++ "= " ++
      operandText 1 bound' part') := by
  have hlayer := Prints.layer hg hkind
    (by simpa [Kind.children, Expr.children] using ⟨⟨_, _, h⟩, ⟨_, _, h'⟩⟩)
    (by simp [Kind.vars, Expr.vars]) rfl
  simpa [Layout.Command.flat, Kind.expr?, Expr.precedence, h.flat_operand, h'.flat_operand,
    String.append_assoc] using hlayer

end Layers

end Tree

namespace Term

open Lexeme (textOf textOf_append textOf_cons)

theorem textOf_placed (least binding : Nat) (operand : List (Lexeme Mark)) :
    textOf (placed least binding operand) = operandText least (some binding) (textOf operand) := by
  unfold placed operandText
  split <;> simp_all [Mark.spelling, String.append_assoc]

theorem textOf_listed (args : List Term) :
    textOf (listed args) = ", ".intercalate (args.map fun arg => textOf arg.lexemes) := by
  induction args with
  | nil => simp [listed]
  | cons arg rest ih =>
    cases rest with
    | nil => simp [listed]
    | cons next rest =>
      -- the comma of the lexemes is the separator of the text
      rw [listed, textOf_append, textOf_cons, ih]
      simp [Mark.spelling, String.intercalate_cons_cons, String.append_assoc]

end Term

namespace Tree

open Lexeme (textOf)

variable {tree : Tree} {id : NodeId} {t : Term}

/-- Parts print as what they are told to be, each in its place. -/
theorem printsAll_of_zip {α : Type} {ids : List NodeId} {parts : List α} (binding : α → Option Nat)
    (text : α → String) (hcount : ids.length = parts.length)
    (heach : ∀ pair ∈ ids.zip parts, tree.Prints pair.1 (binding pair.2) (text pair.2)) :
    tree.PrintsAll ids (parts.map text) :=
  List.forall₂_map_right_iff.2
    (List.forall₂_iff_zip.2 ⟨hcount, fun {id part} hmem => ⟨_, heach (id, part) hmem⟩⟩)

/-- **A term prints its lexemes.** -/
theorem IsTerm.prints (h : tree.IsTerm id t) :
    tree.Prints id (some t.binding) (textOf t.lexemes) := by
  have hg := h.grounded
  induction h with
  | name here => exact (Prints.name hg here).of_eq (by simp [Term.lexemes])
  | @int id number value here same =>
    have htext : toString (value : Int) = toString value := rfl
    exact (Prints.literal hg here).of_eq (by rw [Literal.text, same, htext]; simp [Term.lexemes])
  | field here object ih =>
    -- an operand has parentheses around it where it binds less tightly, in both
    exact (Prints.field hg here (ih object.grounded)).of_eq
      (by simp [Term.lexemes, Term.textOf_placed, Term.Mark.spelling, String.append_assoc])
  | call here hcount each ih =>
    have hargs :=
      printsAll_of_zip (fun arg => some arg.binding) (fun arg => textOf arg.lexemes) hcount
      fun pair hpair => ih pair hpair (each pair hpair).grounded
    exact (Prints.callUnqualified hg here hargs).of_eq
      (by
        simp [Term.lexemes, Term.textOf_listed, argumentsText, Term.Mark.spelling,
          String.append_assoc])
  | callOn here object hcount each ih iheach =>
    have hargs :=
      printsAll_of_zip (fun arg => some arg.binding) (fun arg => textOf arg.lexemes) hcount
      fun pair hpair => iheach pair hpair (each pair hpair).grounded
    exact (Prints.call hg here (ih object.grounded) hargs).of_eq
      (by
        simp [Term.lexemes, Term.textOf_placed, Term.textOf_listed, argumentsText,
          Term.Mark.spelling, String.append_assoc])
  | binary here first second ihl ihr =>
    exact (Prints.binary hg here (ihl first.grounded) (ihr second.grounded)).of_eq
      (by simp [Term.lexemes, Term.textOf_placed, Term.Mark.spelling, String.append_assoc])
  | @unary id inner op operand here on ih =>
    refine (Prints.unary hg here (ih on.grounded)).of_eq ?_
    -- the operator is in front of the operand or behind it
    cases op <;>
      simp [Term.lexemes, Term.textOf_placed, Term.Mark.spelling, UnaryOp.followsOperand,
        UnaryOp.precedence, UnaryOp.text, ← String.append_assoc]
  | assign here first second iht ihv =>
    exact (Prints.assign hg here (iht first.grounded) (ihv second.grounded)).of_eq
      (by simp [Term.lexemes, Term.textOf_placed, Term.Mark.spelling, String.append_assoc])
  | paren here inside ih =>
    exact (Prints.paren hg here (ih inside.grounded)).of_eq
      (by simp [Term.lexemes, Term.Mark.spelling, String.append_assoc])

theorem IsTerm.text_eq (h : tree.IsTerm id t) :
    tree.text id = .ok (textOf t.lexemes) := h.prints.text_eq

end Tree

end LoopToStream
