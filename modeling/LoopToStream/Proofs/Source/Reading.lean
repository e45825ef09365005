import LoopToStream.Proofs.Source.Terms

/-!
# Reading a term

A term can be read off its lexemes from the left to the right, with nothing to decide on the way.
The rules are those of `Term.Reads`. After an operand, the next mark says how tightly it binds what
stands in front of it (`Term.demand`), and whoever waits for an operand stops at the first mark that
binds looser than that.

* `Reads.unique` — what is read, and where it ends, is determined by the lexemes;
* `Term.readable` — the lexemes of a term read as the term, wherever it may stand.

Two things are not seen in this way. Parentheses leave nothing behind in what is read, and a
decrement in front of an operand reads as two negations, since both are two dashes. `Term.seen` is
what is left.
-/

namespace LoopToStream

/-! ### What is seen of a term -/

/-- The operators that a reader takes this one for. -/
def UnaryOp.seen : UnaryOp → List UnaryOp
  | preDec => [neg, neg]
  | op => [op]

namespace Term

mutual

/-- The term without its parentheses, and with other operators, outermost first, in the place of
each operator on one operand. -/
def core (f : UnaryOp → List UnaryOp) : Term → Term
  | name n => name n
  | int value => int value
  | field receiver n => field (receiver.core f) n
  | call method args => call method (coreAll f args)
  | callOn receiver method args => callOn (receiver.core f) method (coreAll f args)
  | binary op lhs rhs => binary op (lhs.core f) (rhs.core f)
  | unary op operand => (f op).foldr unary (operand.core f)
  | assign target value => assign (target.core f) (value.core f)
  | paren inner => inner.core f

def coreAll (f : UnaryOp → List UnaryOp) : List Term → List Term
  | [] => []
  | arg :: rest => arg.core f :: coreAll f rest

end

theorem coreAll_eq_map (f : UnaryOp → List UnaryOp) (args : List Term) :
    coreAll f args = args.map (core f) := by
  induction args with
  | nil => rfl
  | cons arg rest ih => rw [coreAll, ih, List.map_cons]

/-- **The term without its parentheses.** -/
def bare (t : Term) : Term := t.core fun op => [op]

/-- What a reader takes the term for. -/
def seen (t : Term) : Term := t.core UnaryOp.seen

mutual

/-- The operators on one operand. -/
def unaries : Term → List UnaryOp
  | name _ => []
  | int _ => []
  | field receiver _ => receiver.unaries
  | call _ args => unariesAll args
  | callOn receiver _ args => receiver.unaries ++ unariesAll args
  | binary _ lhs rhs => lhs.unaries ++ rhs.unaries
  | unary op operand => op :: operand.unaries
  | assign target value => target.unaries ++ value.unaries
  | paren inner => inner.unaries

def unariesAll : List Term → List UnaryOp
  | [] => []
  | arg :: rest => arg.unaries ++ unariesAll rest

end

theorem unariesAll_eq_flatMap (args : List Term) : unariesAll args = args.flatMap unaries := by
  induction args with
  | nil => rfl
  | cons arg rest ih => rw [unariesAll, ih, List.flatMap_cons]

/-- Only the operators that are there matter. -/
theorem core_congr {f g : UnaryOp → List UnaryOp} {t : Term} (h : ∀ op ∈ t.unaries, f op = g op) :
    t.core f = t.core g := by
  -- the operators of an argument are among those of all arguments
  have hargs : ∀ args : List Term,
      (∀ arg ∈ args, (∀ op ∈ arg.unaries, f op = g op) → arg.core f = arg.core g) →
      (∀ op ∈ unariesAll args, f op = g op) → coreAll f args = coreAll g args := by
    intro args ih h
    rw [coreAll_eq_map, coreAll_eq_map]
    refine List.map_congr_left fun arg harg => ih arg harg fun op hop => h op ?_
    rw [unariesAll_eq_flatMap]
    exact List.mem_flatMap.2 ⟨arg, harg, hop⟩
  induction t with
  | name n => rfl
  | int value => rfl
  | field receiver n ih => rw [core, core, ih h]
  | call method args ih => rw [core, core, hargs args ih h]
  | callOn receiver method args ih ihargs =>
    rw [unaries, List.forall_mem_append] at h
    rw [core, core, ih h.1, hargs args ihargs h.2]
  | binary op lhs rhs ihl ihr =>
    rw [unaries, List.forall_mem_append] at h
    rw [core, core, ihl h.1, ihr h.2]
  | unary op operand ih =>
    rw [unaries, List.forall_mem_cons] at h
    rw [core, core, h.1, ih h.2]
  | assign target value iht ihv =>
    rw [unaries, List.forall_mem_append] at h
    rw [core, core, iht h.1, ihv h.2]
  | paren inner ih => rw [core, core, ih h]

/-- **Without prefix decrements**, only the parentheses are not seen. -/
theorem seen_eq_bare {t : Term} (h : .preDec ∉ t.unaries) : t.seen = t.bare :=
  core_congr fun op hop => by
    cases op with
    | preDec => exact absurd hop h
    | _ => rfl

/-! ### The rules -/

/-- How tightly a mark binds what stands in front of it. -/
def Mark.strength : Mark → Nat
  | dot | opening => 15
  | increment | dash => 14
  | between op => op.precedence
  | becomes => 2
  | closing | comma | bang => 0

/-- How tightly the next lexeme binds what stands in front of it. -/
def demand : List (Lexeme Mark) → Nat
  | .mark m :: _ => m.strength
  | _ => 0

/-- The operator that a mark in front of an operand is taken for. -/
def Mark.leading? : Mark → Option UnaryOp
  | bang => some .not
  | dash => some .neg
  | increment => some .preInc
  | _ => none

/-- A call of what is named. -/
def applied : Term → List Term → Term
  | name method, args => call method args
  | field receiver method, args => callOn receiver method args
  | other, _ => other

/-- Where a reader is. -/
inductive Place where
  /-- In front of an operand that binds so tightly at least. -/
  | operand (least : Nat)
  /-- Behind the first part of such an operand. -/
  | onwards (least : Nat) (soFar : Term)
  /-- In front of an argument, with the arguments that have been read. -/
  | arguments (least : Nat) (callee : Term) (done : List Term)

/-- A row of lexemes. -/
abbrev Line := List (Lexeme Mark)

/-- From here, the term is read off the lexemes, and these are left. -/
inductive Reads : Place → Line → Term → Line → Prop where
  -- in front of an operand: a word, parentheses, or an operator and its operand
  | name {p : Nat} {n : Identifier} {ls rest : Line} {e : Term}
      (on : Reads (.onwards p (.name n)) ls e rest) : Reads (.operand p) (.name n :: ls) e rest
  | int {p value : Nat} {ls rest : Line} {e : Term}
      (on : Reads (.onwards p (.int value)) ls e rest) :
      Reads (.operand p) (.number value :: ls) e rest
  | paren {p : Nat} {ls ls' rest : Line} {inner e : Term}
      (inside : Reads (.operand 1) ls inner (.mark .closing :: ls'))
      (on : Reads (.onwards p inner) ls' e rest) : Reads (.operand p) (.mark .opening :: ls) e rest
  | leading {p : Nat} {m : Mark} {op : UnaryOp} {ls ls' rest : Line} {operand e : Term}
      (sign : m.leading? = some op) (behind : Reads (.operand 13) ls operand ls')
      (on : Reads (.onwards p (.unary op operand)) ls' e rest) :
      Reads (.operand p) (.mark m :: ls) e rest
  -- behind an operand: each rule asks that its result binds as tightly as the place demands
  | stop {p : Nat} {ls : Line} {e : Term} (looser : demand ls < p) : Reads (.onwards p e) ls e ls
  | field {p : Nat} {n : Identifier} {ls rest : Line} {t e : Term} (least : p ≤ 15)
      (on : Reads (.onwards p (.field t n)) ls e rest) :
      Reads (.onwards p t) (.mark .dot :: .name n :: ls) e rest
  | callNone {p : Nat} {ls rest : Line} {t e : Term} (least : p ≤ 15)
      (on : Reads (.onwards p (t.applied [])) ls e rest) :
      Reads (.onwards p t) (.mark .opening :: .mark .closing :: ls) e rest
  | callSome {p : Nat} {ls rest : Line} {t e : Term} (least : p ≤ 15)
      (on : Reads (.arguments p t []) ls e rest) :
      Reads (.onwards p t) (.mark .opening :: ls) e rest
  | postInc {p : Nat} {ls rest : Line} {t e : Term} (least : p ≤ 14)
      (on : Reads (.onwards p (.unary .postInc t)) ls e rest) :
      Reads (.onwards p t) (.mark .increment :: ls) e rest
  | postDec {p : Nat} {ls rest : Line} {t e : Term} (least : p ≤ 14)
      (on : Reads (.onwards p (.unary .postDec t)) ls e rest) :
      Reads (.onwards p t) (.mark .dash :: .mark .dash :: ls) e rest
  -- operators of one strength group to the left, and assignments to the right
  | between {p : Nat} {op : BinaryOp} {ls ls' rest : Line} {t rhs e : Term}
      (least : p ≤ op.precedence) (behind : Reads (.operand (op.precedence + 1)) ls rhs ls')
      (on : Reads (.onwards p (.binary op t rhs)) ls' e rest) :
      Reads (.onwards p t) (.mark (.between op) :: ls) e rest
  | becomes {p : Nat} {ls ls' rest : Line} {t value e : Term} (least : p ≤ 1)
      (behind : Reads (.operand 1) ls value ls')
      (on : Reads (.onwards p (.assign t value)) ls' e rest) :
      Reads (.onwards p t) (.mark .becomes :: ls) e rest
  -- among the arguments of a call
  | next {p : Nat} {ls ls' rest : Line} {callee arg e : Term} {done : List Term}
      (argument : Reads (.operand 1) ls arg (.mark .comma :: ls'))
      (on : Reads (.arguments p callee (done ++ [arg])) ls' e rest) :
      Reads (.arguments p callee done) ls e rest
  | last {p : Nat} {ls ls' rest : Line} {callee arg e : Term} {done : List Term}
      (argument : Reads (.operand 1) ls arg (.mark .closing :: ls'))
      (on : Reads (.onwards p (callee.applied (done ++ [arg]))) ls' e rest) :
      Reads (.arguments p callee done) ls e rest

variable {p : Nat} {ls rest : Line} {e : Term}

/-- No argument starts with a closing parenthesis. -/
theorem not_reads_closing {callee : Term} {done : List Term} :
    ¬ Reads (.arguments p callee done) (.mark .closing :: ls) e rest := by
  have hoperand : ∀ {e rest}, ¬ Reads (.operand 1) (.mark .closing :: ls) e rest := by
    rintro e rest ⟨⟩
    next sign _ _ => cases sign
  rintro (_ | _)
  · next argument _ => exact hoperand argument
  · next argument _ => exact hoperand argument

/-- **What is read is determined** by the lexemes, and so is what is left. By induction on the one
way to read it, as only one rule applies at each lexeme. -/
theorem Reads.unique {place : Place} {e' : Term} {rest' : Line} (h : Reads place ls e rest)
    (h' : Reads place ls e' rest') : e = e' ∧ rest = rest' := by
  induction h generalizing e' rest' with
  | name _ ih =>
    cases h' with
    | name on' => exact ih on'
  | int _ ih =>
    cases h' with
    | int on' => exact ih on'
  -- at an opening parenthesis no operator stands in front
  | paren _ _ ihinside ih =>
    cases h' with
    | paren inside' on' =>
      obtain ⟨rfl, hrest⟩ := ihinside inside'
      cases hrest
      exact ih on'
    | leading sign' _ _ => cases sign'
  | leading sign _ _ ihbehind ih =>
    cases h' with
    | paren _ _ => cases sign
    | leading sign' behind' on' =>
      obtain rfl := Option.some.inj (sign.symm.trans sign')
      obtain ⟨rfl, rfl⟩ := ihbehind behind'
      exact ih on'
  | stop looser =>
    -- any other rule asks for a mark that binds at least as tightly
    cases h' with
    | stop _ => exact ⟨rfl, rfl⟩
    | field least _ => exact absurd looser (Nat.not_lt.2 least)
    | callNone least _ => exact absurd looser (Nat.not_lt.2 least)
    | callSome least _ => exact absurd looser (Nat.not_lt.2 least)
    | postInc least _ => exact absurd looser (Nat.not_lt.2 least)
    | postDec least _ => exact absurd looser (Nat.not_lt.2 least)
    | between least _ _ => exact absurd looser (Nat.not_lt.2 least)
    | becomes least _ _ => exact absurd looser (Nat.not_lt.2 (Nat.le_succ_of_le least))
  | field least _ ih =>
    cases h' with
    | stop looser => exact absurd looser (Nat.not_lt.2 least)
    | field _ on' => exact ih on'
  -- an argument does not begin with the closing parenthesis
  | callNone least _ ih =>
    cases h' with
    | stop looser => exact absurd looser (Nat.not_lt.2 least)
    | callNone _ on' => exact ih on'
    | callSome _ on' => exact absurd on' not_reads_closing
  | callSome least on ih =>
    cases h' with
    | stop looser => exact absurd looser (Nat.not_lt.2 least)
    | callNone _ _ => exact absurd on not_reads_closing
    | callSome _ on' => exact ih on'
  | postInc least _ ih =>
    cases h' with
    | stop looser => exact absurd looser (Nat.not_lt.2 least)
    | postInc _ on' => exact ih on'
  | postDec least _ ih =>
    cases h' with
    | stop looser => exact absurd looser (Nat.not_lt.2 least)
    | postDec _ on' => exact ih on'
  | between least _ _ ihbehind ih =>
    cases h' with
    | stop looser => exact absurd looser (Nat.not_lt.2 least)
    | between _ behind' on' =>
      obtain ⟨rfl, rfl⟩ := ihbehind behind'
      exact ih on'
  | becomes least _ _ ihbehind ih =>
    cases h' with
    | stop looser => exact absurd looser (Nat.not_lt.2 (Nat.le_succ_of_le least))
    | becomes _ behind' on' =>
      obtain ⟨rfl, rfl⟩ := ihbehind behind'
      exact ih on'
  -- behind an argument there is a comma or the closing parenthesis
  | next _ _ ihargument ih =>
    cases h' with
    | next argument' on' =>
      obtain ⟨rfl, hrest⟩ := ihargument argument'
      cases hrest
      exact ih on'
    | last argument' _ => cases (ihargument argument').2
  | last _ _ ihargument ih =>
    cases h' with
    | next argument' _ => cases (ihargument argument').2
    | last argument' on' =>
      obtain ⟨rfl, hrest⟩ := ihargument argument'
      cases hrest
      exact ih on'

/-! ### Reading what is printed -/

/-- No mark binds what is in front of it as tightly as an assignment or an operator in front of its
operand binds. -/
theorem demand_ne (ls : Line) : demand ls ≠ 1 ∧ demand ls ≠ 13 := by
  cases ls with
  | nil => decide
  | cons first _ =>
    cases first with
    | mark m =>
      cases m with
      | between op => cases op <;> simp [demand, Mark.strength, BinaryOp.precedence]
      | _ => simp [demand, Mark.strength]
    | _ => simp [demand]

/-- Wherever a term may stand without parentheses, it is read from its lexemes. -/
def Readable (t : Term) : Prop :=
  ∀ ⦃p : Nat⦄ ⦃ls rest : Line⦄ ⦃e : Term⦄, p ≤ t.binding → demand ls ≤ t.binding →
    Reads (.onwards p t.seen) ls e rest → Reads (.operand p) (t.lexemes ++ ls) e rest

namespace Readable

variable {t : Term} {least : Nat}

/-- A term in parentheses is read anywhere. -/
theorem parenthesized (h : t.Readable) (on : Reads (.onwards p t.seen) ls e rest) :
    Reads (.operand p) (.mark .opening :: (t.lexemes ++ .mark .closing :: ls)) e rest :=
  .paren (h t.binding_bounds.1 (Nat.zero_le _) (.stop Nat.one_pos)) on

/-- An operand that more may follow. -/
theorem placed (h : t.Readable) (hp : p ≤ least) (hdemand : demand ls ≤ least)
    (on : Reads (.onwards p t.seen) ls e rest) :
    Reads (.operand p) (placed least t.binding t.lexemes ++ ls) e rest := by
  unfold Term.placed
  split
  · simpa using h.parenthesized on
  · next hbinds =>
    have hleast : least ≤ t.binding := Nat.le_of_not_lt hbinds
    exact h (hp.trans hleast) (hdemand.trans hleast) on

/-- An operand that ends here. -/
theorem ends (h : t.Readable) (hdemand : demand ls < least) :
    Reads (.operand least) (Term.placed least t.binding t.lexemes ++ ls) t.seen ls :=
  h.placed le_rfl hdemand.le (.stop hdemand)

/-- An argument goes on to the comma or the parenthesis behind it. -/
theorem argument (h : t.Readable) {m : Mark} (hm : m.strength = 0) :
    Reads (.operand 1) (t.lexemes ++ .mark m :: ls) t.seen (.mark m :: ls) :=
  h t.binding_bounds.1 (by simp [demand, hm]) (.stop (by simp [demand, hm]))

end Readable

/-- Arguments are read up to the closing parenthesis. By induction on them, with those that have
been read before. -/
theorem reads_listed {callee : Term} {args : List Term} (hargs : ∀ arg ∈ args, arg.Readable)
    (hne : args ≠ []) {done : List Term}
    (on : Reads (.onwards p (callee.applied (done ++ args.map seen))) ls e rest) :
    Reads (.arguments p callee done) (listed args ++ .mark .closing :: ls) e rest := by
  induction args generalizing done with
  | nil => exact absurd rfl hne
  | cons arg others ih =>
    have harg := hargs arg (by simp)
    cases others with
    | nil => exact .last (harg.argument rfl) on
    | cons other others =>
      rw [listed, List.append_assoc, List.cons_append]
      exact .next (harg.argument rfl)
        (ih (fun arg hmem => hargs arg (by simp [hmem])) (by simp) (by simpa using on))

/-- **The arguments of a call** are read one after the other. -/
theorem reads_arguments {callee : Term} {args : List Term} (hargs : ∀ arg ∈ args, arg.Readable)
    (hp : p ≤ 15) (on : Reads (.onwards p (callee.applied (args.map seen))) ls e rest) :
    Reads (.onwards p callee) (.mark .opening :: (listed args ++ .mark .closing :: ls)) e rest := by
  cases args with
  | nil => exact .callNone hp on
  | cons arg others => exact .callSome hp (reads_listed hargs (by simp) on)

/-- **The lexemes of a term read as the term.** By induction on the term, with the place and what
follows as they may be. -/
theorem readable (t : Term) : t.Readable := by
  induction t with
  | name n =>
    intro p ls rest e _ _ on
    exact .name on
  | int value =>
    intro p ls rest e _ _ on
    exact .int on
  | field receiver n ih =>
    intro p ls rest e hp hdemand on
    rw [lexemes, List.append_assoc]
    exact ih.placed hp le_rfl (.field hp on)
  | call method args ih =>
    intro p ls rest e hp hdemand on
    simp only [lexemes, List.cons_append, List.append_assoc, List.nil_append]
    rw [seen, core, coreAll_eq_map] at on
    exact .name (reads_arguments ih hp on)
  | callOn receiver method args ih ihargs =>
    intro p ls rest e hp hdemand on
    simp only [lexemes, List.cons_append, List.append_assoc, List.nil_append]
    rw [seen, core, coreAll_eq_map] at on
    exact ih.placed hp le_rfl (.field hp (reads_arguments ihargs hp on))
  | binary op lhs rhs ihl ihr =>
    intro p ls rest e hp hdemand on
    rw [lexemes, List.append_assoc, List.cons_append]
    exact ihl.placed hp le_rfl (.between hp (ihr.ends (Nat.lt_succ_of_le hdemand)) on)
  | unary op operand ih =>
    intro p ls rest e hp hdemand on
    -- behind an operator in front of its operand, the operand ends where the operator does
    have hlooser : op.followsOperand = false → demand ls < 13 := fun hfront => by
      refine lt_of_le_of_ne ?_ (demand_ne ls).2
      simpa [binding, UnaryOp.precedence, hfront] using hdemand
    cases op with
    | not => exact .leading rfl (ih.ends (hlooser rfl)) on
    | neg => exact .leading rfl (ih.ends (hlooser rfl)) on
    | preInc => exact .leading rfl (ih.ends (hlooser rfl)) on
    | preDec =>
      -- the second dash is read as a negation by itself
      exact .leading rfl (.leading rfl (ih.ends (hlooser rfl)) (.stop (hlooser rfl))) on
    | postInc =>
      rw [lexemes, List.append_assoc]
      exact ih.placed hp le_rfl (.postInc hp on)
    | postDec =>
      rw [lexemes, List.append_assoc]
      exact ih.placed hp le_rfl (.postDec hp on)
  | assign target value iht ihv =>
    intro p ls rest e hp hdemand on
    rw [lexemes, List.append_assoc, List.cons_append]
    -- a further assignment would be part of the value
    have hlooser : demand ls < 1 := lt_of_le_of_ne hdemand (demand_ne ls).1
    exact iht.placed (Nat.le_succ_of_le hp) le_rfl (.becomes hp (ihv.ends hlooser) on)
  | paren inner ih =>
    intro p ls rest e hp hdemand on
    simpa [lexemes] using ih.parenthesized on

/-- **Lexemes are printed of one term only**, as far as it is seen. -/
theorem seen_eq_of_lexemes_eq {t t' : Term} (h : t.lexemes = t'.lexemes) : t.seen = t'.seen := by
  have hread : ∀ t : Term, Reads (.operand 1) (t.lexemes ++ []) t.seen [] := fun t =>
    t.readable t.binding_bounds.1 (Nat.zero_le _) (.stop Nat.one_pos)
  have hother := hread t'
  rw [← h] at hother
  exact ((hread t).unique hother).1

/-- **A text is printed of one term only**, as far as it is seen. -/
theorem seen_eq_of_textOf_eq {t t' : Term}
    (h : Lexeme.textOf t.lexemes = Lexeme.textOf t'.lexemes) :
    t.seen = t'.seen :=
  seen_eq_of_lexemes_eq (Lexeme.eq_of_textOf_eq t.separated_lexemes t'.separated_lexemes h)

end Term

end LoopToStream
