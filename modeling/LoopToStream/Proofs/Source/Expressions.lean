import LoopToStream.Proofs.Source.Reading

/-!
# Telling printed expressions apart

Two terms with the same text are the same as far as they are seen (`Term.seen_eq_of_textOf_eq`), in
whatever trees they stand. Without a decrement in front of an operand that is all but their
parentheses (`IsTerm.bare_eq_of_text_eq`), so that the parentheses that are printed around operands
are always enough.

A decrement in front of an operand is printed like two negations. Nothing is put in between where an
operator stands in front of another one, since both bind alike, and so `-(-a)` and `--a` have the
same text (`dashes_ambiguous`). For names with operators around them, this is the only way to have
the same text (`IsTerm.text_eq_iff_of_chain`), and there is none where no negation stands in front
of a dash.
-/

namespace LoopToStream

open Lexeme (textOf)

variable {tree tree' : Tree} {id id' : NodeId} {t t' : Term}

namespace Tree.IsTerm

/-- **Printed expressions are told apart**, but for their parentheses. -/
theorem bare_eq_of_text_eq (h : tree.IsTerm id t) (h' : tree'.IsTerm id' t')
    (hdec : .preDec ∉ t.unaries) (hdec' : .preDec ∉ t'.unaries) :
    ∃ text text', tree.text id = .ok text ∧ tree'.text id' = .ok text' ∧
      (text = text' → t.bare = t'.bare) := by
  refine ⟨_, _, h.text_eq, h'.text_eq, fun htext => ?_⟩
  rw [← Term.seen_eq_bare hdec, ← Term.seen_eq_bare hdec']
  exact Term.seen_eq_of_textOf_eq htext

end Tree.IsTerm

/-- A product with a sum, which has been put together without parentheses. -/
def assembledProduct : Tree where
  nodes := #[
    ⟨.expr (.name "a" none), some ⟨2⟩, Tree.placeOf 0⟩,
    ⟨.expr (.name "b" none), some ⟨2⟩, Tree.placeOf 1⟩,
    ⟨.expr (.binary .add ⟨0⟩ ⟨1⟩), some ⟨4⟩, Tree.placeOf 2⟩,
    ⟨.expr (.name "c" none), some ⟨4⟩, Tree.placeOf 3⟩,
    ⟨.expr (.binary .mul ⟨2⟩ ⟨3⟩), none, Tree.placeOf 4⟩]
  vars := #[]
  root := ⟨4⟩
  scope := .inStatic "Sample"
  revision := 0

/-- The same product as it is written. -/
def writtenProduct : Tree where
  nodes := #[
    ⟨.expr (.name "a" none), some ⟨2⟩, Tree.placeOf 0⟩,
    ⟨.expr (.name "b" none), some ⟨2⟩, Tree.placeOf 1⟩,
    ⟨.expr (.binary .add ⟨0⟩ ⟨1⟩), some ⟨3⟩, Tree.placeOf 2⟩,
    ⟨.expr (.paren ⟨2⟩), some ⟨5⟩, Tree.placeOf 3⟩,
    ⟨.expr (.name "c" none), some ⟨5⟩, Tree.placeOf 4⟩,
    ⟨.expr (.binary .mul ⟨3⟩ ⟨4⟩), none, Tree.placeOf 5⟩]
  vars := #[]
  root := ⟨5⟩
  scope := .inStatic "Sample"
  revision := 0

/-- `a + b`. -/
def sumTerm : Term := .binary .add (.name .a) (.name .b)

/-- A product of this term, and `c`. -/
def timesC (t : Term) : Term := .binary .mul t (.name ⟨"c", by decide +kernel⟩)

theorem isTerm_assembledProduct : assembledProduct.IsTerm ⟨4⟩ (timesC sumTerm) :=
  .binary rfl (.binary rfl (.name rfl) (.name rfl)) (.name rfl)

theorem isTerm_writtenProduct : writtenProduct.IsTerm ⟨5⟩ (timesC (.paren sumTerm)) :=
  .binary rfl (.paren rfl (.binary rfl (.name rfl) (.name rfl))) (.name rfl)

/-- The two products have the same text, and are the same without their parentheses. -/
theorem bare_products : assembledProduct.text ⟨4⟩ = .ok "(a + b) * c" ∧
    writtenProduct.text ⟨5⟩ = .ok "(a + b) * c" ∧
    (timesC sumTerm).bare = (timesC (.paren sumTerm)).bare := by
  have hassembled : assembledProduct.text ⟨4⟩ = .ok "(a + b) * c" := by cbv
  have hwritten : writtenProduct.text ⟨5⟩ = .ok "(a + b) * c" := by cbv
  obtain ⟨text, text', htext, htext', hbare⟩ :=
    Tree.IsTerm.bare_eq_of_text_eq isTerm_assembledProduct
    isTerm_writtenProduct (by decide) (by decide)
  refine ⟨hassembled, hwritten, hbare ?_⟩
  exact Except.ok.inj ((htext.symm.trans hassembled).trans (hwritten.symm.trans htext'))

/-! ### Operators around a name -/

namespace Term

/-- The name with operators around it, outermost first. -/
def chain (ops : List UnaryOp) (n : Identifier) : Term := ops.foldr unary (name n)

variable {ops ops' : List UnaryOp} {n n' : Identifier}

@[simp] theorem chain_nil : chain [] n = name n := rfl

@[simp] theorem chain_cons {op : UnaryOp} : chain (op :: ops) n = unary op (chain ops n) := rfl

theorem chain_append : chain (ops ++ ops') n = ops.foldr unary (chain ops' n) := List.foldr_append

theorem chain_inj : chain ops n = chain ops' n' ↔ ops = ops' ∧ n = n' := by
  induction ops generalizing ops' with
  | nil => cases ops' <;> simp
  | cons op ops ih => cases ops' <;> simp [ih, and_assoc]

theorem seen_chain : (chain ops n).seen = chain (ops.flatMap UnaryOp.seen) n := by
  induction ops with
  | nil => rfl
  | cons op ops ih =>
    rw [List.flatMap_cons, chain_append, ← ih]
    rfl

/-- **What is seen of a chain** is printed in the same way, and binds as tightly. -/
theorem lexemes_chain_seen (ops : List UnaryOp) (n : Identifier) :
    (chain (ops.flatMap UnaryOp.seen) n).binding = (chain ops n).binding ∧
      (chain (ops.flatMap UnaryOp.seen) n).lexemes = (chain ops n).lexemes := by
  induction ops with
  | nil => exact ⟨rfl, rfl⟩
  | cons op ops ih =>
    obtain ⟨hbinding, hlexemes⟩ := ih
    cases op with
    | preDec =>
      -- a negation binds as tightly as its place in another one demands
      refine ⟨rfl, ?_⟩
      simp [UnaryOp.seen, lexemes, hbinding, hlexemes, placed, UnaryOp.precedence,
        UnaryOp.followsOperand]
    | _ => exact ⟨rfl, by simp [UnaryOp.seen, lexemes, hbinding, hlexemes]⟩

end Term

namespace UnaryOp

/-- The one operator is told from the other one behind it, since it is no negation in front of a
dash. -/
def Apart (outer inner : UnaryOp) : Prop := outer = neg → inner ≠ neg ∧ inner ≠ preDec

instance (outer inner : UnaryOp) : Decidable (Apart outer inner) :=
  inferInstanceAs (Decidable (_ → _))

/-- No dash is seen behind a negation. -/
theorem ne_neg_of_apart {ops : List UnaryOp} (h : (neg :: ops).IsChain Apart)
    (seen' : List UnaryOp) :
    ops.flatMap seen ≠ neg :: seen' := by
  cases ops with
  | nil => simp
  | cons op ops =>
    -- what follows a negation directly is neither a negation nor a decrement
    obtain ⟨hneg, hdec⟩ := (List.isChain_cons_cons.1 h).1 rfl
    cases op with
    | neg => exact absurd rfl hneg
    | preDec => exact absurd rfl hdec
    | _ => simp [seen]

theorem seen_of_ne {op : UnaryOp} (h : op ≠ preDec) : op.seen = [op] := by
  cases op with
  | preDec => exact absurd rfl h
  | _ => rfl

theorem seen_ne_nil (op : UnaryOp) : op.seen ≠ [] := by
  cases op <;> exact List.cons_ne_nil _ _

/-- **Operators that are apart** are told from what is seen of them. -/
theorem eq_of_seen {ops ops' : List UnaryOp} (h : ops.IsChain Apart) (h' : ops'.IsChain Apart)
    (heq : ops.flatMap seen = ops'.flatMap seen) : ops = ops' := by
  induction ops generalizing ops' with
  | nil =>
    cases ops' with
    | nil => rfl
    | cons op' ops' => exact absurd (List.append_eq_nil_iff.1 heq.symm).1 op'.seen_ne_nil
  | cons op ops ih =>
    cases ops' with
    | nil => exact absurd (List.append_eq_nil_iff.1 heq).1 op.seen_ne_nil
    | cons op' ops' =>
      rw [List.flatMap_cons, List.flatMap_cons] at heq
      by_cases hop : op = preDec
      · by_cases hop' : op' = preDec
        · subst hop hop'
          exact congrArg (preDec :: ·) (ih h.tail h'.tail (List.append_cancel_left heq))
        · -- the second dash would be in front of the other operators
          subst hop
          rw [seen_of_ne hop'] at heq
          obtain ⟨rfl, hrest⟩ := List.cons.inj heq
          exact absurd hrest.symm (ne_neg_of_apart h' _)
      · rw [seen_of_ne hop] at heq
        by_cases hop' : op' = preDec
        · subst hop'
          obtain ⟨rfl, hrest⟩ := List.cons.inj heq
          exact absurd hrest (ne_neg_of_apart h _)
        · rw [seen_of_ne hop'] at heq
          obtain ⟨rfl, hrest⟩ := List.cons.inj heq
          exact congrArg (op :: ·) (ih h.tail h'.tail hrest)

end UnaryOp

namespace Tree.IsTerm

variable {ops ops' : List UnaryOp} {n n' : Identifier}

/-- **Operators around a name** print the same exactly if the same is seen of them. If they are
apart on both sides, they are the same. -/
theorem text_eq_iff_of_chain (h : tree.IsTerm id (.chain ops n))
    (h' : tree'.IsTerm id' (.chain ops' n')) :
    ∃ text text', tree.text id = .ok text ∧ tree'.text id' = .ok text' ∧
      (text = text' ↔ ops.flatMap UnaryOp.seen = ops'.flatMap UnaryOp.seen ∧ n = n') ∧
      (ops.IsChain UnaryOp.Apart → ops'.IsChain UnaryOp.Apart → text = text' →
        Term.chain ops n = Term.chain ops' n') := by
  -- the lexemes of a chain say no more and no less than what is seen of its operators
  have hiff : textOf (Term.chain ops n).lexemes = textOf (Term.chain ops' n').lexemes ↔
      ops.flatMap UnaryOp.seen = ops'.flatMap UnaryOp.seen ∧ n = n' := by
    constructor
    · intro htext
      have hseen := Term.seen_eq_of_textOf_eq htext
      rwa [Term.seen_chain, Term.seen_chain, Term.chain_inj] at hseen
    · rintro ⟨hops, rfl⟩
      rw [← (Term.lexemes_chain_seen ops n).2, hops, (Term.lexemes_chain_seen ops' n).2]
  refine ⟨_, _, h.text_eq, h'.text_eq, hiff, fun hapart hapart' htext => ?_⟩
  obtain ⟨hops, hn⟩ := hiff.1 htext
  exact Term.chain_inj.2 ⟨UnaryOp.eq_of_seen hapart hapart' hops, hn⟩

end Tree.IsTerm

/-- Two negations of a name, a decrement of it, and the negation of an increment. -/
def dashes : Tree where
  nodes := #[
    ⟨.expr (.name "a" none), some ⟨1⟩, Tree.placeOf 0⟩,
    ⟨.expr (.unary .neg ⟨0⟩), some ⟨2⟩, Tree.placeOf 1⟩,
    ⟨.expr (.unary .neg ⟨1⟩), some ⟨3⟩, Tree.placeOf 2⟩,
    ⟨.stmt (.expr ⟨2⟩), some ⟨11⟩, Tree.placeOf 3⟩,
    ⟨.expr (.name "a" none), some ⟨5⟩, Tree.placeOf 4⟩,
    ⟨.expr (.unary .preDec ⟨4⟩), some ⟨6⟩, Tree.placeOf 5⟩,
    ⟨.stmt (.expr ⟨5⟩), some ⟨11⟩, Tree.placeOf 6⟩,
    ⟨.expr (.name "a" none), some ⟨8⟩, Tree.placeOf 7⟩,
    ⟨.expr (.unary .preInc ⟨7⟩), some ⟨9⟩, Tree.placeOf 8⟩,
    ⟨.expr (.unary .neg ⟨8⟩), some ⟨10⟩, Tree.placeOf 9⟩,
    ⟨.stmt (.expr ⟨9⟩), some ⟨11⟩, Tree.placeOf 10⟩,
    ⟨.stmt (.block [⟨3⟩, ⟨6⟩, ⟨10⟩]), none, Tree.placeOf 11⟩]
  vars := #[]
  root := ⟨11⟩
  scope := .inStatic "Sample"
  revision := 0

/-- The operators around `a`. -/
def aroundA (ops : List UnaryOp) : Term := .chain ops .a

theorem isTerm_dashes :
    dashes.IsTerm ⟨2⟩ (aroundA [.neg, .neg]) ∧ dashes.IsTerm ⟨5⟩ (aroundA [.preDec]) ∧
    dashes.IsTerm ⟨9⟩ (aroundA [.neg, .preInc]) :=
  ⟨.unary rfl (.unary rfl (.name rfl)), .unary rfl (.name rfl), .unary rfl (.unary rfl (.name rfl))⟩

/-- The decrement has the text of the two negations, and not that of the negation of an increment.
-/
theorem text_dashes : dashes.text ⟨2⟩ = dashes.text ⟨5⟩ ∧ dashes.text ⟨5⟩ ≠ dashes.text ⟨9⟩ := by
  obtain ⟨hnegations, hdecrement, hincrement⟩ := isTerm_dashes
  constructor
  · obtain ⟨text, text', htext, htext', hiff, -⟩ :=
      Tree.IsTerm.text_eq_iff_of_chain hnegations hdecrement
    rw [htext, htext', hiff.2 ⟨rfl, rfl⟩]
  · -- neither chain has operators that run together, so only equal chains would print alike
    obtain ⟨text, text', htext, htext', -, hapart⟩ :=
      Tree.IsTerm.text_eq_iff_of_chain hdecrement hincrement
    rw [htext, htext']
    intro hsame
    have hchains := hapart (by decide) (by decide) (Except.ok.inj hsame)
    exact absurd (Term.chain_inj.1 hchains).1 (by decide)

/-- **A negation may read back as a decrement.** -/
theorem dashes_ambiguous :
    dashes.IsTerm ⟨2⟩ (aroundA [.neg, .neg]) ∧ dashes.IsTerm ⟨5⟩ (aroundA [.preDec]) ∧
    dashes.text ⟨2⟩ = .ok "--a" ∧ dashes.text ⟨5⟩ = .ok "--a" ∧
    aroundA [.neg, .neg] ≠ aroundA [.preDec] := by
  refine ⟨isTerm_dashes.1, isTerm_dashes.2.1, by cbv, by cbv, fun hsame => ?_⟩
  exact absurd (Term.chain_inj.1 hsame).1 (by decide)

end LoopToStream
