import LoopToStream.Proofs.Source.Terms

/-!
# To which condition an else belongs

Branches are printed as they are, without braces around them. An `else` behind a branch that ends in
an `if` without `else` is then read as belonging to this inner one, and not to the `if` that it was
attached to. So statements with the same text may differ (`danglingElse_ambiguous`), and
`Clause.settle` is what they have in common: it moves each `else` to where it is read.

* `Clause.lexemes_settle` — what is read has the text;
* `Clause.eq_of_lexemes_eq` — of all statements with a text only one is `Clause.Settled`, which
  means that nothing has to be moved in it. By induction on the statement, with what follows it on
  the line, which is no `else` if there is an `if` left to take it;
* `IsClause.text_eq_iff` — so texts are the same exactly if the same is read.
-/

namespace LoopToStream

/-! ### Statements -/

/-- A statement of names, blocks and conditions that are names. -/
inductive Clause where
  | run (name : Identifier)
  | block (stmts : List Clause)
  | ifThen (cond : Identifier) (body : Clause)
  | ifElse (cond : Identifier) (body other : Clause)
deriving Repr

namespace Clause

section

variable {motive : Clause → Prop} (run : ∀ n, motive (run n))
  (block : ∀ stmts, (∀ stmt ∈ stmts, motive stmt) → motive (block stmts))
  (ifThen : ∀ cond body, motive body → motive (ifThen cond body))
  (ifElse : ∀ cond body other, motive body → motive other → motive (ifElse cond body other))

include run block ifThen ifElse

/-- Induction on a statement, with the statements of a block by their membership. -/
@[induction_eliminator]
theorem induction (s : Clause) : motive s :=
  @Clause.rec motive (fun stmts => ∀ stmt ∈ stmts, motive stmt)
    run block ifThen ifElse (by simp) (fun _ _ hfirst hrest => by simpa using ⟨hfirst, hrest⟩) s

end

/-! ### Lexemes -/

/-- What is written beside words. -/
inductive Mark where
  | blank | opening | closing | semicolon | openBrace | closeBrace
deriving DecidableEq, Repr

namespace Mark

def spelling : Mark → String
  | blank => " "
  | opening => "("
  | closing => ")"
  | semicolon => ";"
  | openBrace => "\x7b"
  | closeBrace => "\x7d"

instance : Spelled Mark where
  spelling := spelling
  separates mark := by cases mark <;> decide +kernel
  apart mark mark' := by cases mark <;> cases mark' <;> decide +kernel

/-- The text of a mark by itself. -/
@[simp] theorem text_mark (mark : Mark) : (Lexeme.mark mark).text = mark.spelling := rfl

end Mark

/-- A row of lexemes. -/
abbrev Line := List (Lexeme Mark)

/-- The word in front of a condition. -/
def ifWord : Identifier := ⟨"if", by decide +kernel⟩

/-- The word in front of the other branch. -/
def elseWord : Identifier := ⟨"else", by decide +kernel⟩

/-- What is in front of the first branch. -/
def condition (cond : Identifier) : Line :=
  [.name ifWord, .mark .blank, .mark .opening, .name cond, .mark .closing, .mark .blank]

/-- What is in front of the other branch. -/
def otherwise : Line := [.mark .blank, .name elseWord, .mark .blank]

/-- What is behind the last statement of a block. -/
def ending : List Clause → Line
  | [] => [.mark .closeBrace]
  | _ :: _ => [.mark .blank, .mark .closeBrace]

mutual

/-- What is printed of a statement. -/
def lexemes : Clause → Line
  | run n => [.name n, .mark .semicolon]
  | block stmts => .mark .openBrace :: (listed stmts ++ ending stmts)
  | ifThen cond body => condition cond ++ body.lexemes
  | ifElse cond body other => condition cond ++ (body.lexemes ++ (otherwise ++ other.lexemes))

/-- Statements with a blank in front of each. -/
def listed : List Clause → Line
  | [] => []
  | stmt :: rest => .mark .blank :: (stmt.lexemes ++ listed rest)

end

section Text

open Lexeme (textOf textOf_cons textOf_append)

theorem textOf_condition (cond : Identifier) :
    textOf (condition cond) = "if (" ++ cond.text ++ ") " :=
  String.toList_inj.1 (by simp [condition, ifWord, Mark.spelling, String.toList_append])

theorem textOf_otherwise : textOf otherwise = " else " :=
  String.toList_inj.1 (by simp [otherwise, elseWord, Mark.spelling])

theorem textOf_block (stmts : List Clause) :
    textOf (block stmts).lexemes = Tree.blockText (stmts.map fun stmt => textOf stmt.lexemes) := by
  -- each statement has a blank in front of it
  have hlisted : ∀ stmts : List Clause,
      textOf (listed stmts) =
        String.join ((stmts.map fun stmt => textOf stmt.lexemes).map (" " ++ ·)) := by
    intro stmts
    induction stmts with
    | nil => simp [listed]
    | cons stmt rest ih =>
      rw [listed, textOf_cons, textOf_append, ih]
      simp [Mark.spelling, String.append_assoc]
  cases stmts with
  | nil => simp [lexemes, listed, ending, Tree.blockText, Mark.spelling]
  | cons stmt rest =>
    rw [lexemes, textOf_cons, textOf_append, hlisted]
    simp [ending, Tree.blockText, Mark.spelling, String.append_assoc]

end Text

theorem separated_listed {stmts : List Clause} (h : ∀ stmt ∈ stmts, Lexeme.Separated stmt.lexemes) :
    Lexeme.Separated (listed stmts) := by
  induction stmts with
  | nil => simp [listed]
  | cons stmt rest ih =>
    have hrest := ih fun stmt hstmt => h stmt (by simp [hstmt])
    rw [listed, Lexeme.separated_mark_cons]
    -- the blank in front of the next statement keeps the words apart
    cases rest with
    | nil => simpa [listed] using h stmt
    | cons next rest =>
      rw [listed] at hrest ⊢
      simpa using ⟨h stmt (by simp), by simpa using hrest⟩

/-- **No two words** stand side by side in a statement. -/
theorem separated_lexemes (s : Clause) : Lexeme.Separated s.lexemes := by
  induction s with
  | run n => simp [lexemes]
  | block stmts ih =>
    have hstmts := separated_listed ih
    cases stmts <;> simpa [lexemes, ending] using hstmts
  | ifThen cond body ih => simp [lexemes, condition, ih]
  | ifElse cond body other ihb iho => simp [lexemes, condition, otherwise, ihb, iho]

/-! ### Where an else is read -/

/-- The statement ends in an `if` that would take an `else` behind it. -/
def isOpen : Clause → Bool
  | run _ | block _ => false
  | ifThen _ _ => true
  | ifElse _ _ other => other.isOpen

/-- The last `if` of an open statement takes the `else`. -/
def takeElse : Clause → Clause → Clause
  | ifThen cond body, other =>
    if body.isOpen then ifThen cond (body.takeElse other) else ifElse cond body other
  | ifElse cond body last, other => ifElse cond body (last.takeElse other)
  | s, _ => s

mutual

/-- **What is read of a statement**: each `else` belongs to the last `if` in front of it that has
none. -/
def settle : Clause → Clause
  | run n => run n
  | block stmts => block (settleAll stmts)
  | ifThen cond body => ifThen cond body.settle
  | ifElse cond body other =>
    if body.settle.isOpen then ifThen cond (body.settle.takeElse other.settle)
    else ifElse cond body.settle other.settle

def settleAll : List Clause → List Clause
  | [] => []
  | stmt :: rest => stmt.settle :: settleAll rest

end

/-- No `else` has to be moved. -/
inductive Settled : Clause → Prop where
  | run {n : Identifier} : Settled (.run n)
  | block {stmts : List Clause} (each : ∀ stmt ∈ stmts, Settled stmt) : Settled (.block stmts)
  | ifThen {cond : Identifier} {body : Clause} (inside : Settled body) : Settled (.ifThen cond body)
  | ifElse {cond : Identifier} {body other : Clause} (closed : body.isOpen = false)
      (inside : Settled body) (behind : Settled other) : Settled (.ifElse cond body other)

theorem settled_block {stmts : List Clause} :
    Settled (block stmts) ↔ ∀ stmt ∈ stmts, stmt.Settled :=
  ⟨fun h => by cases h with | block each => exact each, .block⟩

theorem settled_ifThen {cond : Identifier} {body : Clause} :
    Settled (ifThen cond body) ↔ body.Settled :=
  ⟨fun h => by cases h with | ifThen inside => exact inside, .ifThen⟩

theorem settled_ifElse {cond : Identifier} {body other : Clause} :
    Settled (ifElse cond body other) ↔ body.isOpen = false ∧ body.Settled ∧ other.Settled :=
  ⟨fun h => by cases h with | ifElse closed inside behind => exact ⟨closed, inside, behind⟩,
    fun h => .ifElse h.1 h.2.1 h.2.2⟩

variable {s s' other : Clause}

/-- Whoever takes the `else`, it is printed behind the whole statement. -/
theorem lexemes_takeElse (h : s.isOpen = true) :
    (s.takeElse other).lexemes = s.lexemes ++ (otherwise ++ other.lexemes) := by
  induction s with
  | run n => cases h
  | block stmts _ => cases h
  | ifThen cond body ih =>
    rw [takeElse]
    -- an `else` goes into the branch if that is open, and to this `if` otherwise
    split
    · next hopen => rw [lexemes, lexemes, ih hopen, List.append_assoc]
    · rw [lexemes, lexemes, List.append_assoc]
  | ifElse cond body last _ ih =>
    rw [takeElse, lexemes, lexemes, ih h]
    simp only [List.append_assoc]

/-- **What is read has the text** of what is printed. -/
theorem lexemes_settle (s : Clause) : s.settle.lexemes = s.lexemes := by
  -- statement by statement, and a block ends as it did
  have hlisted : ∀ stmts : List Clause, (∀ stmt ∈ stmts, stmt.settle.lexemes = stmt.lexemes) →
      listed (settleAll stmts) = listed stmts ∧ ending (settleAll stmts) = ending stmts := by
    intro stmts h
    induction stmts with
    | nil => exact ⟨rfl, rfl⟩
    | cons stmt rest ih =>
      have hrest := (ih fun stmt hstmt => h stmt (by simp [hstmt])).1
      exact ⟨by rw [settleAll, listed, listed, h stmt (by simp), hrest], rfl⟩
  induction s with
  | run n => rfl
  | block stmts ih =>
    obtain ⟨hstmts, hending⟩ := hlisted stmts ih
    rw [settle, lexemes, lexemes, hstmts, hending]
  | ifThen cond body ih => rw [settle, lexemes, lexemes, ih]
  | ifElse cond body other ihb iho =>
    rw [settle]
    split
    · -- an open branch takes the `else`, and the line has it in the same place
      next hopen => rw [lexemes, lexemes, lexemes_takeElse hopen, ihb, iho]
    · rw [lexemes, lexemes, ihb, iho]

theorem Settled.takeElse (h : s.Settled) (hother : other.Settled) : (s.takeElse other).Settled := by
  induction h with
  | run => exact .run
  | block each _ => exact .block each
  | ifThen inside ih =>
    rw [Clause.takeElse]
    -- the branch was open, or it is closed now that the `else` comes behind it
    split
    · exact .ifThen ih
    · next hclosed => exact .ifElse (Bool.not_eq_true _ ▸ hclosed) inside hother
  | ifElse closed inside _ _ ih => exact .ifElse closed inside ih

theorem settled_settle (s : Clause) : s.settle.Settled := by
  have hall : ∀ stmts : List Clause, (∀ stmt ∈ stmts, stmt.settle.Settled) →
      ∀ stmt ∈ settleAll stmts, stmt.Settled := by
    intro stmts h
    induction stmts with
    | nil => simp [settleAll]
    | cons stmt rest ih =>
      rw [settleAll, List.forall_mem_cons]
      exact ⟨h stmt (by simp), ih fun stmt hstmt => h stmt (by simp [hstmt])⟩
  induction s with
  | run n => exact .run
  | block stmts ih => exact .block (hall stmts ih)
  | ifThen cond body ih => exact .ifThen ih
  | ifElse cond body other ihb iho =>
    rw [settle]
    split
    · -- the branch was settled, and so is the `if` in it that takes the `else`
      exact .ifThen (ihb.takeElse iho)
    · next hclosed => exact .ifElse (Bool.not_eq_true _ ▸ hclosed) ihb iho

/-! ### One settled statement for a text -/

/-- The statement is told from all other ones at the beginning of a line, unless an `else` follows
that could belong to it. -/
def Told (s : Clause) : Prop :=
  ∀ ⦃s' : Clause⦄ ⦃rest rest' : Line⦄, s.Settled → s'.Settled →
    (s.isOpen = true → ¬ otherwise <+: rest) → (s'.isOpen = true → ¬ otherwise <+: rest') →
    s.lexemes ++ rest = s'.lexemes ++ rest' → s = s' ∧ rest = rest'

/-- No statement starts like an `else`. -/
theorem not_otherwise_lexemes (s : Clause) (rest : Line) :
    ¬ otherwise <+: .mark .blank :: (s.lexemes ++ rest) := by
  have hwords : elseWord ≠ ifWord := by decide
  cases s <;> simp [otherwise, lexemes, condition, hwords]

theorem not_otherwise_listed (stmts : List Clause) (rest : Line) :
    ¬ otherwise <+: listed stmts ++ .mark .blank :: .mark .closeBrace :: rest := by
  cases stmts with
  | nil => simp [otherwise, listed]
  | cons stmt stmts =>
    rw [listed, List.cons_append, List.append_assoc]
    exact not_otherwise_lexemes stmt _

/-- The statements of a block are told one after the other. -/
theorem listed_inj {stmts stmts' : List Clause} {rest rest' : Line}
    (htold : ∀ stmt ∈ stmts, stmt.Told) (h : ∀ stmt ∈ stmts, stmt.Settled)
    (h' : ∀ stmt ∈ stmts', stmt.Settled)
    (heq : listed stmts ++ .mark .blank :: .mark .closeBrace :: rest =
      listed stmts' ++ .mark .blank :: .mark .closeBrace :: rest') :
        stmts = stmts' ∧ rest = rest' := by
  -- no statement starts with a closing brace
  have hbrace : ∀ (stmt : Clause) (line line' : Line),
      .mark .closeBrace :: line ≠ stmt.lexemes ++ line' := by
    intro stmt line line'
    cases stmt <;> simp [lexemes, condition]
  induction stmts generalizing stmts' with
  | nil =>
    cases stmts' with
    | nil => simpa [listed] using heq
    | cons stmt' stmts' =>
      rw [listed, listed, List.nil_append, List.cons_append, List.append_assoc] at heq
      exact absurd (List.cons.inj heq).2 (hbrace _ _ _)
  | cons stmt stmts ih =>
    cases stmts' with
    | nil =>
      rw [listed, listed, List.nil_append, List.cons_append, List.append_assoc] at heq
      exact absurd (List.cons.inj heq).2.symm (hbrace _ _ _)
    | cons stmt' stmts' =>
      rw [listed, listed, List.cons_append, List.cons_append, List.append_assoc,
        List.append_assoc] at heq
      -- behind a statement of the list there is no `else`
      obtain ⟨rfl, hrest⟩ := htold stmt (by simp) (h stmt (by simp)) (h' stmt' (by simp))
        (fun _ => not_otherwise_listed stmts rest) (fun _ => not_otherwise_listed stmts' rest')
        (List.cons.inj heq).2
      obtain ⟨rfl, hend⟩ := ih (fun s hs => htold s (by simp [hs])) (fun s hs => h s (by simp [hs]))
        (fun s hs => h' s (by simp [hs])) hrest
      exact ⟨rfl, hend⟩

theorem condition_inj {cond cond' : Identifier} {line line' : Line} :
    condition cond ++ line = condition cond' ++ line' ↔ cond = cond' ∧ line = line' := by
  simp [condition]

/-- **Settled statements are told apart** at the beginning of a line. -/
theorem told (s : Clause) : s.Told := by
  induction s with
  | run n =>
    intro s' rest rest' _ _ _ _ heq
    cases s' with
    | run n' => simpa [lexemes] using heq
    | _ => simp [lexemes, condition] at heq
  | block stmts ih =>
    intro s' rest rest' h h' _ _ heq
    cases s' with
    | block stmts' =>
      -- an empty block ends at once, and in any other one a blank comes first
      rw [settled_block] at h h'
      rw [lexemes, lexemes, List.cons_append, List.cons_append, List.append_assoc,
        List.append_assoc] at heq
      have hinside := (List.cons.inj heq).2
      cases stmts with
      | nil => cases stmts' <;> simp_all [listed, ending]
      | cons stmt stmts =>
        cases stmts' with
        | nil => simp [listed, ending] at hinside
        | cons stmt' stmts' =>
          obtain ⟨hstmts, hrest⟩ := listed_inj ih h h' hinside
          exact ⟨congrArg block hstmts, hrest⟩
    | _ => simp [lexemes, condition] at heq
  | ifThen cond body ih =>
    intro s' rest rest' h h' hopen hopen' heq
    rw [settled_ifThen] at h
    cases s' with
    | ifThen cond' body' =>
      rw [settled_ifThen] at h'
      simp only [lexemes, List.append_assoc, condition_inj] at heq
      obtain ⟨rfl, hbody⟩ := heq
      obtain ⟨rfl, hrest⟩ := ih h h' (fun _ => hopen rfl) (fun _ => hopen' rfl) hbody
      exact ⟨rfl, hrest⟩
    | ifElse cond' body' other' =>
      -- the `else` behind the same branch would belong to this `if`
      obtain ⟨closed', inside', -⟩ := settled_ifElse.1 h'
      simp only [lexemes, List.append_assoc, condition_inj] at heq
      obtain ⟨-, hrest⟩ := ih h inside' (fun _ => hopen rfl) (by simp [closed']) heq.2
      exact absurd (hrest ▸ List.prefix_append _ _) (hopen rfl)
    | _ => simp [lexemes, condition] at heq
  | ifElse cond body other ihb iho =>
    intro s' rest rest' h h' hopen hopen' heq
    -- the first branch is closed, so that the `else` behind it is in nobody's way
    obtain ⟨closed, inside, behind⟩ := settled_ifElse.1 h
    cases s' with
    | ifThen cond' body' =>
      rw [settled_ifThen] at h'
      simp only [lexemes, List.append_assoc, condition_inj] at heq
      obtain ⟨-, hrest⟩ := ihb inside h' (by simp [closed]) (fun _ => hopen' rfl) heq.2
      exact absurd (hrest ▸ List.prefix_append _ _) (hopen' rfl)
    | ifElse cond' body' other' =>
      obtain ⟨closed', inside', behind'⟩ := settled_ifElse.1 h'
      simp only [lexemes, List.append_assoc, condition_inj] at heq
      obtain ⟨rfl, hbody⟩ := heq
      obtain ⟨rfl, hbehind⟩ := ihb inside inside' (by simp [closed]) (by simp [closed']) hbody
      obtain ⟨rfl, hrest⟩ := iho behind behind' hopen hopen' (List.append_cancel_left hbehind)
      exact ⟨rfl, hrest⟩
    | _ => simp [lexemes, condition] at heq

theorem eq_of_lexemes_eq (h : s.Settled) (h' : s'.Settled) (heq : s.lexemes = s'.lexemes) :
    s = s' := by
  have hend : ¬ otherwise <+: [] := by simp [otherwise]
  exact (s.told h h' (fun _ => hend) (fun _ => hend) (by rw [heq])).1

/-- **The same text** is the same as the same reading. -/
theorem textOf_eq_iff :
    Lexeme.textOf s.lexemes = Lexeme.textOf s'.lexemes ↔ s.settle = s'.settle := by
  constructor
  · intro htext
    refine eq_of_lexemes_eq s.settled_settle s'.settled_settle ?_
    rw [lexemes_settle, lexemes_settle]
    exact Lexeme.eq_of_textOf_eq s.separated_lexemes s'.separated_lexemes htext
  · intro hsettle
    rw [← lexemes_settle s, hsettle, lexemes_settle]

end Clause

/-! ### Statements in trees -/

namespace Tree

open Lexeme (textOf)

variable {tree tree' : Tree} {id id' cond body other : NodeId} {s s' : Clause}

/-- **The code at the id is the statement.** -/
inductive IsClause (tree : Tree) : NodeId → Clause → Prop where
  | run {id value : NodeId} {n : Identifier} (here : tree.kind? id = some (.stmt (.expr value)))
      (name : tree.IsTerm value (.name n)) : IsClause tree id (.run n)
  | block {id : NodeId} {ids : List NodeId} {stmts : List Clause}
      (here : tree.kind? id = some (.stmt (.block ids))) (count : ids.length = stmts.length)
      (each : ∀ pair ∈ ids.zip stmts, IsClause tree pair.1 pair.2) : IsClause tree id (.block stmts)
  | ifThen {id test branch : NodeId} {cond : Identifier} {body : Clause}
      (here : tree.kind? id = some (.stmt (.branch (some test) (some branch) none)))
      (name : tree.IsTerm test (.name cond)) (inside : IsClause tree branch body) :
      IsClause tree id (.ifThen cond body)
  | ifElse {id test branch last : NodeId} {cond : Identifier} {body other : Clause}
      (here : tree.kind? id = some (.stmt (.branch (some test) (some branch) (some last))))
      (name : tree.IsTerm test (.name cond)) (inside : IsClause tree branch body)
      (behind : IsClause tree last other) : IsClause tree id (.ifElse cond body other)

theorem IsClause.grounded (h : tree.IsClause id s) : tree.Grounded id := by
  induction h with
  | run here name => exact .layer here (by simpa [Kind.children, Stmt.children] using name.grounded)
  | block here count _ ih =>
    exact .layer here (by simpa [Kind.children, Stmt.children] using grounded_of_zip count ih)
  | ifThen here name _ ih =>
    exact .layer here (by simpa [Kind.children, Stmt.children] using ⟨name.grounded, ih⟩)
  | ifElse here name _ _ ihb iho =>
    exact .layer here (by simpa [Kind.children, Stmt.children] using ⟨name.grounded, ihb, iho⟩)

section Layers

variable {bound bound' bound'' : Option Nat} {test part part' : String}

theorem Prints.branch (hg : tree.Grounded id)
    (hkind : tree.kind? id = some (.stmt (.branch (some cond) (some body) none)))
    (hcond : tree.Prints cond bound test) (hbody : tree.Prints body bound' part) :
    tree.Prints id none ("if (" ++ test ++ ") " ++ part) := by
  have hlayer := Prints.layer hg hkind
    (by simpa [Kind.children, Stmt.children] using ⟨⟨_, _, hcond⟩, ⟨_, _, hbody⟩⟩)
    (by simp [Kind.vars, Stmt.vars]) rfl
  simpa [Layout.Command.flat, Kind.expr?, Fragment.orMissing, hcond.flat_eq, hbody.flat_eq,
    String.append_assoc] using hlayer

theorem Prints.branchElse (hg : tree.Grounded id)
    (hkind : tree.kind? id = some (.stmt (.branch (some cond) (some body) (some other))))
    (hcond : tree.Prints cond bound test) (hbody : tree.Prints body bound' part)
    (hother : tree.Prints other bound'' part') :
    tree.Prints id none ("if (" ++ test ++ ") " ++ part ++ " else " ++ part') := by
  have hlayer := Prints.layer hg hkind
    (by simpa [Kind.children, Stmt.children] using ⟨⟨_, _, hcond⟩, ⟨_, _, hbody⟩, ⟨_, _, hother⟩⟩)
    (by simp [Kind.vars, Stmt.vars]) rfl
  simpa [Layout.Command.flat, Kind.expr?, Fragment.orMissing, hcond.flat_eq, hbody.flat_eq,
    hother.flat_eq, String.append_assoc] using hlayer

end Layers

/-- **A statement prints its lexemes.** -/
theorem IsClause.prints (h : tree.IsClause id s) : tree.Prints id none (textOf s.lexemes) := by
  have hg := h.grounded
  induction h with
  | run here name =>
    -- layer by layer: what is printed is what the lexemes spell
    exact (Prints.exprStmt hg here name.prints).of_eq
      (by simp [Clause.lexemes, Term.lexemes, Clause.Mark.spelling])
  | block here count each ih =>
    have hstmts := printsAll_of_zip (fun _ => none) (fun stmt => textOf stmt.lexemes) count
      fun pair hpair => ih pair hpair (each pair hpair).grounded
    exact (Prints.block hg here hstmts).of_eq (Clause.textOf_block _).symm
  | ifThen here name inside ih =>
    exact (Prints.branch hg here name.prints (ih inside.grounded)).of_eq
      (by simp [Clause.lexemes, Clause.textOf_condition, Term.lexemes])
  | ifElse here name inside behind ihb iho =>
    exact (Prints.branchElse hg here name.prints (ihb inside.grounded) (iho behind.grounded)).of_eq
      (by simp [Clause.lexemes, Clause.textOf_condition, Clause.textOf_otherwise, Term.lexemes,
        String.append_assoc])

/-- **Printed statements are told apart** as far as they are read alike. Settled ones are told
apart. -/
theorem IsClause.text_eq_iff (h : tree.IsClause id s) (h' : tree'.IsClause id' s') :
    ∃ text text', tree.text id = .ok text ∧ tree'.text id' = .ok text' ∧
      (text = text' ↔ s.settle = s'.settle) ∧ (s.Settled → s'.Settled → text = text' → s = s') := by
  refine ⟨_, _, h.prints.text_eq, h'.prints.text_eq, Clause.textOf_eq_iff, fun hs hs' htext => ?_⟩
  exact Clause.eq_of_lexemes_eq hs hs'
    (Lexeme.eq_of_textOf_eq s.separated_lexemes s'.separated_lexemes htext)

end Tree

/-- The same condition in three ways: an `else` of the outer `if`, one of the inner `if`, and one of
the outer `if` with the inner one in braces. -/
def danglingElse : Tree where
  nodes := #[
    ⟨.expr (.name "a" none), some ⟨7⟩, Tree.placeOf 0⟩,
    ⟨.expr (.name "b" none), some ⟨4⟩, Tree.placeOf 1⟩,
    ⟨.expr (.name "x" none), some ⟨3⟩, Tree.placeOf 2⟩,
    ⟨.stmt (.expr ⟨2⟩), some ⟨4⟩, Tree.placeOf 3⟩,
    ⟨.stmt (.branch (some ⟨1⟩) (some ⟨3⟩) none), some ⟨7⟩, Tree.placeOf 4⟩,
    ⟨.expr (.name "y" none), some ⟨6⟩, Tree.placeOf 5⟩,
    ⟨.stmt (.expr ⟨5⟩), some ⟨7⟩, Tree.placeOf 6⟩,
    ⟨.stmt (.branch (some ⟨0⟩) (some ⟨4⟩) (some ⟨6⟩)), some ⟨25⟩, Tree.placeOf 7⟩,
    ⟨.expr (.name "a" none), some ⟨15⟩, Tree.placeOf 8⟩,
    ⟨.expr (.name "b" none), some ⟨14⟩, Tree.placeOf 9⟩,
    ⟨.expr (.name "x" none), some ⟨11⟩, Tree.placeOf 10⟩,
    ⟨.stmt (.expr ⟨10⟩), some ⟨14⟩, Tree.placeOf 11⟩,
    ⟨.expr (.name "y" none), some ⟨13⟩, Tree.placeOf 12⟩,
    ⟨.stmt (.expr ⟨12⟩), some ⟨14⟩, Tree.placeOf 13⟩,
    ⟨.stmt (.branch (some ⟨9⟩) (some ⟨11⟩) (some ⟨13⟩)), some ⟨15⟩, Tree.placeOf 14⟩,
    ⟨.stmt (.branch (some ⟨8⟩) (some ⟨14⟩) none), some ⟨25⟩, Tree.placeOf 15⟩,
    ⟨.expr (.name "a" none), some ⟨24⟩, Tree.placeOf 16⟩,
    ⟨.expr (.name "b" none), some ⟨20⟩, Tree.placeOf 17⟩,
    ⟨.expr (.name "x" none), some ⟨19⟩, Tree.placeOf 18⟩,
    ⟨.stmt (.expr ⟨18⟩), some ⟨20⟩, Tree.placeOf 19⟩,
    ⟨.stmt (.branch (some ⟨17⟩) (some ⟨19⟩) none), some ⟨21⟩, Tree.placeOf 20⟩,
    ⟨.stmt (.block [⟨20⟩]), some ⟨24⟩, Tree.placeOf 21⟩,
    ⟨.expr (.name "y" none), some ⟨23⟩, Tree.placeOf 22⟩,
    ⟨.stmt (.expr ⟨22⟩), some ⟨24⟩, Tree.placeOf 23⟩,
    ⟨.stmt (.branch (some ⟨16⟩) (some ⟨21⟩) (some ⟨23⟩)), some ⟨25⟩, Tree.placeOf 24⟩,
    ⟨.stmt (.block [⟨7⟩, ⟨15⟩, ⟨24⟩]), none, Tree.placeOf 25⟩]
  vars := #[]
  root := ⟨25⟩
  scope := .inStatic "Sample"
  revision := 0

/-- `if (b) x;`. -/
def innerIf : Clause := .ifThen .b (.run ⟨"x", by decide +kernel⟩)

/-- `y;`. -/
def runY : Clause := .run ⟨"y", by decide +kernel⟩

/-- The `else` of the outer `if`. -/
def outerElse : Clause := .ifElse .a innerIf runY

/-- The `else` of the inner `if`. -/
def innerElse : Clause := .ifThen .a (innerIf.takeElse runY)

/-- The `else` of the outer `if`, with braces around the inner one. -/
def bracedElse : Clause := .ifElse .a (.block [innerIf]) runY

theorem isClause_danglingElse :
    danglingElse.IsClause ⟨7⟩ outerElse ∧ danglingElse.IsClause ⟨15⟩ innerElse ∧
    danglingElse.IsClause ⟨24⟩ bracedElse := by
  refine ⟨?_, ?_, ?_⟩
  · exact .ifElse rfl (.name rfl) (.ifThen rfl (.name rfl) (.run rfl (.name rfl)))
      (.run rfl (.name rfl))
  · exact .ifThen rfl (.name rfl)
      (.ifElse rfl (.name rfl) (.run rfl (.name rfl)) (.run rfl (.name rfl)))
  · refine .ifElse rfl (.name rfl) (.block rfl rfl fun pair hpair => ?_) (.run rfl (.name rfl))
    obtain rfl := List.mem_singleton.1 hpair
    exact .ifThen rfl (.name rfl) (.run rfl (.name rfl))

/-- The first two have the same text, and the braces tell the third one from them. -/
theorem text_danglingElse : danglingElse.text ⟨7⟩ = danglingElse.text ⟨15⟩ ∧
    danglingElse.text ⟨15⟩ ≠ danglingElse.text ⟨24⟩ := by
  obtain ⟨houter, hinner, hbraced⟩ := isClause_danglingElse
  constructor
  · obtain ⟨text, text', htext, htext', hiff, -⟩ := Tree.IsClause.text_eq_iff houter hinner
    rw [htext, htext', hiff.2 rfl]
  · obtain ⟨text, text', htext, htext', -, hsettled⟩ := Tree.IsClause.text_eq_iff hinner hbraced
    -- in each of these two, every `else` belongs to the nearest `if` without one
    have hs : innerElse.Settled := .ifThen (.ifElse rfl .run .run)
    have hs' : bracedElse.Settled := .ifElse rfl (.block fun stmt hstmt => by
      obtain rfl := List.mem_singleton.1 hstmt
      exact .ifThen .run) .run
    rw [htext, htext']
    exact fun hsame => nomatch hsettled hs hs' (Except.ok.inj hsame)

/-- **An else may read back as belonging to another if.** -/
theorem danglingElse_ambiguous :
    danglingElse.IsClause ⟨7⟩ outerElse ∧ danglingElse.IsClause ⟨15⟩ innerElse ∧
    danglingElse.text ⟨7⟩ = .ok "if (a) if (b) x; else y;" ∧
    danglingElse.text ⟨15⟩ = .ok "if (a) if (b) x; else y;" ∧ outerElse ≠ innerElse :=
  ⟨isClause_danglingElse.1, isClause_danglingElse.2.1, by cbv, by cbv, nofun⟩

end LoopToStream
