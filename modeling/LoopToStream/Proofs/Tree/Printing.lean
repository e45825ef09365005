import LoopToStream.Proofs.Tree.WellFormed
import LoopToStream.Tree.Source

/-!
# Source on one line

On one line, the text of a piece of code is put together from the texts of its parts, whatever
stands around it: laying out without line ends concatenates (`Layout.render_compact`), since
nothing that is printed asks for the margin.

`Tree.Prints` is what is known about a printed piece of code: its binding strength and its text.
Every finite subtree prints (`Tree.exists_prints`), and the text of a layer follows from those of
its parts (`Prints.call`, `Prints.lambda` and so on). The layers are those that pipelines are
made of.
-/

namespace LoopToStream

open Layout (Command)

/-! ### Commands on one line -/

namespace Layout

/-- What a command writes where lines do not end. -/
def Command.flat : Command → String
  | write text => text
  | newline => " "
  | margin | indent | dedent => ""

/-- What commands write where lines do not end, one after the other. -/
def flat : List Command → String
  | [] => ""
  | command :: rest => command.flat ++ flat rest

@[simp] theorem flat_nil : flat [] = "" := rfl

@[simp] theorem flat_cons (command : Command) (rest : List Command) :
    flat (command :: rest) = command.flat ++ flat rest := rfl

@[simp] theorem flat_append (first second : List Command) :
    flat (first ++ second) = flat first ++ flat second := by
  induction first with
  | nil => simp
  | cons command first ih => simp [ih, String.append_assoc]

/-- Commands that do not ask for the margin. -/
def Plain (code : List Command) : Prop := Command.margin ∉ code

@[simp] theorem plain_nil : Plain [] := by simp [Plain]

@[simp] theorem plain_cons {command : Command} {rest : List Command} :
    Plain (command :: rest) ↔ command ≠ .margin ∧ Plain rest := by
  simp [Plain, eq_comm]

@[simp] theorem plain_append {first second : List Command} :
    Plain (first ++ second) ↔ Plain first ∧ Plain second := by
  simp [Plain]

theorem plain_nested {inner : List Command} : Plain (nested inner) ↔ Plain inner := by
  simp [nested]

@[simp] theorem flat_nested (inner : List Command) : flat (nested inner) = flat inner := by
  simp [nested, Command.flat]

/-- **Laying out on one line concatenates.** -/
theorem render_compact {code : List Command} (h : Plain code) :
    render .compact code = flat code := by
  -- without line ends and indents, a step adds the text of its command
  have hrun : ∀ (code : List Command) (state : State), Plain code →
      (state.run .compact code).text = state.text ++ flat code := by
    intro code
    induction code with
    | nil => simp
    | cons command rest ih =>
      intro state hplain
      obtain ⟨hcommand, hrest⟩ := plain_cons.1 hplain
      rw [State.run_cons, ih _ hrest, flat_cons, ← String.append_assoc]
      cases command <;> simp_all [State.step, State.added, Command.flat, Options.compact]
  rw [render, hrun code .start h]
  simp [State.start]

end Layout

open Layout (flat flat_cons flat_append flat_nested Plain)

/-! ### Layers of printed code -/

/-- Text at a place that demands a binding strength. -/
def operandText (least : Nat) (binding : Option Nat) (text : String) : String :=
  if binding.any (· < least) then "(" ++ text ++ ")" else text

theorem Fragment.flat_operand (least : Nat) (part : Fragment) :
    flat (part.operand least) = operandText least part.binding (flat part.code) := by
  unfold operand operandText
  split <;> simp [Layout.Command.flat, String.append_assoc]

theorem Fragment.plain_operand {least : Nat} {part : Fragment} (h : Plain part.code) :
    Plain (part.operand least) := by
  unfold operand
  split <;> simp [h]

theorem Fragment.plain_orMissing (part : Option Fragment) (h : ∀ f ∈ part.toList, Plain f.code) :
    Plain (orMissing part) := by
  cases part with
  | none => simp [orMissing]
  | some f => simpa [orMissing] using h f (by simp)

theorem plain_intercalate (separator : List Command) (codes : List (List Command))
    (hseparator : Plain separator) (h : ∀ code ∈ codes, Plain code) :
    Plain (separator.intercalate codes) := by
  induction codes with
  | nil => simp
  | cons code rest ih =>
    have hrest := ih fun c hc => h c (by simp [hc])
    cases rest with
    | nil => simpa using h code (by simp)
    | cons other rest =>
      rw [List.intercalate_cons_cons]
      simp [h code (by simp), hseparator, hrest]

theorem flat_intercalate (text : String) (codes : List (List Command)) :
    flat ([Command.write text].intercalate codes) = text.intercalate (codes.map flat) := by
  induction codes with
  | nil => simp
  | cons code rest ih =>
    cases rest with
    | nil => simp
    | cons other rest =>
      rw [List.intercalate_cons_cons]
      simp only [List.map_cons, String.intercalate_cons_cons] at ih ⊢
      simp [ih, Command.flat, String.append_assoc]

theorem Fragment.plain_arguments (args : List Fragment) (h : ∀ f ∈ args, Plain f.code) :
    Plain (arguments args) := by
  have hlist := plain_intercalate [.write ", "] (args.map Fragment.code)
    (by simp) (by simpa using h)
  simp [arguments, hlist]

theorem Fragment.flat_arguments (args : List Fragment) :
    flat (arguments args) =
      "(" ++ ", ".intercalate (args.map fun f => flat f.code) ++ ")" := by
  simp [arguments, flat_intercalate, Command.flat, Function.comp_def, String.append_assoc]

section Layers

variable {var : VarId → Lookup Variable}

theorem Stmt.exists_layout {s : Stmt Fragment} (hvars : ∀ v ∈ s.vars, ∃ x, var v = .ok x)
    (hparts : ∀ f ∈ s.children, Plain f.code) : ∃ code, s.layout var = .ok code ∧ Plain code := by
  cases s with
  | block stmts =>
    cases stmts with
    | nil => exact ⟨_, rfl, by simp⟩
    | cons first rest =>
      refine ⟨_, rfl, ?_⟩
      -- a line break for each statement, and none of their code moves the margin
      have hbody : Plain ((first :: rest).flatMap fun stmt => .newline :: stmt.code) := by
        rw [Plain, List.mem_flatMap]
        rintro ⟨f, hf, hmargin⟩
        exact hparts f hf (by simpa using hmargin)
      simpa using Layout.plain_nested.2 hbody
  | expr value => exact ⟨_, rfl, by simpa using hparts value (by simp [children])⟩
  -- what is written of a variable is its name and its type, which are known
  | declare v init =>
    obtain ⟨x, hx⟩ := hvars v (by simp [vars])
    cases init with
    | none => exact ⟨_, by rw [layout, hx]; rfl, by simp⟩
    | some value =>
      exact ⟨_, by rw [layout, hx]; rfl, by simpa using hparts value (by simp [children])⟩
  | branch cond thenBranch elseBranch =>
    -- a part that is missing is written as a comment
    have hcond := Fragment.plain_orMissing cond fun f hf =>
      hparts f (by simp_all [children])
    have hthen := Fragment.plain_orMissing thenBranch fun f hf =>
      hparts f (by simp_all [children])
    refine ⟨_, rfl, ?_⟩
    cases elseBranch with
    | none => simp [hcond, hthen]
    | some other => simp [hcond, hthen, hparts other (by simp [children])]
  | forEach loop =>
    obtain ⟨x, hx⟩ := hvars loop.var (by simp [vars])
    have hiterated := Fragment.plain_orMissing loop.iterated fun f hf =>
      hparts f (by simp_all [children])
    have hbody := Fragment.plain_orMissing loop.body fun f hf =>
      hparts f (by simp_all [children])
    exact ⟨_, by rw [layout, hx]; rfl, by simp [hiterated, hbody]⟩
  | whileLoop cond body =>
    exact ⟨_, rfl, by simp [hparts cond (by simp [children]), hparts body (by simp [children])]⟩
  -- from here on there is text around the parts, and nothing can be missing
  | labeled label body => exact ⟨_, rfl, by simp [hparts body (by simp [children])]⟩
  | breakTo label => exact ⟨_, rfl, by simp⟩
  | continueTo label => exact ⟨_, rfl, by simp⟩
  | giveBack value =>
    cases value with
    | none => exact ⟨_, rfl, by simp⟩
    | some value => exact ⟨_, rfl, by simp [hparts value (by simp [children])]⟩
  | throwValue value => exact ⟨_, rfl, by simp [hparts value (by simp [children])]⟩
  | tryCatch body handlers =>
    -- each handler is laid out, since its variable is known
    obtain ⟨codes, hcodes, hplain⟩ := exists_mapM_eq_ok (P := Plain) (l := handlers)
      (f := fun handler => do
        let v ← var handler.var
        let types := " | ".intercalate (handler.types.map ClassType.text)
        return Command.write (" catch (" ++ types ++ " " ++ v.name ++ ") ") :: handler.body.code)
      fun handler hmem => by
        obtain ⟨x, hx⟩ := hvars handler.var (by simpa [vars] using ⟨handler, hmem, rfl⟩)
        have hbody := hparts handler.body (by simpa [children] using .inr ⟨handler, hmem, rfl⟩)
        exact ⟨_, by rw [hx]; rfl, by simpa using hbody⟩
    refine ⟨_, by rw [layout, hcodes]; rfl, ?_⟩
    -- and one behind the other they do not move the margin either
    have hflatten : Plain codes.flatten := by
      simp only [Plain, List.mem_flatten, not_exists, not_and]
      exact fun code hcode => hplain code hcode
    simp [hparts body (by simp [children]), hflatten]
  | empty => exact ⟨_, rfl, by simp⟩

theorem Expr.exists_layout {e : Expr Fragment} (hvars : ∀ v ∈ e.vars, ∃ x, var v = .ok x)
    (hparts : ∀ f ∈ e.children, Plain f.code) : ∃ code, e.layout var = .ok code ∧ Plain code := by
  -- parentheses around an operand do not move the margin
  have hoperand : ∀ f ∈ e.children, ∀ least, Plain (f.operand least) := fun f hf _ =>
    Fragment.plain_operand (hparts f hf)
  cases e with
  | literal value => exact ⟨_, rfl, by simp⟩
  | name n v => exact ⟨_, rfl, by simp⟩
  | typeName type => exact ⟨_, rfl, by simp⟩
  | thisRef => exact ⟨_, rfl, by simp⟩
  | superRef => exact ⟨_, rfl, by simp⟩
  | field receiver n v => exact ⟨_, rfl, by simp [hoperand receiver (by simp [children])]⟩
  | call c =>
    obtain ⟨receiver, method, args, target⟩ := c
    have hargs := Fragment.plain_arguments args fun f hf => hparts f (by simp [children, hf])
    refine ⟨_, rfl, ?_⟩
    cases receiver with
    | none => simp [hargs]
    | some receiver => simp [hargs, hoperand receiver (by simp [children])]
  | create c =>
    exact ⟨_, rfl, by simp [Fragment.plain_arguments c.args fun f hf => hparts f hf]⟩
  | binary op lhs rhs =>
    exact ⟨_, rfl, by simp [hoperand lhs (by simp [children]), hoperand rhs (by simp [children])]⟩
  | unary op operand =>
    have hpart := hoperand operand (by simp [children]) op.precedence
    simp only [layout]
    -- the operator stands behind its operand or in front of it
    split
    · exact ⟨_, rfl, by simp [hpart]⟩
    · exact ⟨_, rfl, by simp [hpart]⟩
  | assign op target value =>
    exact ⟨_, rfl,
      by simp [hoperand target (by simp [children]), hoperand value (by simp [children])]⟩
  | paren inner => exact ⟨_, rfl, by simp [hparts inner (by simp [children])]⟩
  | lambda params explicitTypes body =>
    -- the parameters are known, and so are their names and types
    obtain ⟨xs, hxs, -⟩ := exists_mapM_eq_ok (P := fun _ => True) (l := params) (f := var)
      fun v hv => (hvars v hv).imp fun x hx => ⟨hx, trivial⟩
    exact ⟨_, by rw [layout, hxs]; rfl, by simp [hparts body (by simp [children])]⟩
  | methodRef qualifier method => exact ⟨_, rfl, by simp [hoperand qualifier (by simp [children])]⟩

/-- **Every layer can be printed**, from printed parts and where its variables are known. -/
theorem Kind.exists_layout {kind : Kind Fragment} (hvars : ∀ v ∈ kind.vars, ∃ x, var v = .ok x)
    (hparts : ∀ f ∈ kind.children, Plain f.code) :
    ∃ code, kind.layout var = .ok code ∧ Plain code := by
  cases kind with
  | stmt s => exact Stmt.exists_layout hvars hparts
  | expr e => exact Expr.exists_layout hvars hparts
  | comment text => exact ⟨_, rfl, by simp⟩

end Layers

/-- Running a function on the parts of a layer gives the layer of its answers. -/
theorem Kind.mapM_eq_ok {α β ε : Type} {f : α → Except ε β} {g : α → β} {kind : Kind α}
    (h : ∀ c ∈ kind.children, f c = .ok (g c)) : kind.mapM f = .ok (kind.map g) := by
  rw [mapM_congr h]
  -- on each of the ways in which a layer links parts
  have hopt : ∀ o : Option α, (o.mapM fun c => (.ok (g c) : Except ε β)) = .ok (o.map g) := by
    intro o
    cases o <;> rfl
  have hlist : ∀ l : List α, (l.mapM fun c => (.ok (g c) : Except ε β)) = .ok (l.map g) :=
    fun l => LoopToStream.mapM_eq_ok fun _ _ => rfl
  cases kind with
  | stmt s =>
    cases s with
    | tryCatch body handlers =>
      have hhandlers :
          (handlers.mapM fun c => (.ok ⟨c.var, c.types, g c.body⟩ : Except ε (Catch β))) =
            .ok (handlers.map fun c => ⟨c.var, c.types, g c.body⟩) :=
        LoopToStream.mapM_eq_ok fun _ _ => rfl
      simp [mapM, Stmt.mapM, map, Stmt.map, hhandlers]
    | _ => simp [mapM, Stmt.mapM, map, Stmt.map, hopt, hlist]
  | expr e => cases e <;> simp [mapM, Expr.mapM, map, Expr.map, hopt, hlist]
  | comment text => rfl

/-! ### Printed code -/

namespace Tree

variable {tree tree' : Tree} {id : NodeId} {kind : Kind NodeId} {binding : Option Nat}
    {text : String}

/-- The code at `id` prints as `text` on one line and binds as tightly as `binding`. -/
def Prints (tree : Tree) (id : NodeId) (binding : Option Nat) (text : String) : Prop :=
  ∃ code, tree.fragment false id = .ok ⟨binding, code⟩ ∧ Plain code ∧ flat code = text

theorem Prints.text_eq (h : tree.Prints id binding text) : tree.text id = .ok text := by
  obtain ⟨code, hcode, hplain, rfl⟩ := h
  rw [Tree.text, source, hcode]
  exact congrArg Except.ok (Layout.render_compact hplain)

/-- What follows a node if ids are shown. -/
def shownId (showIds : Bool) (id : NodeId) : List Command :=
  if showIds then [.write (" /*" ++ id.text ++ "*/")] else []

theorem plain_shownId (showIds : Bool) (id : NodeId) : Plain (shownId showIds id) := by
  cases showIds <;> simp [shownId]

/-- A layer is printed over what its parts are printed as. -/
theorem Grounded.fragment_eq {showIds : Bool} (hg : tree.Grounded id)
    (hkind : tree.kind? id = some kind) {parts : NodeId → Fragment}
    (hparts : ∀ c ∈ kind.children, tree.fragment showIds c = .ok (parts c))
    {code : List Command} (hcode : (kind.map parts).layout tree.var = .ok code) :
    tree.fragment showIds id =
      .ok ⟨kind.expr?.map Expr.precedence, code ++ shownId showIds id⟩ := by
  -- how tightly code binds depends on its layer alone
  have hbinding : (kind.map parts).expr?.map Expr.precedence = kind.expr?.map Expr.precedence := by
    cases kind with
    | expr e => cases e <;> rfl
    | _ => rfl
  have hread : tree.fragment showIds id = (do
      let layer ← kind.mapM (tree.fragment showIds)
      return ⟨layer.expr?.map Expr.precedence, (← layer.layout tree.var) ++ shownId showIds id⟩) :=
    hg.bottomUp_eq hkind
  rw [hread, Kind.mapM_eq_ok hparts, ok_bind, hcode, hbinding]
  rfl

/-- **Every finite subtree is laid out**, where its variables are known. -/
theorem exists_fragment (showIds : Bool) (hg : tree.Grounded id)
    (hvars : ∀ id kind, tree.kind? id = some kind → ∀ v ∈ kind.vars, v.index < tree.vars.size) :
    ∃ code, tree.fragment showIds id = .ok ⟨(tree.expr? id).map Expr.precedence, code⟩ ∧
      Plain code := by
  induction hg with
  | @layer a kind here below ih =>
    have : ∀ c, ∃ f : Fragment, c ∈ kind.children →
        tree.fragment showIds c = .ok f ∧ Plain f.code := by
      intro c
      by_cases hc : c ∈ kind.children
      · obtain ⟨code, hcode, hplain⟩ := ih c hc
        exact ⟨_, fun _ => ⟨hcode, hplain⟩⟩
      · exact ⟨⟨none, []⟩, fun h => absurd h hc⟩
    -- the parts are laid out, and the layer is laid out over them
    choose parts hparts using this
    -- its variables are those of the layer in the tree
    have hknown : ∀ v ∈ (kind.map parts).vars, ∃ x, tree.var v = .ok x := fun v hv =>
      ⟨_, tree.var_of_lt (hvars a kind here v (by simpa using hv))⟩
    have hplain : ∀ f ∈ (kind.map parts).children, Plain f.code := by
      intro f hf
      rw [Kind.children_map] at hf
      obtain ⟨c, hc, rfl⟩ := List.mem_map.1 hf
      exact (hparts c hc).2
    obtain ⟨code, hcode, hplain⟩ := Kind.exists_layout hknown hplain
    refine ⟨code ++ shownId showIds a, ?_, Layout.plain_append.2 ⟨hplain, plain_shownId _ _⟩⟩
    rw [(Grounded.layer here below).fragment_eq here (fun c hc => (hparts c hc).1) hcode,
      expr?, here]
    rfl

/-- However it is laid out, it has a text. -/
theorem exists_source (options : Layout.Options) (showIds : Bool) (hg : tree.Grounded id)
    (hvars : ∀ id kind, tree.kind? id = some kind → ∀ v ∈ kind.vars, v.index < tree.vars.size) :
    ∃ text, tree.source options showIds id = .ok text := by
  obtain ⟨code, hcode, -⟩ := exists_fragment showIds hg hvars
  exact ⟨Layout.render options code, by rw [source, hcode]; rfl⟩

/-- **Every finite subtree prints**, where its variables are known. -/
theorem exists_prints (hg : tree.Grounded id)
    (hvars : ∀ id kind, tree.kind? id = some kind → ∀ v ∈ kind.vars, v.index < tree.vars.size) :
    ∃ text, tree.Prints id ((tree.expr? id).map Expr.precedence) text := by
  obtain ⟨code, hcode, hplain⟩ := exists_fragment false hg hvars
  exact ⟨Layout.flat code, code, hcode, hplain, rfl⟩

/-! ### The text of a layer -/

/-- What is printed at `id`, if anything is. -/
def printed (tree : Tree) (id : NodeId) : Fragment :=
  match tree.fragment false id with
  | .ok part => part
  | .error _ => ⟨none, []⟩

theorem Prints.fragment_eq (h : tree.Prints id binding text) :
    tree.fragment false id = .ok (tree.printed id) := by
  obtain ⟨code, hcode, -, -⟩ := h
  simp [printed, hcode]

theorem Prints.binding_eq (h : tree.Prints id binding text) :
    (tree.printed id).binding = binding := by
  obtain ⟨code, hcode, -, -⟩ := h
  simp [printed, hcode]

theorem Prints.flat_eq (h : tree.Prints id binding text) :
    flat (tree.printed id).code = text := by
  obtain ⟨code, hcode, -, htext⟩ := h
  simp [printed, hcode, htext]

theorem Prints.plain (h : tree.Prints id binding text) : Plain (tree.printed id).code := by
  obtain ⟨code, hcode, hplain, -⟩ := h
  simpa [printed, hcode] using hplain

theorem Prints.flat_operand (h : tree.Prints id binding text) (least : Nat) :
    flat ((tree.printed id).operand least) = operandText least binding text := by
  rw [Fragment.flat_operand, h.binding_eq, h.flat_eq]

/-- **The text of a layer** is what its layout writes over its printed parts. -/
theorem Prints.layer (hg : tree.Grounded id) (hkind : tree.kind? id = some kind)
    (hparts : ∀ c ∈ kind.children, ∃ binding text, tree.Prints c binding text)
    (hvars : ∀ v ∈ kind.vars, ∃ x, tree.var v = .ok x) {code : List Command}
    (hcode : (kind.map tree.printed).layout tree.var = .ok code) :
    tree.Prints id (kind.expr?.map Expr.precedence) (flat code) := by
  refine ⟨code, (hg.fragment_eq hkind (fun c hc => ?_) hcode).trans (by simp [shownId]), ?_, rfl⟩
  · obtain ⟨binding, text, h⟩ := hparts c hc
    exact h.fragment_eq
  · -- a layer writes no line ends but those that its layout has on several lines
    have hplain : ∀ f ∈ (kind.map tree.printed).children, Plain f.code := by
      intro f hf
      rw [Kind.children_map] at hf
      obtain ⟨c, hc, rfl⟩ := List.mem_map.1 hf
      obtain ⟨binding, text, h⟩ := hparts c hc
      exact h.plain
    obtain ⟨code', hcode', hplain⟩ := Kind.exists_layout (by simpa using hvars) hplain
    rw [hcode] at hcode'
    cases hcode'
    exact hplain

section

variable {inner receiver body : NodeId} {args : List NodeId} {texts : List String} {method : String}
  {target : Option MethodId} {bound : Option Nat} {part : String}

theorem Prints.typeName {type : ClassType} (hg : tree.Grounded id)
    (hkind : tree.kind? id = some (.expr (.typeName type))) :
    tree.Prints id (some 15) type.text := by
  have h := Prints.layer hg hkind (by simp [Kind.children, Expr.children])
    (by simp [Kind.vars, Expr.vars]) rfl
  simpa [Layout.Command.flat, Kind.expr?, Expr.precedence] using h

theorem Prints.thisRef (hg : tree.Grounded id) (hkind : tree.kind? id = some (.expr .thisRef)) :
    tree.Prints id (some 15) "this" := by
  have h := Prints.layer hg hkind (by simp [Kind.children, Expr.children])
    (by simp [Kind.vars, Expr.vars]) rfl
  simpa [Layout.Command.flat, Kind.expr?, Expr.precedence] using h

theorem Prints.superRef (hg : tree.Grounded id) (hkind : tree.kind? id = some (.expr .superRef)) :
    tree.Prints id (some 15) "super" := by
  have h := Prints.layer hg hkind (by simp [Kind.children, Expr.children])
    (by simp [Kind.vars, Expr.vars]) rfl
  simpa [Layout.Command.flat, Kind.expr?, Expr.precedence] using h

theorem Prints.paren (hg : tree.Grounded id) (hkind : tree.kind? id = some (.expr (.paren inner)))
    (h : tree.Prints inner bound part) : tree.Prints id (some 15) ("(" ++ part ++ ")") := by
  have hlayer := Prints.layer hg hkind (by simpa [Kind.children, Expr.children] using ⟨_, _, h⟩)
    (by simp [Kind.vars, Expr.vars]) rfl
  simpa [Layout.Command.flat, Kind.expr?, Expr.precedence, h.flat_eq,
    String.append_assoc] using hlayer

theorem Prints.methodRef (hg : tree.Grounded id)
    (hkind : tree.kind? id = some (.expr (.methodRef receiver method)))
    (h : tree.Prints receiver bound part) :
    tree.Prints id (some 15) (operandText 15 bound part ++ "::" ++ method) := by
  have hlayer := Prints.layer hg hkind (by simpa [Kind.children, Expr.children] using ⟨_, _, h⟩)
    (by simp [Kind.vars, Expr.vars]) rfl
  simpa [Layout.Command.flat, Kind.expr?, Expr.precedence, h.flat_operand, String.append_assoc]
    using hlayer

/-- The texts of some arguments. -/
def PrintsAll (tree : Tree) (args : List NodeId) (texts : List String) : Prop :=
  List.Forall₂ (fun arg text => ∃ binding, tree.Prints arg binding text) args texts

theorem PrintsAll.flat_eq (h : tree.PrintsAll args texts) :
    (args.map fun arg => flat (tree.printed arg).code) = texts := by
  induction h with
  | nil => rfl
  | cons harg _ ih =>
    obtain ⟨binding, harg⟩ := harg
    rw [List.map_cons, harg.flat_eq, ih]

theorem PrintsAll.prints (h : tree.PrintsAll args texts) :
    ∀ arg ∈ args, ∃ binding text, tree.Prints arg binding text := by
  induction h with
  | nil => simp
  | cons harg _ ih =>
    obtain ⟨binding, harg⟩ := harg
    simpa using ⟨⟨binding, _, harg⟩, ih⟩

/-- Arguments in parentheses. -/
def argumentsText (texts : List String) : String := "(" ++ ", ".intercalate texts ++ ")"

theorem PrintsAll.flat_arguments (h : tree.PrintsAll args texts) :
    flat (Fragment.arguments (args.map tree.printed)) = argumentsText texts := by
  rw [Fragment.flat_arguments, List.map_map, argumentsText, ← h.flat_eq]
  rfl

theorem Prints.call (hg : tree.Grounded id)
    (hkind : tree.kind? id = some (.expr (.call ⟨some receiver, method, args, target⟩)))
    (h : tree.Prints receiver bound part) (hargs : tree.PrintsAll args texts) :
    tree.Prints id (some 15)
      (operandText 15 bound part ++ "." ++ method ++ argumentsText texts) := by
  have hlayer := Prints.layer hg hkind
    (by simpa [Kind.children, Expr.children] using ⟨⟨_, _, h⟩, hargs.prints⟩)
    (by simp [Kind.vars, Expr.vars]) rfl
  simpa [Layout.Command.flat, Kind.expr?, Expr.precedence, h.flat_operand, hargs.flat_arguments,
    String.append_assoc] using hlayer

theorem Prints.callUnqualified (hg : tree.Grounded id)
    (hkind : tree.kind? id = some (.expr (.call ⟨none, method, args, target⟩)))
    (hargs : tree.PrintsAll args texts) :
    tree.Prints id (some 15) (method ++ argumentsText texts) := by
  have hlayer := Prints.layer hg hkind (by simpa [Kind.children, Expr.children] using hargs.prints)
    (by simp [Kind.vars, Expr.vars]) rfl
  simpa [Layout.Command.flat, Kind.expr?, Expr.precedence, hargs.flat_arguments] using hlayer

theorem Prints.lambda {params : List VarId} {explicitTypes : Bool} {xs : List Variable}
    (hg : tree.Grounded id)
    (hkind : tree.kind? id = some (.expr (.lambda params explicitTypes body)))
    (hparams : params.mapM tree.var = .ok xs) (h : tree.Prints body bound part) :
    tree.Prints id (some 0) (parameterText explicitTypes xs ++ " -> " ++ part) := by
  have hlayer := Prints.layer hg hkind (by simpa [Kind.children, Expr.children] using ⟨_, _, h⟩)
    (by simpa [Kind.vars, Expr.vars] using fun v hv =>
      (exists_of_mapM_eq_ok hparams v hv).imp fun _ hvar => hvar.2)
    (by rw [Kind.map, Expr.map, Kind.layout, Expr.layout, hparams]; rfl)
  simpa [Layout.Command.flat, Kind.expr?, Expr.precedence, h.flat_eq,
    String.append_assoc] using hlayer

theorem Prints.exprStmt (hg : tree.Grounded id) (hkind : tree.kind? id = some (.stmt (.expr inner)))
    (h : tree.Prints inner bound part) : tree.Prints id none (part ++ ";") := by
  have hlayer := Prints.layer hg hkind (by simpa [Kind.children, Stmt.children] using ⟨_, _, h⟩)
    (by simp [Kind.vars, Stmt.vars]) rfl
  simpa [Layout.Command.flat, Kind.expr?, h.flat_eq] using hlayer

/-- Statements between braces. -/
def blockText : List String → String
  | [] => "\x7b\x7d"
  | texts => "\x7b" ++ String.join (texts.map (" " ++ ·)) ++ " \x7d"

theorem Prints.block (hg : tree.Grounded id) (hkind : tree.kind? id = some (.stmt (.block args)))
    (hargs : tree.PrintsAll args texts) : tree.Prints id none (blockText texts) := by
  -- on one line there is a blank in front of each statement
  have hitems : ∀ items : List NodeId,
      flat ((items.map tree.printed).flatMap fun stmt => .newline :: stmt.code) =
        String.join ((items.map fun item => flat (tree.printed item).code).map (" " ++ ·)) := by
    intro items
    induction items with
    | nil => rfl
    | cons first rest ih => simp [ih, Layout.Command.flat, String.append_assoc]
  have htexts := hargs.flat_eq
  cases args with
  | nil =>
    have hlayer := Prints.layer hg hkind (by simp [Kind.children, Stmt.children])
      (by simp [Kind.vars, Stmt.vars]) rfl
    obtain rfl : texts = [] := by simpa using htexts.symm
    simpa [Layout.Command.flat, Kind.expr?, blockText] using hlayer
  | cons first rest =>
    have hlayer :=
      Prints.layer hg hkind (by simpa [Kind.children, Stmt.children] using hargs.prints)
      (by simp [Kind.vars, Stmt.vars]) rfl
    obtain ⟨text, texts, rfl⟩ : ∃ text texts', texts = text :: texts' :=
      ⟨_, _, htexts.symm.trans List.map_cons⟩
    have hflat := hitems (first :: rest)
    rw [htexts] at hflat
    rw [flat_cons, flat_append, flat_nested, hflat] at hlayer
    simpa [Layout.Command.flat, Kind.expr?, blockText, String.append_assoc] using hlayer

/-- A local declaration with an initial value. -/
theorem Prints.declare {v : VarId} {x : Variable} (hg : tree.Grounded id)
    (hkind : tree.kind? id = some (.stmt (.declare v (some inner)))) (hv : tree.var v = .ok x)
    (h : tree.Prints inner bound part) :
    tree.Prints id none
      ((if x.isFinal then "final " else "") ++ x.type.text ++ " " ++ x.name ++ " = " ++ part ++
        ";") := by
  have hlayer := Prints.layer hg hkind (by simpa [Kind.children, Stmt.children] using ⟨_, _, h⟩)
    (by simpa [Kind.vars, Stmt.vars] using ⟨x, hv⟩)
    (by rw [Kind.map, Stmt.map, Option.map_some, Kind.layout, Stmt.layout, hv]; rfl)
  simpa [Layout.Command.flat, Kind.expr?, h.flat_eq, String.append_assoc] using hlayer

end

/-- What prints, prints the same in trees that agree on it. -/
theorem Prints.congr (h : tree.Prints id binding text) (hg : tree.Grounded id)
    (hsame : tree.SameBelow tree' id) (hvars : tree'.vars = tree.vars) :
    tree'.Prints id binding text := by
  obtain ⟨code, hcode, hplain, rfl⟩ := h
  refine ⟨code, ?_, hplain, rfl⟩
  have hvar : tree'.var = tree.var := funext fun v => by rw [var, var, hvars]
  rw [fragment] at hcode ⊢
  rw [hvar, hsame.bottomUp_eq hg, hcode]

theorem PrintsAll.congr {ids : List NodeId} {texts : List String} (h : tree.PrintsAll ids texts)
    (hsame : ∀ c ∈ ids, tree.Grounded c ∧ tree.SameBelow tree' c) (hvars : tree'.vars = tree.vars) :
    tree'.PrintsAll ids texts := by
  induction h with
  | nil => exact .nil
  | @cons id text ids texts hid _ ih =>
    obtain ⟨binding, hid⟩ := hid
    obtain ⟨hg, hbelow⟩ := hsame id (by simp)
    exact .cons ⟨binding, hid.congr hg hbelow hvars⟩ (ih fun c hc => hsame c (by simp [hc]))

theorem PrintsAll.append {ids ids' : List NodeId} {texts texts' : List String}
    (h : tree.PrintsAll ids texts) (h' : tree.PrintsAll ids' texts') :
    tree.PrintsAll (ids ++ ids') (texts ++ texts') :=
  List.rel_append h h'

end Tree

end LoopToStream
