import LoopToStream.Proofs.Tree.Grafting
import LoopToStream.Proofs.Tree.Printing

/-!
# What is printed of a layer

On one line, all that a layer takes from its parts is their texts and how tightly they bind.
Commands that print the same may still be different ones, so code is compared by what it prints,
which is `Tree.line`. Two layers over parts with the same lines have the same line
(`WellFormed.line_congr`), whatever trees they stand in.
-/

namespace LoopToStream

open Layout (Command flat Plain)

variable {ε α β : Type}

/-! ### Fragments with their texts -/

namespace Fragment

/-- The fragment with its text in one piece. -/
def flattened (part : Fragment) : Fragment := ⟨part.binding, [.write (flat part.code)]⟩

@[simp] theorem flat_flattened (part : Fragment) : flat part.flattened.code = flat part.code := by
  simp [flattened, Command.flat]

@[simp] theorem flat_operand_flattened (least : Nat) (part : Fragment) :
    flat (part.flattened.operand least) = flat (part.operand least) := by
  rw [flat_operand, flat_operand, flat_flattened, flattened]

@[simp] theorem flat_orMissing_flattened (part : Option Fragment) :
    flat (orMissing (part.map flattened)) = flat (orMissing part) := by
  cases part with
  | none => rfl
  | some part => exact flat_flattened part

@[simp] theorem flat_arguments_flattened (args : List Fragment) :
    flat (arguments (args.map flattened)) = flat (arguments args) := by
  simp [flat_arguments, Function.comp_def]

end Fragment

section Layers

variable (var : VarId → Lookup Variable)

/-- Handlers print what their blocks print. -/
theorem Stmt.flat_handlers_flattened (handlers : List (Catch Fragment)) :
    (fun codes => flat codes.flatten) <$>
        (handlers.map fun c => (⟨c.var, c.types, c.body.flattened⟩ : Catch Fragment)).mapM
          (fun handler => do
          let v ← var handler.var
          let types := " | ".intercalate (handler.types.map ClassType.text)
          return Command.write (" catch (" ++ types ++ " " ++ v.name ++ ") ") ::
            handler.body.code) =
      (fun codes => flat codes.flatten) <$> handlers.mapM fun handler => do
        let v ← var handler.var
        let types := " | ".intercalate (handler.types.map ClassType.text)
        return Command.write (" catch (" ++ types ++ " " ++ v.name ++ ") ") ::
            handler.body.code := by
  induction handlers with
  | nil => rfl
  | cons handler handlers ih =>
    rw [List.map_cons, List.mapM_cons, List.mapM_cons]
    cases var handler.var with
    | error ref => rfl
    | ok v =>
      -- the code of the first handler is written in front of that of the others
      have hcons : ∀ (code : List Command) (rest : Lookup (List (List Command))),
          (fun codes => flat codes.flatten) <$> (do return code :: (← rest)) =
            (flat code ++ ·) <$> ((fun codes => flat codes.flatten) <$> rest) := by
        intro code rest
        cases rest <;> simp
      simp only [ok_bind, pure_bind, hcons, ih, Layout.flat_cons, Fragment.flat_flattened]

theorem Stmt.flat_layout_flattened (s : Stmt Fragment) :
    flat <$> (s.map Fragment.flattened).layout var = flat <$> s.layout var := by
  cases s with
  | block stmts =>
    cases stmts with
    | nil => rfl
    | cons first rest =>
      -- a line break is a blank on one line, and behind it is the statement
      have hitems : ∀ items : List Fragment,
          flat ((items.map Fragment.flattened).flatMap fun stmt => .newline :: stmt.code) =
            flat (items.flatMap fun stmt => .newline :: stmt.code) := by
        intro items
        induction items with
        | nil => rfl
        | cons item items ih => simp [ih]
      simp [map, layout, hitems]
  | tryCatch body handlers =>
    -- the body in front, and the handlers behind it
    have hwritten : ∀ (code : List Command) (handlers : Lookup (List (List Command))),
        flat <$> (do return .write "try " :: (code ++ (← handlers).flatten)) =
          ("try " ++ flat code ++ ·) <$> ((fun codes => flat codes.flatten) <$> handlers) := by
      intro code handlers
      cases handlers <;> simp [Command.flat, String.append_assoc]
    rw [map, layout, layout, hwritten, hwritten, flat_handlers_flattened, Fragment.flat_flattened]
  | declare v init => cases init <;> simp [map, layout]
  | branch cond thenBranch elseBranch => cases elseBranch <;> simp [map, layout]
  | giveBack value => cases value <;> simp [map, layout]
  | _ => simp [map, layout]

theorem Expr.flat_layout_flattened (e : Expr Fragment) :
    flat <$> (e.map Fragment.flattened).layout var = flat <$> e.layout var := by
  cases e with
  | call c => cases hreceiver : c.receiver <;> simp [map, layout, hreceiver]
  | unary op operand => cases hfollows : op.followsOperand <;> simp [map, layout, hfollows]
  | _ => simp [map, layout]

/-- **What a layer prints** is read off what its parts print. -/
theorem Kind.flat_layout_flattened (kind : Kind Fragment) :
    flat <$> (kind.map Fragment.flattened).layout var = flat <$> kind.layout var := by
  cases kind with
  | stmt s => exact s.flat_layout_flattened var
  | expr e => exact e.flat_layout_flattened var
  | comment text => rfl

end Layers

/-! ### Lines -/

theorem Kind.precedence_map (f : α → β) (kind : Kind α) :
    (kind.map f).expr?.map Expr.precedence = kind.expr?.map Expr.precedence := by
  cases kind with
  | expr e => cases e <;> rfl
  | _ => rfl

namespace Tree

variable {tree tree' : Tree} {n : NodeId} {kind kind' : Kind NodeId} {binding : Option Nat}
    {text : String}

/-- What is printed at an id, on one line. -/
def line (tree : Tree) (id : NodeId) : Fragment := (tree.printed id).flattened

theorem Prints.line_eq (h : tree.Prints n binding text) :
    tree.line n = ⟨binding, [.write text]⟩ := by
  rw [line, Fragment.flattened, h.binding_eq, h.flat_eq]

theorem SameBelow.line_eq (h : tree.SameBelow tree' n) (hg : tree.Grounded n)
    (hvars : tree'.vars = tree.vars) : tree'.line n = tree.line n := by
  have hvar : tree'.var = tree.var := funext fun v => by rw [var, var, hvars]
  rw [line, line, printed, printed, fragment, fragment, hvar, h.bottomUp_eq hg]

namespace WellFormed

variable (hwf : tree.WellFormed) (hwf' : tree'.WellFormed)
include hwf

theorem exists_prints (hn : tree.Attached n) :
    ∃ text, tree.Prints n ((tree.expr? n).map Expr.precedence) text :=
  Tree.exists_prints (hwf.grounded hn) hwf.vars_known

theorem text_eq_line (hn : tree.Attached n) : tree.text n = .ok (flat (tree.line n).code) := by
  obtain ⟨text, hprints⟩ := hwf.exists_prints hn
  rw [hprints.text_eq, hprints.line_eq]
  simp [Command.flat]

/-- The line of a layer is what it prints over the lines of its parts. -/
theorem line_eq (hn : tree.Attached n) (hkind : tree.kind? n = some kind) :
    ∃ text, tree.line n = ⟨(kind.map tree.line).expr?.map Expr.precedence, [.write text]⟩ ∧
      flat <$> (kind.map tree.line).layout tree.var = .ok text := by
  have hparts : ∀ c ∈ kind.children, ∃ binding text, tree.Prints c binding text := fun c hc =>
    ⟨_, hwf.exists_prints (hn.of_mem (parts_eq_children hkind ▸ hc))⟩
  have hvars : ∀ v ∈ kind.vars, ∃ x, tree.var v = .ok x := fun v hv =>
    ⟨_, tree.var_of_lt (hwf.vars_known n kind hkind v hv)⟩
  -- what is printed of the parts never moves back to the margin
  have hplain : ∀ f ∈ (kind.map tree.printed).children, Plain f.code := by
    intro f hf
    rw [Kind.children_map] at hf
    obtain ⟨c, hc, rfl⟩ := List.mem_map.1 hf
    obtain ⟨binding, text, h⟩ := hparts c hc
    exact h.plain
  obtain ⟨code, hcode, -⟩ := Kind.exists_layout (by simpa using hvars) hplain
  refine ⟨flat code, ?_, ?_⟩
  · rw [Kind.precedence_map]
    exact (Prints.layer (hwf.grounded hn) hkind hparts hvars hcode).line_eq
  · -- a line is what has been printed, made flat
    have hmap : kind.map tree.line = (kind.map tree.printed).map Fragment.flattened :=
      (Kind.map_map tree.printed Fragment.flattened kind).symm
    rw [hmap, Kind.flat_layout_flattened, hcode]
    rfl

include hwf' in
/-- **Layers over parts with the same lines have the same line.** -/
theorem line_congr (hn : tree.Attached n) (hn' : tree'.Attached n)
    (hkind : tree.kind? n = some kind) (hkind' : tree'.kind? n = some kind')
    (hvars : tree'.vars = tree.vars)
    (h : kind'.map tree'.line = kind.map tree.line) : tree'.line n = tree.line n := by
  have hvar : tree'.var = tree.var := funext fun v => by rw [var, var, hvars]
  obtain ⟨text, hline, htext⟩ := hwf.line_eq hn hkind
  obtain ⟨text', hline', htext'⟩ := hwf'.line_eq hn' hkind'
  rw [h, hvar, htext] at htext'
  rw [hline, hline', h, Except.ok.inj htext']

end WellFormed

end Tree

end LoopToStream
