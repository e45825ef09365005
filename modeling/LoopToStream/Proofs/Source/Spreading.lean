import LoopToStream.Proofs.Source.Lines

/-!
# Spreading over lines

`Tree.source_lines` says what the line width and the choice of several lines or one come to: the
same lines, put together in one way or another. They are indented by the blocks that are open in the
tree, and no line end comes from anywhere else.

The breaks of a layer are those of its parts, with the ones of a block in addition, and so is its
code. Of each sort of statement and of expression there is one case to be looked at (`Stmt.laid`,
`Expr.laid`), by putting together what the layer writes itself and the code of its parts.
`Kind.laid` is all that the induction over a tree needs to know about them
(`Tree.laid_of_fragment`).

What is printed is finite, as the bounded reading of a tree only comes to an end on finite code
(`Tree.grounded_of_bottomUpWithin`). So nothing has to be assumed of a tree but that its texts are
lines.
-/

namespace LoopToStream

open Layout (Command Lines lines)

variable {α : Type} {print : α → Fragment} {part : Nat → α → List Break} {breaks : Nat → List Break}

/-! ### Parts of layers -/

namespace Laid

variable {f : Fragment}

theorem operand (least : Nat) (h : Laid f.code breaks) : Laid (f.operand least) breaks := by
  unfold Fragment.operand
  split
  · exact (h.append_text (by decide)).write (by decide)
  · exact h

theorem orMissing (o : Option α)
    (h : ∀ a ∈ o.toList, Laid (print a).code fun around => part around a) :
    Laid (Fragment.orMissing (o.map print)) fun around => o.toList.flatMap (part around) := by
  cases o with
  | none => exact single (by decide)
  | some a => simpa [Fragment.orMissing] using h a (by simp)

theorem intercalate {separator : String} (hseparator : IsLine separator) (l : List α)
    (h : ∀ a ∈ l, Laid (print a).code fun around => part around a) :
    Laid (List.intercalate [.write separator] (l.map fun a => (print a).code)) fun around =>
      l.flatMap (part around) := by
  induction l with
  | nil => exact nil
  | cons a l ih =>
    obtain ⟨ha, hl⟩ := List.forall_mem_cons.1 h
    cases l with
    | nil => simpa using ha
    | cons b l =>
      rw [List.map_cons, List.map_cons, List.intercalate_cons_cons]
      exact (ha.append_text hseparator).append (ih hl)

theorem arguments (l : List α) (h : ∀ a ∈ l, Laid (print a).code fun around => part around a) :
    Laid (Fragment.arguments (l.map print)) fun around => l.flatMap (part around) := by
  have hlist := intercalate (by decide : IsLine ", ") l h
  have hcode : Fragment.arguments (l.map print) =
      .write "(" ::
        (List.intercalate [.write ", "] (l.map fun a => (print a).code) ++ [.write ")"]) := by
    simp [Fragment.arguments, Function.comp_def]
  rw [hcode]
  exact (hlist.append_text (by decide)).write (by decide)

end Laid

/-! ### Layers -/

theorem isLine_jumpText {keyword : String} {label : Option String} (hkeyword : IsLine keyword)
    (h : ∀ text ∈ label.toList, IsLine text) : IsLine (jumpText keyword label) := by
  cases label with
  | none => simpa [jumpText] using ⟨hkeyword, by decide⟩
  | some label => simpa [jumpText] using ⟨⟨hkeyword, by decide, h label (by simp)⟩, by decide⟩

theorem isLine_parameterText (explicitTypes : Bool) {params : List Variable}
    (h : ∀ v ∈ params, v.InLine) :
    IsLine (parameterText explicitTypes params) := by
  have hdeclared : ∀ v : Variable, v.InLine → IsLine (v.type.text ++ " " ++ v.name) := fun v hv =>
    isLine_append.2 ⟨isLine_append.2 ⟨hv.type_text, by decide⟩, hv.1⟩
  unfold parameterText
  split
  · -- a single parameter without its type needs no parentheses
    next v =>
    have hv := h v (by simp)
    split
    · simp only [isLine_append]
      exact ⟨⟨⟨⟨by decide, hv.type_text⟩, by decide⟩, hv.1⟩, by decide⟩
    · exact hv.1
  · refine isLine_append.2 ⟨isLine_append.2 ⟨by decide, isLine_intercalate (by decide) ?_⟩,
      by decide⟩
    intro text hmem
    obtain ⟨v, hv, rfl⟩ := List.mem_map.1 hmem
    split
    · exact hdeclared v (h v hv)
    · exact (h v hv).1

section Layers

variable {var : VarId → Lookup Variable} (hvar : ∀ v x, var v = .ok x → x.InLine)
    {code : List Command}
include hvar

/-- The handlers of a `try`, one behind the other. -/
theorem Laid.handlers (handlers : List (Catch α)) {codes : List (List Command)}
    (htypes : ∀ handler ∈ handlers, ∀ name ∈ handler.types.flatMap ClassType.names, IsLine name)
    (hbodies : ∀ handler ∈ handlers, Laid (print handler.body).code fun around =>
      part around handler.body)
    (hcodes : (handlers.map fun c => (⟨c.var, c.types, print c.body⟩ : Catch Fragment)).mapM
      (fun handler => do
      let v ← var handler.var
      let types := " | ".intercalate (handler.types.map ClassType.text)
      return Command.write (" catch (" ++ types ++ " " ++ v.name ++ ") ") :: handler.body.code) =
        .ok codes) :
    Laid codes.flatten fun around => handlers.flatMap fun handler => part around handler.body := by
  induction handlers generalizing codes with
  | nil =>
    cases hcodes
    exact nil
  | cons handler handlers ih =>
    obtain ⟨hnames, htypes⟩ := List.forall_mem_cons.1 htypes
    obtain ⟨hbody, hbodies⟩ := List.forall_mem_cons.1 hbodies
    rw [List.map_cons, List.mapM_cons] at hcodes
    -- the first handler is the text with its types, and then its body
    obtain ⟨first, hfirst, hcodes⟩ := bind_eq_ok.1 hcodes
    obtain ⟨rest, hrest, hcodes⟩ := bind_eq_ok.1 hcodes
    obtain ⟨x, hx, hfirst⟩ := bind_eq_ok.1 hfirst
    cases hfirst
    cases hcodes
    have htext :
        IsLine (" catch (" ++ " | ".intercalate (handler.types.map ClassType.text) ++ " " ++
          x.name ++ ") ") := by
      -- the alternatives are names, with bars between them
      have hintercalated : IsLine (" | ".intercalate (handler.types.map ClassType.text)) := by
        refine isLine_intercalate (by decide) fun text hmem => ?_
        obtain ⟨type, htype, rfl⟩ := List.mem_map.1 hmem
        exact type.isLine_text fun name hname =>
          hnames name (List.mem_flatMap.2 ⟨type, htype, hname⟩)
      simp only [isLine_append]
      exact ⟨⟨⟨⟨by decide, hintercalated⟩, by decide⟩, (hvar _ x hx).1⟩, by decide⟩
    exact (hbody.write htext).append (ih htypes hbodies hrest)

theorem Stmt.laid {s : Stmt α} (htexts : ∀ text ∈ s.texts, IsLine text)
    (hparts : ∀ c ∈ s.children, Laid (print c).code fun around => part around c)
    (hcode : (s.map print).layout var = .ok code) :
    Laid code fun around => (Kind.stmt s).breaks part around := by
  cases s with
  | block stmts =>
    cases stmts with
    | nil =>
      cases hcode
      exact .single (by decide)
    | cons first rest =>
      cases hcode
      -- each statement is on a line of its own, and so is the closing brace
      have hlist := Laid.flatMap (first :: rest) fun c hc => (hparts c hc).newline
      have hblock := hlist.block.write (by decide : IsLine "\x7b")
      simpa [Kind.breaks, List.flatMap_map] using hblock
  | expr value =>
    cases hcode
    have hvalue := hparts value (by simp [children])
    simpa [Kind.breaks, Kind.children, children] using hvalue.append_text (by decide : IsLine ";")
  | declare v init =>
    obtain ⟨x, hx, hcode⟩ := bind_eq_ok.1 hcode
    have hdeclared := hvar v x hx
    -- the variable is written with its type, whether it has a value or not
    have htext : IsLine ((if x.isFinal then "final " else "") ++ x.type.text ++ " " ++ x.name) := by
      simp only [isLine_append]
      exact ⟨⟨⟨by split <;> decide, hdeclared.type_text⟩, by decide⟩, hdeclared.1⟩
    cases init with
    | none =>
      cases hcode
      exact .single (isLine_append.2 ⟨htext, by decide⟩)
    | some value =>
      cases hcode
      have hvalue := (hparts value (by simp [children])).append_text (by decide : IsLine ";")
      simpa [Kind.breaks, Kind.children,
        children] using hvalue.write (isLine_append.2 ⟨htext, by decide⟩)
  | branch cond thenBranch elseBranch =>
    cases hcode
    have hcond := Laid.orMissing cond fun c hc => hparts c (by simp_all [children])
    have hthen := Laid.orMissing thenBranch fun c hc => hparts c (by simp_all [children])
    -- the code is put together from its end, since text goes in front
    cases elseBranch with
    | none =>
      have hbranch := hcond.append (hthen.write (by decide : IsLine ") "))
      simpa [Kind.breaks, Kind.children, children] using hbranch.write (by decide : IsLine "if (")
    | some other =>
      have helse := (hparts other (by simp [children])).write (by decide : IsLine " else ")
      have hbranches := (hthen.append helse).write (by decide : IsLine ") ")
      have hbranch := (hcond.append hbranches).write (by decide : IsLine "if (")
      simpa [Kind.breaks, Kind.children, children] using hbranch
  | forEach loop =>
    obtain ⟨v, iterated, body⟩ := loop
    obtain ⟨x, hx, hcode⟩ := bind_eq_ok.1 hcode
    cases hcode
    have hdeclared := hvar v x hx
    have hiterated := Laid.orMissing iterated fun c hc => hparts c (by simp_all [children])
    have hbody := Laid.orMissing body fun c hc => hparts c (by simp_all [children])
    -- the parameter is written with its type
    have htext : IsLine ("for (" ++ x.type.text ++ " " ++ x.name ++ " : ") := by
      simp only [isLine_append]
      exact ⟨⟨⟨⟨by decide, hdeclared.type_text⟩, by decide⟩, hdeclared.1⟩, by decide⟩
    have hrest := hiterated.append (hbody.write (by decide : IsLine ") "))
    simpa [Kind.breaks, Kind.children, children] using hrest.write htext
  | whileLoop cond body =>
    cases hcode
    have hcond := hparts cond (by simp [children])
    have hbody := (hparts body (by simp [children])).write (by decide : IsLine ") ")
    simpa [Kind.breaks, Kind.children, children] using (hcond.append hbody).write
      (by decide : IsLine "while (")
  | labeled label body =>
    cases hcode
    have hbody := hparts body (by simp [children])
    have hlabel : IsLine (label ++ ": ") :=
      isLine_append.2 ⟨htexts label (by simp [texts]), by decide⟩
    simpa [Kind.breaks, Kind.children, children] using hbody.write hlabel
  | breakTo label =>
    cases hcode
    exact .single (isLine_jumpText (by decide) htexts)
  | continueTo label =>
    cases hcode
    exact .single (isLine_jumpText (by decide) htexts)
  | giveBack value =>
    cases value with
    | none =>
      cases hcode
      exact .single (by decide)
    | some value =>
      cases hcode
      have hvalue := (hparts value (by simp [children])).append_text (by decide : IsLine ";")
      simpa [Kind.breaks, Kind.children, children] using hvalue.write (by decide : IsLine "return ")
  | throwValue value =>
    cases hcode
    have hvalue := (hparts value (by simp [children])).append_text (by decide : IsLine ";")
    simpa [Kind.breaks, Kind.children, children] using hvalue.write (by decide : IsLine "throw ")
  | tryCatch body handlers =>
    obtain ⟨codes, hcodes, hcode⟩ := bind_eq_ok.1 hcode
    cases hcode
    have hbody := hparts body (by simp [children])
    -- each body is a part of its own, and what is in front of it is text
    have hhandlers := Laid.handlers hvar handlers (fun handler hmem name hname => htexts name <| by
      simp only [texts, List.mem_flatMap]
      exact ⟨handler, hmem, List.mem_flatMap.1 hname⟩) (fun handler hmem => hparts handler.body (by
        simpa [children] using .inr ⟨handler, hmem, rfl⟩)) hcodes
    simpa [Kind.breaks, Kind.children, children, List.flatMap_map] using
      (hbody.append hhandlers).write (by decide : IsLine "try ")
  | empty =>
    cases hcode
    exact .single (by decide)

omit hvar in
theorem isLine_binaryOp (op : BinaryOp) : IsLine op.text := by
  cases op <;> decide

omit hvar in
theorem isLine_unaryOp (op : UnaryOp) : IsLine op.text := by
  cases op <;> decide

theorem Expr.laid {e : Expr α} (htexts : ∀ text ∈ e.texts, IsLine text)
    (hparts : ∀ c ∈ e.children, Laid (print c).code fun around => part around c)
    (hcode : (e.map print).layout var = .ok code) :
    Laid code fun around => (Kind.expr e).breaks part around := by
  -- parentheses stand on the lines of what they are around
  have hoperand :
      ∀ c ∈ e.children, ∀ least, Laid ((print c).operand least) fun around => part around c :=
    fun c hc least => (hparts c hc).operand least
  cases e with
  | literal value =>
    cases hcode
    exact .single (isLine_literal value)
  | name n v =>
    cases hcode
    exact .single (htexts n (by simp [texts]))
  | typeName type =>
    cases hcode
    exact .single (type.isLine_text htexts)
  | thisRef =>
    cases hcode
    exact .single (by decide)
  | superRef =>
    cases hcode
    exact .single (by decide)
  | field receiver n v =>
    cases hcode
    have hname : IsLine ("." ++ n) := isLine_append.2 ⟨by decide, htexts n (by simp [texts])⟩
    have hreceiver := hoperand receiver (by simp [children]) 15
    simpa [Kind.breaks, Kind.children, children] using hreceiver.append_text hname
  | call c =>
    obtain ⟨receiver, method, args, target⟩ := c
    cases hcode
    have hargs := (Laid.arguments args fun c hc => hparts c (by simp [children, hc])).write
      (htexts method (by simp [texts]))
    cases receiver with
    | none => simpa [Kind.breaks, Kind.children, children] using hargs
    | some receiver =>
      have hreceiver :=
        (hoperand receiver (by simp [children]) 15).append_text (by decide : IsLine ".")
      simpa [Kind.breaks, Kind.children, children] using hreceiver.append hargs
  | create c =>
    obtain ⟨type, args, target⟩ := c
    cases hcode
    have htype : IsLine ("new " ++ type.text) :=
      isLine_append.2 ⟨by decide, type.isLine_text htexts⟩
    exact (Laid.arguments args hparts).write htype
  | binary op lhs rhs =>
    cases hcode
    have hop : IsLine (" " ++ op.text ++ " ") := by
      simpa using ⟨⟨by decide, isLine_binaryOp op⟩, by decide⟩
    have hlhs := hoperand lhs (by simp [children]) op.precedence
    have hrhs := hoperand rhs (by simp [children]) (op.precedence + 1)
    simpa [Kind.breaks, Kind.children, children] using hlhs.append (hrhs.write hop)
  | unary op operand =>
    have hpart := hoperand operand (by simp [children]) op.precedence
    have hop := isLine_unaryOp op
    simp only [map, layout] at hcode
    -- the operator stands behind its operand or in front of it
    split at hcode
    · cases hcode
      simpa [Kind.breaks, Kind.children, children] using hpart.append_text hop
    · cases hcode
      simpa [Kind.breaks, Kind.children, children] using hpart.write hop
  | assign op target value =>
    cases hcode
    have hop : IsLine (" " ++ (op.map BinaryOp.text).getD "" ++ "= ") := by
      -- an operator in front of the `=` is on the line as well
      have hcompound : IsLine ((op.map BinaryOp.text).getD "") := by
        cases op with
        | none => exact isLine_empty
        | some op => exact isLine_binaryOp op
      simpa using ⟨⟨by decide, hcompound⟩, by decide⟩
    have htarget := hoperand target (by simp [children]) 2
    have hvalue := hoperand value (by simp [children]) 1
    simpa [Kind.breaks, Kind.children, children] using htarget.append (hvalue.write hop)
  | paren inner =>
    cases hcode
    have hinner := (hparts inner (by simp [children])).append_text (by decide : IsLine ")")
    simpa [Kind.breaks, Kind.children, children] using hinner.write (by decide : IsLine "(")
  | lambda params explicitTypes body =>
    obtain ⟨xs, hxs, hcode⟩ := bind_eq_ok.1 hcode
    cases hcode
    -- the parameters are written with what their variables are declared with
    have hdeclared : ∀ x ∈ xs, x.InLine := by
      intro x hx
      obtain ⟨v, -, hv⟩ := exists_of_mem_mapM hxs x hx
      exact hvar v x hv
    have htext : IsLine (parameterText explicitTypes xs ++ " -> ") :=
      isLine_append.2 ⟨isLine_parameterText explicitTypes hdeclared, by decide⟩
    simpa [Kind.breaks, Kind.children,
      children] using (hparts body (by simp [children])).write htext
  | methodRef qualifier method =>
    cases hcode
    have hmethod : IsLine ("::" ++ method) :=
      isLine_append.2 ⟨by decide, htexts method (by simp [texts])⟩
    have hqualifier := hoperand qualifier (by simp [children]) 15
    simpa [Kind.breaks, Kind.children, children] using hqualifier.append_text hmethod

/-- **A layer has its line ends where they should be**, if its parts have. -/
theorem Kind.laid {kind : Kind α} (htexts : ∀ text ∈ kind.texts, IsLine text)
    (hparts : ∀ c ∈ kind.children, Laid (print c).code fun around => part around c)
    (hcode : (kind.map print).layout var = .ok code) :
    Laid code fun around => kind.breaks part around := by
  cases kind with
  | stmt s => exact Stmt.laid hvar htexts hparts hcode
  | expr e => exact Expr.laid hvar htexts hparts hcode
  | comment text =>
    cases hcode
    exact .single (htexts text (by simp [texts]))

end Layers

/-! ### Trees -/

/-- Running a function on the parts of a layer, one by one and in their order. -/
theorem Kind.children_mapM {α β : Type} {m : Type → Type} [Monad m] [LawfulMonad m] (f : α → m β)
    (kind : Kind α) : children <$> kind.mapM f = kind.children.mapM f := by
  have hopt : ∀ o : Option α, o.toList.mapM f = Option.toList <$> o.mapM f := by
    intro o
    cases o <;> simp
  cases kind with
  | comment text => simp [mapM, children]
  | expr e => cases e <;> simp [mapM, Expr.mapM, children, Expr.children, hopt]
  | stmt s =>
    cases s with
    | tryCatch body handlers =>
      -- the bodies of the handlers are run one by one too
      have hhandlers :
          List.map Catch.body <$> handlers.mapM (fun c => return ⟨c.var, c.types, ← f c.body⟩) =
            (handlers.map Catch.body).mapM f := by
        induction handlers with
        | nil => simp
        | cons handler handlers ih =>
          rw [List.map_cons, List.mapM_cons, List.mapM_cons, ← ih]
          simp
      simp [mapM, Stmt.mapM, children, Stmt.children, ← hhandlers]
    | _ => simp [mapM, Stmt.mapM, children, Stmt.children, hopt]

/-- What is found out about a layer is found out about each of its parts. -/
theorem Kind.exists_of_mapM_eq_ok {α β ε : Type} {f : α → Except ε β} {kind : Kind α}
    {layer : Kind β} (h : kind.mapM f = .ok layer) : ∀ c ∈ kind.children, ∃ b, f c = .ok b := by
  have hlist : kind.children.mapM f = .ok layer.children := by
    rw [← children_mapM, h]
    rfl
  intro c hc
  obtain ⟨b, -, hb⟩ := LoopToStream.exists_of_mapM_eq_ok hlist c hc
  exact ⟨b, hb⟩

namespace Tree

variable {tree : Tree} {id : NodeId} {showIds : Bool}

/-- What is read completely is finite. By induction on the steps. -/
theorem grounded_of_bottomUpWithin {β : Type} {step : NodeId → Kind β → Lookup β} {fuel : Nat}
    {answer : β} (h : tree.bottomUpWithin step fuel id = .ok answer) : tree.Grounded id := by
  induction fuel generalizing id answer with
  | zero => cases h
  | succ fuel ih =>
    rw [bottomUpWithin] at h
    obtain ⟨kind, hkind, h⟩ := bind_eq_ok.1 h
    obtain ⟨layer, hlayer, -⟩ := bind_eq_ok.1 h
    obtain ⟨node, hnode, hkind⟩ := bind_eq_ok.1 hkind
    cases hkind
    have hfound : tree.kind? id = some node.kind := by rw [kind?, tree.node_eq_ok.1 hnode]; rfl
    refine .layer hfound fun c hc => ?_
    -- each part has been read as well, with one step less
    obtain ⟨b, hb⟩ := Kind.exists_of_mapM_eq_ok hlayer c hc
    exact ih hb

theorem laid_of_fragment (hlines : tree.InLines) (hg : tree.Grounded id) {f : Fragment}
    (hfragment : tree.fragment showIds id = .ok f) :
    Laid f.code fun around => tree.breaks around id := by
  induction hg generalizing f with
  | @layer id kind here below ih =>
    have hg : tree.Grounded id := .layer here below
    have hread : tree.fragment showIds id = (do
        let layer ← kind.mapM (tree.fragment showIds)
        return ⟨layer.expr?.map Expr.precedence,
            (← layer.layout tree.var) ++ shownId showIds id⟩) :=
      hg.bottomUp_eq here
    rw [hread] at hfragment
    obtain ⟨layer, hlayer, hfragment⟩ := bind_eq_ok.1 hfragment
    obtain ⟨code, hcode, hfragment⟩ := bind_eq_ok.1 hfragment
    cases hfragment
    -- the layer is over the fragments of its parts
    have hparts := Kind.exists_of_mapM_eq_ok hlayer
    have : ∀ c, ∃ g : Fragment, c ∈ kind.children → tree.fragment showIds c = .ok g := by
      intro c
      by_cases hc : c ∈ kind.children
      · obtain ⟨g, hg⟩ := hparts c hc
        exact ⟨g, fun _ => hg⟩
      · exact ⟨⟨none, []⟩, fun h => absurd h hc⟩
    choose print hprint using this
    obtain rfl : layer = kind.map print :=
      Except.ok.inj (hlayer.symm.trans (Kind.mapM_eq_ok hprint))
    have hlaid : Laid code fun around => kind.breaks tree.breaks around :=
      Kind.laid (fun v x => hlines.inLine_var) (hlines.isLine_texts here)
        (fun c hc => ih c hc (hprint c hc)) hcode
    -- where the lines are broken is read layer by layer as well
    have hbreaks :
        (fun around => tree.breaks around id) = fun around => kind.breaks tree.breaks around :=
      funext fun around => hg.breaks_eq here around
    rw [hbreaks]
    cases showIds with
    | false => simpa [shownId] using hlaid
    | true =>
      have hid : IsLine (" /*" ++ id.text ++ "*/") :=
        isLine_append.2 ⟨isLine_append.2 ⟨by decide, isLine_nodeId id⟩, by decide⟩
      exact hlaid.append_text hid

/-- A function literal among arguments, with a comment and a call in its body. -/
def nestedBlocks : Tree where
  nodes := #[
    ⟨.comment "// note", some ⟨3⟩, placeOf 0⟩,
    ⟨.expr (.call ⟨none, "done", [], none⟩), some ⟨2⟩, placeOf 1⟩,
    ⟨.stmt (.expr ⟨1⟩), some ⟨3⟩, placeOf 2⟩,
    ⟨.stmt (.block [⟨0⟩, ⟨2⟩]), some ⟨4⟩, placeOf 3⟩,
    ⟨.expr (.lambda [⟨0⟩] false ⟨3⟩), some ⟨5⟩, placeOf 4⟩,
    ⟨.expr (.call ⟨none, "run", [⟨4⟩], none⟩), some ⟨6⟩, placeOf 5⟩,
    ⟨.stmt (.expr ⟨5⟩), some ⟨7⟩, placeOf 6⟩,
    ⟨.stmt (.block [⟨6⟩]), none, placeOf 7⟩]
  vars := #[⟨"x", .simple "String", .lambdaParameter, false⟩]
  root := ⟨7⟩
  scope := .unknown
  revision := 0

end Tree

end LoopToStream
