import LoopToStream.Proofs.Loop.Scoping
import LoopToStream.Proofs.Pipeline.Around
import LoopToStream.Proofs.Tree.Mentions

/-!
# Pipelines that bind the parameter

The code of a loop that its pipeline links outside of literals of the parameter does not mention the
parameter, if the loop has it for itself (`Planned.not_mentions_bare`). There is a reason for each
sort of such code: the source stands beside the body, a receiver in front of `::` keeps its value,
what is added to is the same each time, and a collection is supplied by a creation without
arguments.

New code links nothing else outside of such literals (`Installed.encloses`), so that the parameter
is not free in it (`Planned.not_free_replacement`).
-/

namespace LoopToStream

namespace Forwarding

variable {analyzer : Analyzer} {tree : Tree} {param var : VarId} {id place receiver q : NodeId}
  {method : String} {isStatic : Bool} {signature : Signature} {c : Call NodeId}

theorem ne_of_keepsValue
    (h : keepsValue analyzer tree param place var = .ok true) : var ≠ param := by
  rintro rfl
  simp [keepsValue] at h

/-- A receiver is written in front of `::` if it is a variable that keeps its value, or a field of
`this`. -/
theorem not_mentions_of_boundQualifier?
    (h : boundQualifier? analyzer tree param isStatic receiver = .ok (some (.expr q))) :
    ¬ tree.Mentions param q := by
  -- what keeps its value is not the parameter
  have hkept : ∀ {v : VarId}, (do
      if isStatic then return none
      return if ← keepsValue analyzer tree param receiver v then some (.expr receiver)
        else none : Lookup (Option Qualifier)) = .ok (some (.expr q)) →
            q = receiver ∧ v ≠ param := by
    intro v h
    cases isStatic with
    | true => cases h
    | false =>
      obtain ⟨keeps, hkeeps, h⟩ := bind_eq_ok.1 h
      cases keeps with
      | false => cases h
      | true =>
        cases h
        exact ⟨rfl, ne_of_keepsValue hkeeps⟩
  unfold boundQualifier? at h
  cases hreceiver : tree.expr? receiver with
  | none => simp [hreceiver] at h
  | some e =>
    have hkind := Tree.expr?_eq_some.1 hreceiver
    rw [hreceiver] at h
    intro hmentions
    cases e with
    | name n v =>
      cases v with
      | none => cases h
      | some v =>
        obtain ⟨rfl, hne⟩ := hkept h
        rw [Tree.mentions_iff, hreceiver, Tree.parts_eq_children hkind] at hmentions
        have heq : v = param := by simpa [Expr.var?, Kind.children, Expr.children] using hmentions
        exact hne heq
    | field owner n v =>
      cases v with
      | none => cases h
      | some v =>
        dsimp only at h
        cases howner : tree.expr? owner with
        | none => cases isStatic <;> simp [howner] at h
        | some e =>
          cases e with
          | thisRef =>
            rw [howner] at h
            simp only [Bool.not_true, Bool.or_false] at h
            obtain ⟨rfl, hne⟩ := hkept h
            have hno : ¬ tree.Mentions param owner := by
              rw [Tree.mentions_iff_of_expr (Tree.expr?_eq_some.1 howner) rfl]
              simp [Expr.children]
            rw [Tree.mentions_iff, hreceiver, Tree.parts_eq_children hkind] at hmentions
            have heq : v = param := by
              simpa [Expr.var?, Kind.children, Expr.children, hno] using hmentions
            exact hne heq
          | _ => cases isStatic <;> simp [howner] at h
    | _ => cases isStatic <;> simp at h

/-- Of the qualifiers for a call, only one that is bound refers to code. -/
theorem not_mentions_of_callQualifier?
    (h : callQualifier? analyzer tree param signature c = .ok (some (.expr q))) :
    ¬ tree.Mentions param q := by
  obtain ⟨receiver, method, args, target⟩ := c
  unfold callQualifier? at h
  match args, receiver with
  | [arg], none =>
    dsimp only at h
    -- without a receiver there is `this` or a class in front
    split at h
    · cases h
    · split at h
      · cases h
      · split at h <;> cases h
  | [arg], some receiver =>
    dsimp only at h
    cases hparam : isParam tree param arg with
    | false => simp [hparam] at h
    | true =>
      simp only [hparam, Bool.not_true, Bool.false_eq_true, if_false] at h
      exact not_mentions_of_boundQualifier? h
  | [], some receiver =>
    dsimp only at h
    split at h
    · cases h
    · -- a method of the element has its class in front
      obtain ⟨x, -, h⟩ := bind_eq_ok.1 h
      cases h
  | [], none => cases h
  | _ :: _ :: _, none => cases h
  | _ :: _ :: _, some _ => cases h

/-- **What stands in front of `::`** does not mention the parameter. -/
theorem not_mentions_of_reduce?
    (h : reduce? analyzer tree param id = .ok (some (.methodRef (.expr q) method))) :
    ¬ tree.Mentions param q := by
  unfold reduce? at h
  dsimp only at h
  cases hresolved : analyzer.symbols.resolve? tree (tree.skipParens id) with
  | none => simp [hresolved] at h
  | some signature =>
    simp only [hresolved] at h
    split at h
    · next c hcall =>
      obtain ⟨answer, hanswer, h⟩ := bind_eq_ok.1 h
      obtain ⟨qualifier, rfl, heq⟩ := Option.map_eq_some_iff.1 (Except.ok.inj h)
      cases heq
      exact not_mentions_of_callQualifier? hanswer
    · next type arg target hcreate =>
      cases hparam : isParam tree param arg <;> simp [hparam] at h
    · cases h

end Forwarding

namespace Pipeline

variable {analyzer : Analyzer} {tree next : Tree} {candidate : Candidate} {ending : Ending}
  {plan : Pipeline} {style : CollectorStyle} {typed : Bool} {replacement a c part : NodeId}
  {param : VarId} {value action : NodeId} {mapper : Option StageFunction} {function : StageFunction}

/-! ### The bare parts -/

theorem Maps.not_mentions_bare (h : Maps analyzer tree param value mapper) :
    ∀ part ∈ mapper.toList.flatMap StageFunction.bare, ¬ tree.Mentions param part := by
  intro part hpart
  cases h with
  | element is_param => cases hpart
  | literal not_param => cases hpart
  | @reference qualifier method not_param answer form =>
    cases qualifier with
    | expr q =>
      obtain rfl : part = q := by simpa [StageFunction.bare, Qualifier.kept] using hpart
      exact Forwarding.not_mentions_of_reduce? answer
    | _ => cases hpart

theorem Runs.not_mentions_bare (h : Runs analyzer tree param action function) :
    ∀ part ∈ function.bare, ¬ tree.Mentions param part := by
  intro part hpart
  cases h with
  | @reference value qualifier method here answer form =>
    cases qualifier with
    | expr q =>
      obtain rfl : part = q := by simpa [StageFunction.bare, Qualifier.kept] using hpart
      exact Forwarding.not_mentions_of_reduce? answer
    | _ => cases hpart
  | _ => cases hpart

namespace Planned

variable (h : Planned analyzer tree candidate ending plan)
  (hown : tree.Owns candidate.loop ⟨candidate.param, some candidate.source, some candidate.body⟩)
include h hown

/-- The source is not in the body. -/
theorem not_mentions_source : ¬ tree.Mentions candidate.param candidate.source := by
  rintro ⟨n, hn, hrefers⟩
  have hwf := h.wellFormed
  have hparts := h.found.parts_eq
  have hattached := (h.found.source_attached h.attached).reaches hn
  obtain ⟨body, hbody, hreach⟩ := hown.refers n hattached hrefers
  obtain rfl := Option.some.inj hbody
  have honce := hwf.linkedOnce.once candidate.loop h.attached
  rw [hparts] at honce
  have hne : candidate.source ≠ candidate.body := fun heq => by simp [heq] at honce
  exact hwf.linkedOnce.siblings_disjoint h.attached (by simp [hparts]) (by simp [hparts]) hne
    hn hreach

/-- **No bare part mentions the parameter.** -/
theorem not_mentions_bare :
    ∀ part ∈ bareParts candidate ending, ¬ tree.Mentions candidate.param part := by
  intro part hpart
  rw [bareParts, List.cons_append, List.mem_cons, List.mem_append] at hpart
  -- the source is run through before the parameter is bound
  rcases hpart with rfl | hpart
  · exact h.not_mentions_source hown
  cases h.ends with
  | performed action function_runs =>
    rcases hpart with hpart | hpart
    · cases hpart
    · exact function_runs.not_mentions_bare part hpart
  | @gathered accumulation mapper terminal fold action found mapper_maps gathers =>
    rcases hpart with hpart | hpart
    · exact mapper_maps.not_mentions_bare part hpart
    cases gathers with
    | appended =>
      -- a receiver is steady, and a supplier creates an empty collection
      exact found.not_mentions (Option.mem_toList.1 hpart) h.wellFormed h.attached hown rfl
        (h.found.guarded h.wellFormed h.attached)
    | folded target site =>
      cases site with
      | declared up_attached block here creation =>
        exact not_mentions_collectorFor creation hpart candidate.param

end Planned

/-! ### New code -/

/-- What is linked as it is, bare or in a literal. -/
theorem bareParts_subset : bareParts candidate ending ⊆ linkedParts candidate ending := by
  -- a literal keeps more than it links bare
  have hbare : ∀ f : StageFunction, f.bare ⊆ f.kept := by
    intro f c hc
    cases f with
    | methodRef q method => exact hc
    | lambda p body => cases hc
  intro part hpart
  simp only [bareParts, linkedParts, tail, List.cons_append, List.mem_cons,
    List.mem_append] at hpart ⊢
  rcases hpart with rfl | hpart | hpart
  · exact .inl rfl
  · obtain ⟨f, hf, hpart⟩ := List.mem_flatMap.1 hpart
    exact .inr (.inr (.inl (List.mem_flatMap.2 ⟨f, hf, hbare f hpart⟩)))
  · refine .inr (.inr (.inr ?_))
    cases hterminal : ending.terminal with
    | forEach f =>
      rw [hterminal] at hpart
      exact hbare f hpart
    | collect collector => simpa [hterminal, Terminal.bare, Terminal.kept] using hpart
    | addAll receiver => simpa [hterminal, Terminal.bare, Terminal.kept] using hpart

/-- **The parameter is not free in new code.** By induction on the code, for each sort of layers
that new code is made of. Blocks are looked at where they are linked. -/
theorem Installed.not_free (h : Installed tree style candidate ending typed replacement next)
    (hbare : ∀ part ∈ bareParts candidate ending, ¬ next.Mentions candidate.param part)
    (ha : next.Attached a) (hnew : tree.size ≤ a.index)
    (hno : ∀ stmts, next.kind? a ≠ some (.stmt (.block stmts))) :
    ¬ next.Free candidate.param a := by
  have hg := h.wellFormed.grounded ha
  induction hg with
  | @layer a kind here below ih =>
    intro hfree
    have hparts := Tree.parts_eq_children here
    cases h.encloses a kind hnew here with
    | literal =>
      -- such a literal binds the parameter, and is no reference itself
      cases hfree with
      | here refers => simp [Tree.expr?_eq_some.2 here, Expr.var?] at refers
      | part not_binds mem free => exact not_binds ⟨_, _, _, here, List.mem_singleton_self _⟩
    | @supplier explicitTypes body mem =>
      cases hfree with
      | here refers => simp [Tree.expr?_eq_some.2 here, Expr.var?] at refers
      | @part _ c not_binds hc free =>
        obtain rfl : c = body := by simpa [hparts, Kind.children, Expr.children] using hc
        exact hbare c mem free.mentions
    | wrapper => exact hno _ here
    | behind new => exact hno _ here
    | layer silent undeclared slots links =>
      cases hfree with
      | here refers =>
        rw [Tree.expr?, here, Option.bind_some, silent] at refers
        cases refers
      | @part _ c not_binds hc free =>
        have hc' : c ∈ kind.children := hparts ▸ hc
        rcases links c hc' with hmem | hcnew
        · exact hbare c hmem free.mentions
        · -- a part is an expression, and no block
          obtain ⟨slot, hslot⟩ : ∃ slot, (slot, c) ∈ kind.slots := by
            rw [← Kind.map_slots] at hc'
            obtain ⟨⟨slot, d⟩, hslot, rfl⟩ := List.mem_map.1 hc'
            exact ⟨slot, hslot⟩
          obtain rfl : slot = .expression := slots _ hslot
          obtain ⟨kind', hkind', hadmits⟩ := h.wellFormed.fits a kind ha here _ c hslot
          refine ih c hc' (ha.of_mem hc) hcnew (fun stmts hblock => ?_) free
          obtain rfl := Option.some.inj (hkind'.symm.trans hblock)
          cases hadmits

namespace Planned

variable (h : Planned analyzer tree candidate ending plan)
include h

/-- A comment that is saved is still the comment that it was. -/
theorem not_free_comment {v : VarId} (hextends : Extends candidate.param tree next)
    (hc : c ∈ savedComments tree candidate ending) : ¬ next.Free v c := by
  obtain ⟨hreach, hcomment, -⟩ := mem_savedComments.1 hc
  obtain ⟨text, htext⟩ := Option.isSome_iff_exists.1 hcomment
  have hlt := h.wellFormed.lt_size ((h.found.body_attached h.attached).reaches hreach)
  have hafter := Tree.comment_congr (hextends.outline_eq c hlt) (Tree.comment?_eq_some.1 htext)
  intro hfree
  rcases Tree.mentions_iff.1 hfree.mentions with hrefers | ⟨d, hd, -⟩
  · rw [Tree.expr?, hafter] at hrefers
    cases hrefers
  · simp [Tree.parts_eq_children hafter, Kind.children] at hd

variable
    (hown : tree.Owns candidate.loop ⟨candidate.param, some candidate.source, some candidate.body⟩)
  (hinstalled : Installed tree style candidate ending typed replacement next)
include hown hinstalled

/-- What is linked as it is mentions what it mentioned. -/
theorem not_mentions_bare_next :
    ∀ part ∈ bareParts candidate ending, ¬ next.Mentions candidate.param part := by
  intro part hpart
  have hlinked := bareParts_subset hpart
  have hg := h.wellFormed.grounded (h.linkedParts_attached part hlinked)
  rw [(hinstalled.keeps part hlinked).2.mentions_iff hg]
  exact h.not_mentions_bare hown part hpart

/-- **The parameter is not free in what takes the place of the loop.** -/
theorem not_free_replacement (hextends : Extends candidate.param tree next) :
    ¬ next.Free candidate.param replacement := by
  have hbare := h.not_mentions_bare_next hown hinstalled
  have hattached := hinstalled.attached
  cases hfold : ending.fold with
  | some fold =>
    -- a declaration with another initial value
    obtain ⟨_, _, _, _, _, _, _, haction, -, -, -⟩ := h.ends.exists_place hfold
    have hmem : fold.declaration ∈ foldedInto ending.fold := mem_foldedInto.2 ⟨fold, hfold, rfl⟩
    have heq := hinstalled.folded_eq _ hmem
    obtain ⟨collected, chain, -, -, hdeclares⟩ := hinstalled.collects (by
      simp [Candidate.kind, haction, LoopAction.kind])
    obtain ⟨v, init, -, hafter⟩ := hdeclares fold hfold
    have hnew := hinstalled.initial_new _ (heq ▸ hmem) v collected hafter
    intro hfree
    cases hfree with
    | here refers =>
      rw [Tree.expr?, hafter] at refers
      cases refers
    | @part _ c not_binds hc free =>
      obtain rfl : c = collected := by
        simpa [Tree.parts_eq_children hafter, Kind.children, Stmt.children] using hc
      -- the initial value is an expression, and no block
      obtain ⟨kind, hkind, hadmits⟩ := hinstalled.wellFormed.fits replacement _ hattached hafter
        .expression c (by simp [Kind.slots, Stmt.slots])
      refine hinstalled.not_free hbare (hattached.of_mem hc) hnew (fun stmts hblock => ?_) free
      obtain rfl := Option.some.inj (hkind.symm.trans hblock)
      cases hadmits
  | none =>
    -- a statement, alone or behind comments
    obtain ⟨room, stmt, call, -, hstands, hstmt, hnew⟩ := hinstalled.stands hfold
    have hno : ∀ stmts, next.kind? stmt ≠ some (.stmt (.block stmts)) := fun stmts hblock => by
      rw [hstmt] at hblock
      cases hblock
    cases hstands with
    | alone room => exact hinstalled.not_free hbare hattached hnew hno
    | together no_room here =>
      intro hfree
      have hparts := Tree.parts_eq_children here
      cases hfree with
      | here refers =>
        rw [Tree.expr?, here] at refers
        cases refers
      | @part _ c not_binds hc free =>
        rw [hparts] at hc
        rcases List.mem_append.1 hc with hc | hc
        · exact h.not_free_comment hextends hc free
        · obtain rfl := List.mem_singleton.1 hc
          have hcomments : savedComments tree candidate ending ≠ [] :=
            fun hnil => no_room (.inr hnil)
          have hstmtNew := (hinstalled.encloses replacement _ hnew here).of_block hcomments
          have hmem : c ∈ next.parts replacement := by simp [hparts, Kind.children, Stmt.children]
          exact hinstalled.not_free hbare (hattached.of_mem hmem) hstmtNew hno free

end Planned

end Pipeline

end LoopToStream
