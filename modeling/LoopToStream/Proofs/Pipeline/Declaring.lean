import LoopToStream.Proofs.Pipeline.Installing
import LoopToStream.Proofs.Tree.Relinking

/-!
# What a pipeline declares

New code declares no variable but the one that the loop has declared: function literals are made
over the parameter of the loop, and over nothing (`Pipeline.Enclosed.declares`).
`Pipeline.extends_of_install` says what it comes to when a plan has been carried out.
-/

namespace LoopToStream

namespace Pipeline

variable {options : Options} {tree next : Tree} {plan : Pipeline}
  {param : VarId} {symbols : Symbols} {outcome : Outcome}

/-! ### Code that declares a parameter at most -/

/-- The staged nodes declare the parameter at most. -/
def Declares (param : VarId) (edit : Edit) : Prop :=
  ∀ node ∈ edit.staged.toList, ∀ v, Tree.declares v node.kind = true → v = param

/-- This is what is staged for a plan. -/
theorem Enclosed.declares {known : Nat} {parts : List NodeId} {edit : Edit}
    (h : Enclosed known param parts edit) : Declares param edit :=
  fun node hnode _ hv => (h.encloses node hnode).eq_of_declares hv

/-! ### What is there afterwards -/

/-- **A tree with more code in it**, in the same scope. What was there stands where it stood and is
what it was, apart from its parts, and new code declares the parameter at most. -/
structure Extends (param : VarId) (tree next : Tree) : Prop where
  scope_eq : next.scope = tree.scope
  span_eq : ∀ n : NodeId, n.index < tree.size → next.span n = tree.span n
  outline_eq : ∀ n : NodeId, n.index < tree.size → next.outline? n = tree.outline? n
  declares_new : ∀ (n : NodeId) v, tree.size ≤ n.index →
    (next.kind? n).any (Tree.declares v) = true → v = param

theorem Extends.trans {mid : Tree} (h : Extends param tree mid) (h' : Extends param mid next)
    (hsize : tree.size ≤ mid.size) : Extends param tree next where
  scope_eq := h'.scope_eq.trans h.scope_eq
  span_eq n hn := (h'.span_eq n (hn.trans_le hsize)).trans (h.span_eq n hn)
  outline_eq n hn := (h'.outline_eq n (hn.trans_le hsize)).trans (h.outline_eq n hn)
  declares_new n v hn hv := by
    by_cases hmid : n.index < mid.size
    · exact h.declares_new n v hn ((Tree.any_declares_congr (h'.outline_eq n hmid) v).symm.trans hv)
    · exact h'.declares_new n v (Nat.le_of_not_lt hmid) hv

theorem extends_of_commit {edit : Edit} (h : tree.commit edit = .ok next)
    (hdeclares : Declares param edit) : Extends param tree next where
  scope_eq := (Edit.relinks_of_commit h).scope_eq
  span_eq _ hn := Edit.span_of_commit h hn
  outline_eq n hn := by
    rw [(Edit.relinks_of_commit h).outline_eq, Tree.outline?, Tree.outline?,
      (edit.grows_atop tree).kind?_eq n hn]
  declares_new n v hn hv := by
    rw [Tree.any_declares_congr ((Edit.relinks_of_commit h).outline_eq n)] at hv
    -- the outline of a new node is that of the layer that was staged
    cases hkind : (edit.atop tree).kind? n with
    | none => simp [hkind] at hv
    | some kind =>
      obtain ⟨node, hnode, rfl⟩ := Edit.mem_staged_of_kind? hn hkind
      exact hdeclares node hnode v (by simpa [hkind] using hv)

/-- The second change has been made, or there was none to be made. -/
theorem disambiguate_eq_ok {call : NodeId} {typed : Bool}
    (h : disambiguate symbols plan call tree = .ok typed next) :
    (typed = false ∧ next = tree) ∨
      typed = true ∧ ∃ f edit, explicitly tree plan f = .ok edit ∧ tree.commit edit = .ok next := by
  rw [disambiguate, TreeChange.bind_of_ok TreeChange.get_eq] at h
  -- nothing is done where `forEach` is unambiguous, or where its argument is no literal
  split at h
  · cases h
    exact .inl ⟨rfl, rfl⟩
  · cases hf : (tree.call? call).bind (·.args.head?) with
    | none =>
      simp only [hf] at h
      obtain ⟨place, -, h⟩ := bind_eq_ok.1 (TreeChange.ofAttempt_eq_ok.1 h).1
      exact absurd h refuse_ne_ok
    | some f =>
      simp only [hf] at h
      split at h
      · cases h
        exact .inl ⟨rfl, rfl⟩
      · -- the literal is one that could be read in two ways: an edit is staged and committed
        obtain ⟨edit, mid, hattempt, h⟩ := TreeChange.bind_eq_ok.1 h
        obtain ⟨hedit, rfl⟩ := TreeChange.ofAttempt_eq_ok.1 hattempt
        obtain ⟨⟨⟩, last, hcommit, h⟩ := TreeChange.bind_eq_ok.1 h
        cases h
        exact .inr ⟨rfl, f, edit, hedit, TreeChange.commit_eq_ok hcommit⟩

/-- **A plan that has been carried out** has taken one commit, or two. -/
theorem install_eq_ok (h : plan.install symbols options tree = .ok outcome next) :
    ∃ place staged edit mid,
      stagePlan options tree place plan (Edit.start tree) = .ok (staged, edit) ∧
      tree.commit edit = .ok mid ∧ outcome.revision = next.revision ∧
      ((outcome.explicitLambda = false ∧ next = mid) ∨ outcome.explicitLambda = true ∧
        ∃ f edit, explicitly mid plan f = .ok edit ∧ mid.commit edit = .ok next) := by
  rw [install, TreeChange.bind_of_ok TreeChange.get_eq] at h
  dsimp only at h
  split at h
  · -- a loop that is gone has no place to report at
    obtain ⟨⟨⟩, mid, h, -⟩ := TreeChange.bind_eq_ok.1 h
    obtain ⟨place, -, h⟩ := bind_eq_ok.1 (TreeChange.ofAttempt_eq_ok.1 h).1
    exact absurd h refuse_ne_ok
  · -- the place, the plan staged, the commit, in that order
    obtain ⟨place, mid, hspan, h⟩ := TreeChange.bind_eq_ok.1 h
    obtain ⟨-, rfl⟩ := TreeChange.ofAttempt_eq_ok.1 hspan
    obtain ⟨⟨staged, edit⟩, mid, hstage, h⟩ := TreeChange.bind_eq_ok.1 h
    obtain ⟨hstaged, rfl⟩ := TreeChange.ofAttempt_eq_ok.1 hstage
    obtain ⟨⟨⟩, mid, hcommit, h⟩ := TreeChange.bind_eq_ok.1 h
    refine ⟨place, staged, edit, mid, hstaged, TreeChange.commit_eq_ok hcommit, ?_⟩
    cases hcall : staged.terminalCall with
    | none =>
      rw [hcall] at h
      cases h
      exact ⟨rfl, .inl ⟨rfl, rfl⟩⟩
    | some call =>
      rw [hcall] at h
      dsimp only at h
      -- a call at the end may get a second change
      obtain ⟨typed, last, htyped, h⟩ := TreeChange.bind_eq_ok.1 h
      cases h
      exact ⟨rfl, disambiguate_eq_ok htyped⟩

/-- **What carrying out a plan declares** is the parameter of the plan. -/
theorem extends_of_install (hbinds : plan.Binds)
    (h : plan.install symbols options tree = .ok outcome next) : Extends plan.param tree next := by
  obtain ⟨place, staged, edit, mid, hstaged, hcommit, -, hlast⟩ := install_eq_ok h
  have henclosed := Enclosed.stagePlan hbinds _ _ _ hstaged (.start le_rfl)
  have hmid := extends_of_commit hcommit henclosed.declares
  rcases hlast with ⟨-, rfl⟩ | ⟨-, f, edit', hedit, hcommit'⟩
  · exact hmid
  · -- the second edit is staged on the tree that the first one left
    have hparts : Enclosed mid.size plan.param [] edit' := .explicitly hedit le_rfl
    refine hmid.trans (extends_of_commit hcommit' hparts.declares) ?_
    rw [(Edit.relinks_of_commit hcommit).size_eq]
    exact (edit.grows_atop tree).size_le

end Pipeline

end LoopToStream
