import LoopToStream.Proofs.Tree.Commuting

/-!
# Nodes that are left over

A rewrite leaves the nodes it has replaced in the table, where some of them still link nodes that
hang in the tree. Two trees have the same code (`Tree.SameCode`) if all nodes that hang in them are
the same; what is left over in either table is up to it, and the tables may differ in length.

* `SameCode.undisturbed` — each piece of the code is as one that a change elsewhere has left alone,
  and no variable is given up;
* `SameCode.text_eq` — rewrites of the two trees that put the same lines in the place of the same
  statements leave the same text.
-/

namespace LoopToStream

namespace Tree

variable {tree tree' next next' : Tree} {a n : NodeId} {given placed placed' : List NodeId}
  {lines : List Fragment}

/-- Two trees have the same code: the same nodes hang in them, and all else but what is left over in
their tables is the same. -/
structure SameCode (tree tree' : Tree) : Prop where
  root_eq : tree'.root = tree.root
  vars_eq : tree'.vars = tree.vars
  scope_eq : tree'.scope = tree.scope
  revision_eq : tree'.revision = tree.revision
  node?_eq : ∀ n, tree.Attached n → tree'.node? n = tree.node? n

namespace SameCode

variable (h : tree.SameCode tree')
include h

theorem kind?_eq (hn : tree.Attached n) : tree'.kind? n = tree.kind? n := by
  rw [kind?, kind?, h.node?_eq n hn]

theorem parent?_eq (hn : tree.Attached n) : tree'.parent? n = tree.parent? n := by
  rw [parent?, parent?, h.node?_eq n hn]

theorem span_eq (hn : tree.Attached n) : tree'.span n = tree.span n := by
  rw [span, span, node, node, h.node?_eq n hn]

theorem sameBelow (ha : tree.Attached a) : tree.SameBelow tree' a :=
  fun _ hn => h.kind?_eq (ha.reaches hn)

/-- **The same nodes hang in both.** -/
theorem attached_iff : tree'.Attached n ↔ tree.Attached n := by
  rw [Attached, h.root_eq]
  exact (h.sameBelow attached_root).reaches_iff

theorem symm : tree'.SameCode tree where
  root_eq := h.root_eq.symm
  vars_eq := h.vars_eq.symm
  scope_eq := h.scope_eq.symm
  revision_eq := h.revision_eq.symm
  node?_eq n hn := (h.node?_eq n (h.attached_iff.1 hn)).symm

variable (hwf : tree.WellFormed) (hwf' : tree'.WellFormed)
include hwf

theorem preorder_root_eq : tree'.preorder tree'.root = tree.preorder tree.root := by
  rw [h.root_eq]
  exact (h.sameBelow attached_root).preorder_eq (hwf.grounded attached_root)

include hwf'

/-- **Variables are declared by the same statements.** -/
theorem declarationOf?_eq (v : VarId) : tree'.declarationOf? v = tree.declarationOf? v := by
  rw [hwf.declarationOf?_eq, hwf'.declarationOf?_eq, h.preorder_root_eq hwf,
    ← List.head?_filter, ← List.head?_filter]
  congr 2
  exact List.filter_congr fun n hn => by rw [h.kind?_eq (attached_iff_mem_preorder.2 hn)]

theorem hasInitialValue?_eq (v : VarId) :
    Flow.hasInitialValue? tree' v = Flow.hasInitialValue? tree v := by
  rw [Flow.hasInitialValue?, Flow.hasInitialValue?, h.declarationOf?_eq hwf hwf',
    hwf.declarationOf?_eq, ok_bind, ok_bind]
  cases hdeclaration :
      List.find? (fun n => (tree.kind? n).any (declares v)) (tree.preorder tree.root) with
  | none => rfl
  | some d =>
    have hd := attached_iff_mem_preorder.2 (List.mem_of_find?_eq_some hdeclaration)
    simp only [(h.sameBelow hd).stmt?_eq]

omit hwf' in
/-- **Variables are written in the same places.** -/
theorem writeSites_eq (v : VarId) : tree'.writeSites v = tree.writeSites v := by
  rw [writeSites, writeSites, h.preorder_root_eq hwf]
  refine List.filter_congr fun n hn => ?_
  have hattached := attached_iff_mem_preorder.2 hn
  exact (h.sameBelow hattached).writesTo_eq (hwf.grounded hattached) v

/-- **Code is not disturbed by what is left over** in the longer one of the two tables. There is no
variable that is given up: the one that stands for it is not in the table of variables. -/
theorem undisturbed (hsize : tree.size ≤ tree'.size) (ha : tree.Attached a) :
    tree.Undisturbed tree' ⟨tree.vars.size⟩ a where
  before := hwf
  after := hwf'
  size_le := hsize
  vars_eq := h.vars_eq
  scope_eq := h.scope_eq
  was_attached := ha
  attached := h.attached_iff.2 ha
  same := h.sameBelow ha
  unmentioned n _ hvar := by
    obtain ⟨e, hexpr, hv⟩ := Option.bind_eq_some_iff.1 hvar
    -- a variable that is mentioned is in the table
    have hmem : ⟨tree.vars.size⟩ ∈ (Kind.expr e).vars := by
      cases e <;> simp_all [Expr.var?, Kind.vars, Expr.vars]
    exact Nat.lt_irrefl _ (hwf.vars_known n _ (expr?_eq_some.1 hexpr) _ hmem)
  -- what hangs in the one tree hangs in the other, linked by the same nodes
  parents n hn _ := h.parent?_eq hn
  labels n label hn _ := by
    unfold Flow.isJumpTarget
    rw [(h.sameBelow hn).stmt?_eq]
  declarations v _ := ⟨h.declarationOf?_eq hwf hwf' v, h.hasInitialValue?_eq hwf hwf' v⟩
  writes v _ := h.writeSites_eq hwf v

/-! ### Rewrites of both -/

omit hwf hwf'
variable (hrewrite : tree.Respelled next given placed lines)
  (hrewrite' : tree'.Respelled next' given placed' lines)
include hrewrite

theorem outside (hn : tree.Outside given n) : tree'.Outside given n where
  attached := h.attached_iff.2 hn.attached
  not_below g hg := by
    rw [(h.sameBelow (hrewrite.given_attached g hg)).reaches_iff]
    exact hn.not_below g hg

include hrewrite'

/-- **The lines outside** are the same after both rewrites. By induction on the code. -/
theorem line_eq (hn : tree.Outside given n) : next'.line n = next.line n := by
  have hg := hrewrite.before.grounded hn.attached
  induction hg with
  | @layer n kind here below ih =>
    have hn' := h.outside hrewrite hn
    -- both rewrites graft the same layer
    have hafter : next.kind? n = some (kind.graft (exchange given placed)) := by
      rw [hrewrite.kind?_eq hn, here, Option.map_some]
    have hafter' : next'.kind? n = some (kind.graft (exchange given placed')) := by
      rw [hrewrite'.kind?_eq hn', h.kind?_eq hn.attached, here, Option.map_some]
    have hvars : next'.vars = next.vars := by rw [hrewrite'.vars_eq, hrewrite.vars_eq, h.vars_eq]
    refine hrewrite.after.line_congr hrewrite'.after (hrewrite.attached hn) (hrewrite'.attached hn')
      hafter hafter' hvars (Kind.map_graft_congr (fun c hc => ?_) fun hno c hc => ?_)
    · -- a part is given up in both, for the same lines, or in none
      by_cases hgiven : c ∈ given
      · rw [hrewrite.map_line_exchange hgiven, hrewrite'.map_line_exchange hgiven]
      · have hpart : c ∈ tree.parts n := parts_eq_children here ▸ hc
        have hout := hn.of_mem hrewrite.before hrewrite.given_attached hpart hgiven
        rw [exchange_of_notMem hgiven, exchange_of_notMem hgiven, List.map_singleton,
          List.map_singleton, ih c hc hout]
    · obtain ⟨d, hd⟩ :=
        hrewrite'.room n kind hn'.attached ((h.kind?_eq hn.attached).trans here) hno c hc
      simp [hd]

/-- **The same text** is left. -/
theorem text_eq : next'.text next'.root = next.text next.root := by
  have hroot : next'.root = next.root := by rw [hrewrite'.root_eq, hrewrite.root_eq, h.root_eq]
  rw [hrewrite.after.text_eq_line attached_root, hrewrite'.after.text_eq_line attached_root, hroot,
    hrewrite.root_eq, h.line_eq hrewrite hrewrite' hrewrite.outside_root]

end SameCode

end Tree

end LoopToStream
