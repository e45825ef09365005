import LoopToStream.Flow
import LoopToStream.Proofs.Tree.Course

/-!
# What no operation changes

Operations change links, and a link says nothing about where code stands in the source, in which
scope, or which variables a layer declares. `Tree.Relinks` states that two tables agree on all that;
it holds between a tree with the staged nodes at its end and the tree after the commit
(`Edit.relinks_of_commit`).
-/

namespace LoopToStream

variable {tree mid next : Tree} {edit : Edit} {v : VarId} {n : NodeId}

/-! ### Outlines -/

namespace Kind

variable {α β ι : Type}

/-- What a layer is apart from its parts, and apart from how many there are in a block. -/
def outline : Kind ι → Kind Unit
  | .stmt (.block _) => .stmt (.block [])
  | kind => kind.shape

theorem outline_map (f : α → β) (kind : Kind α) : (kind.map f).outline = kind.outline := by
  cases kind with
  | stmt s =>
    cases s with
    | block stmts => rfl
    | _ => exact shape_map f (.stmt _)
  | expr e => exact shape_map f (.expr e)
  | comment text => rfl

/-- Operations on links leave the outline of a layer alone. -/
theorem outline_change (op : EditOp) (kind : Kind NodeId) :
    (op.change kind).outline = kind.outline := by
  -- a block has the same outline whichever statements it links
  have hblock : ∀ f, (Tree.mapBlock f kind).outline = kind.outline := by
    intro f
    rcases EditOp.mapBlock_cases f kind with ⟨stmts, rfl, hchange⟩ | ⟨-, hchange⟩ <;> rw [hchange]
    rfl
  cases op with
  | replace old new => exact outline_map _ kind
  | remove stmt => exact hblock _
  | insertBefore anchor stmt => exact hblock _

/-- What a layer declares is read off its outline. -/
theorem declares_outline (kind : Kind NodeId) (v : VarId) :
    Tree.declares v (kind.outline.map fun _ => ⟨0⟩) = Tree.declares v kind := by
  cases kind with
  | stmt s => cases s <;> simp [Tree.declares, outline, shape, map, Stmt.map, Function.comp_def]
  | expr e => cases e <;> rfl
  | comment text => rfl

/-- Whether a declaration comes with an initial value. -/
def initial? : Kind ι → Option Bool
  | .stmt (.declare _ init) => some init.isSome
  | _ => none

theorem initial?_outline (kind : Kind ι) : kind.outline.initial? = kind.initial? := by
  cases kind with
  | stmt s => cases s <;> simp [initial?, outline, shape, map, Stmt.map]
  | expr e => cases e <;> rfl
  | comment text => rfl

/-- A jump with this label, or without one, ends up there. -/
def isJumpTarget : Option String → Kind ι → Bool
  | none, .stmt s => s.isLoop
  | some label, .stmt (.labeled name _) => name = label
  | _, _ => false

theorem isJumpTarget_outline (label : Option String) (kind : Kind ι) :
    kind.outline.isJumpTarget label = kind.isJumpTarget label := by
  cases kind with
  | stmt s => cases s <;> cases label <;> rfl
  | expr e => cases label <;> rfl
  | comment text => cases label <;> rfl

/-- Whether an expression stands for a variable is read off its outline, and for which one. -/
theorem var?_outline (kind : Kind ι) :
    kind.outline.expr?.bind Expr.var? = kind.expr?.bind Expr.var? := by
  cases kind with
  | stmt s => cases s <;> rfl
  | expr e => cases e <;> rfl
  | comment text => rfl

/-- A comment is its outline. -/
theorem eq_comment_of_outline {kind : Kind ι} {text : String} (h : kind.outline = .comment text) :
    kind = .comment text := by
  cases kind with
  | stmt s => cases s <;> cases h
  | expr e => cases h
  | comment text' =>
    cases h
    rfl

theorem isBlock_outline (kind : Kind ι) :
    kind.outline.stmt?.any Stmt.isBlock = kind.stmt?.any Stmt.isBlock := by
  cases kind with
  | stmt s => cases s <;> rfl
  | expr e => rfl
  | comment text => rfl

/-- A layer mentions the variables that its outline does. -/
@[simp] theorem vars_outline (kind : Kind ι) : kind.outline.vars = kind.vars := by
  cases kind with
  | stmt s =>
    cases s with
    | block stmts => rfl
    | _ => exact vars_map _ (.stmt _)
  | expr e => exact vars_map _ (.expr e)
  | comment text => rfl

end Kind

namespace Tree

/-- What stands at an id, apart from its parts. -/
def outline? (tree : Tree) (id : NodeId) : Option (Kind Unit) := (tree.kind? id).map Kind.outline

theorem outline?_eq_some {outline : Kind Unit} :
    tree.outline? n = some outline ↔ ∃ kind, tree.kind? n = some kind ∧ kind.outline = outline :=
  Option.map_eq_some_iff

/-- Whether a variable has an initial value is read off the outline of its declaration. -/
theorem hasInitialValue?_eq (tree : Tree) (v : VarId) :
    Flow.hasInitialValue? tree v = (do
      let some declaration ← tree.declarationOf? v | return none
      return (tree.outline? declaration).bind Kind.initial?) := by
  rw [Flow.hasInitialValue?]
  refine bind_congr_of_ok fun declaration? _ => ?_
  cases declaration? with
  | none => rfl
  | some declaration =>
    dsimp only
    rw [stmt?, outline?]
    cases tree.kind? declaration with
    | none => rfl
    | some kind =>
      -- of the layers only a declaration says anything, and its outline keeps whether it has a
      -- value
      rw [Option.map_some, Option.bind_some, Option.bind_some, Kind.initial?_outline]
      cases kind with
      | stmt s => cases s <;> rfl
      | expr e => rfl
      | comment text => rfl

theorem isJumpTarget_eq (tree : Tree) (label : Option String) (n : NodeId) :
    Flow.isJumpTarget tree label n = (tree.kind? n).any (Kind.isJumpTarget label) := by
  unfold Flow.isJumpTarget
  cases hkind : tree.kind? n with
  | none => simp [stmt?, hkind]
  | some kind =>
    simp only [stmt?, hkind]
    -- loops are targets without a label, and labeled statements are targets of theirs
    cases kind with
    | stmt s => cases s <;> cases label <;> rfl
    | expr e => cases label <;> rfl
    | comment text => cases label <;> rfl

section

variable (h : next.outline? n = tree.outline? n)
include h

/-- What has the same outline is there in both trees or in none of them. -/
theorem outline?_congr_cases : tree.kind? n = none ∧ next.kind? n = none ∨
    ∃ kind kind', tree.kind? n = some kind ∧ next.kind? n = some kind' ∧
      kind'.outline = kind.outline := by
  rw [outline?, outline?] at h
  cases hkind : tree.kind? n with
  | none => simpa [hkind] using h
  | some kind =>
    rw [hkind, Option.map_some] at h
    obtain ⟨kind', hkind', houtline⟩ := Option.map_eq_some_iff.1 h
    exact .inr ⟨kind, kind', rfl, hkind', houtline⟩

theorem any_declares_congr (v : VarId) :
    (next.kind? n).any (declares v) = (tree.kind? n).any (declares v) := by
  obtain ⟨hkind, hkind'⟩ | ⟨kind, kind', hkind, hkind', houtline⟩ := outline?_congr_cases h
  · rw [hkind, hkind']
  · simp [hkind, hkind', ← Kind.declares_outline kind, ← Kind.declares_outline kind', houtline]

theorem isBlock_congr : next.isBlock n = tree.isBlock n := by
  obtain ⟨hkind, hkind'⟩ | ⟨kind, kind', hkind, hkind', houtline⟩ := outline?_congr_cases h
  · rw [isBlock, isBlock, stmt?, stmt?, hkind, hkind']
  · simp [isBlock, stmt?, hkind, hkind', ← Kind.isBlock_outline kind, ← Kind.isBlock_outline kind',
      houtline]

theorem var?_congr : (next.expr? n).bind Expr.var? = (tree.expr? n).bind Expr.var? := by
  obtain ⟨hkind, hkind'⟩ | ⟨kind, kind', hkind, hkind', houtline⟩ := outline?_congr_cases h
  · rw [expr?, expr?, hkind, hkind']
  · rw [expr?, expr?, hkind, hkind', Option.bind_some, Option.bind_some, ← Kind.var?_outline kind,
      ← Kind.var?_outline kind', houtline]

/-- A comment is still the comment that it was. -/
theorem comment_congr {text : String} (hcomment : tree.kind? n = some (.comment text)) :
    next.kind? n = some (.comment text) := by
  obtain ⟨hkind, -⟩ | ⟨kind, kind', hkind, hkind', houtline⟩ := outline?_congr_cases h
  · rw [hkind] at hcomment
    cases hcomment
  · obtain rfl := Option.some.inj (hkind.symm.trans hcomment)
    rw [hkind', Kind.eq_comment_of_outline houtline]

theorem isJumpTarget_congr (label : Option String) :
    Flow.isJumpTarget next label n = Flow.isJumpTarget tree label n := by
  rw [isJumpTarget_eq, isJumpTarget_eq]
  obtain ⟨hkind, hkind'⟩ | ⟨kind, kind', hkind, hkind', houtline⟩ := outline?_congr_cases h
  · rw [hkind, hkind']
  · simp [hkind, hkind', ← Kind.isJumpTarget_outline label kind,
      ← Kind.isJumpTarget_outline label kind', houtline]

end

/-- **The same table but for the links**: the nodes have their places in the source and declare what
they did. -/
structure Relinks (tree next : Tree) : Prop where
  size_eq : next.size = tree.size
  scope_eq : next.scope = tree.scope
  span_eq : ∀ n, next.span n = tree.span n
  outline_eq : ∀ n, next.outline? n = tree.outline? n

namespace Relinks

theorem refl (tree : Tree) : tree.Relinks tree := ⟨rfl, rfl, fun _ => rfl, fun _ => rfl⟩

theorem trans (h : tree.Relinks mid) (h' : mid.Relinks next) : tree.Relinks next :=
  ⟨h'.size_eq.trans h.size_eq, h'.scope_eq.trans h.scope_eq,
  fun n => (h'.span_eq n).trans (h.span_eq n),
    fun n => (h'.outline_eq n).trans (h.outline_eq n)⟩

theorem relinked (tree : Tree) : tree.Relinks tree.relinked :=
  ⟨relinked_size, rfl, fun _ => relinked_span, fun n => by rw [outline?, relinked_kind?, outline?]⟩

theorem modifyKind {up : NodeId} {f : Kind NodeId → Kind NodeId}
    (hf : ∀ kind, (f kind).outline = kind.outline) : tree.Relinks (tree.modifyKind up f) where
  size_eq := modifyKind_size
  scope_eq := rfl
  span_eq n := by
    rw [span, span, node, node, modifyKind_node?]
    cases tree.node? n with
    | none => rfl
    | some node => by_cases h : n = up <;> simp [h]
  outline_eq n := by
    rw [outline?, outline?, modifyKind_kind?]
    split
    · -- the one layer that changes keeps its outline
      cases tree.kind? n <;> simp [hf]
    · rfl

theorem changeLinks {op : EditOp} (h : tree.changeLinks op = .ok next) : tree.Relinks next := by
  rcases changeLinks_cases h with rfl | ⟨up, rfl⟩
  · cases op with
    | replace old new => exact ⟨rfl, rfl, fun _ => rfl, fun _ => rfl⟩
    | _ => exact refl tree
  · exact modifyKind fun kind => Kind.outline_change op kind

theorem applyOp {op : EditOp} (h : tree.applyOp op = .ok next) : tree.Relinks next := by
  obtain ⟨changed, hchanged, h⟩ := bind_eq_ok.1 h
  rw [eq_relinked_of_relink h]
  exact (changeLinks hchanged).trans (relinked changed)

/-- All operations, one after the other. -/
theorem foldlM_applyOp {ops : List EditOp} (h : ops.foldlM Tree.applyOp tree = .ok next) :
    tree.Relinks next := by
  induction ops generalizing tree with
  | nil =>
    cases h
    exact refl _
  | cons op ops ih =>
    rw [List.foldlM_cons] at h
    obtain ⟨mid, hmid, h⟩ := bind_eq_ok.1 h
    exact (applyOp hmid).trans (ih h)

/-- What stands somewhere has stood there before, with other links at most. -/
theorem exists_kind {kind : Kind NodeId} (h : tree.Relinks next) (hn : next.kind? n = some kind) :
    ∃ before, tree.kind? n = some before ∧ before.outline = kind.outline := by
  refine outline?_eq_some.1 ?_
  rw [← h.outline_eq, outline?_eq_some]
  exact ⟨kind, hn, rfl⟩

end Relinks

end Tree

namespace Edit

/-- **A commit changes links only**, of the nodes that were there and of those that it adds. -/
theorem relinks_of_commit (h : tree.commit edit = .ok next) : (edit.atop tree).Relinks next := by
  rw [Tree.commit] at h
  obtain ⟨⟨⟩, -, h⟩ := bind_eq_ok.1 h
  obtain ⟨changed, hchanged, h⟩ := bind_eq_ok.1 (Attempt.liftM_eq_ok.1 h)
  cases h
  have hrelinks := Tree.Relinks.foldlM_applyOp hchanged
  exact ⟨hrelinks.size_eq, hrelinks.scope_eq, hrelinks.span_eq, hrelinks.outline_eq⟩

theorem span_of_commit (h : tree.commit edit = .ok next) (hn : n.index < tree.size) :
    next.span n = tree.span n := by
  rw [(relinks_of_commit h).span_eq, Tree.span, Tree.span, Tree.node, Tree.node,
    atop_node?_of_lt hn]

end Edit

end LoopToStream
