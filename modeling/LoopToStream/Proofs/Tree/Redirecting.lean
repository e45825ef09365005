import LoopToStream.Proofs.Code.Rewriting
import LoopToStream.Proofs.Tree.Grafting
import LoopToStream.Proofs.Tree.Parented

/-!
# Redirecting links

A node is replaced by writing to the parts of its parent: those that are the node become another
one. Walks and the setting of parents read parts. Were there a part that is read but not written, a
replacement could leave a node where it is without anybody noticing; were there one that is written
but not read, it could change code that nothing comes to.

* `Tree.Follows` — walks and parents follow some links and no others. Once the parents have been
  set, these are the links from a node to its parts (`Tree.follows_of_relink`).
* `Tree.Redirected` — what a replacement does to a tree: each layer is rewritten, with all parts as
  they were but the ones that are replaced, and what is followed from then on are the links that
  were there, with the same exception (`Tree.redirected_modifyKind`).
* `Tree.parts_written_as_read` — reading and writing parts is one enumeration, for single layers and
  for replacements in trees.

All of this holds for every table of nodes, cycles and shared nodes included.
-/

namespace LoopToStream

open Relation

namespace Tree

variable {tree next : Tree} {p : NodeId} {links : NodeId → NodeId → Prop}

/-! ### Links that are followed -/

/-- **Walks and parents follow these links** and no others. -/
structure Follows (tree : Tree) (links : NodeId → NodeId → Prop) : Prop where
  /-- A walk lists what the links lead to. -/
  walks : ∀ a n, n ∈ tree.preorder a ↔ ReflTransGen links a n
  /-- A walk that goes into some nodes only, and into the one that it starts from, lists what their
  links lead to. -/
  partialWalks : ∀ enter a n, n ∈ tree.preorderWhere enter a ↔
    ReflTransGen (fun p c => (p = a ∨ enter p = true) ∧ links p c) a n
  /-- The parent of a node is in the tree and links it. -/
  parents : ∀ p c, tree.parent? c = some p → p ∈ tree.preorder tree.root ∧ links p c
  /-- What is linked in the tree has a parent. -/
  linked : ∀ p c, p ∈ tree.preorder tree.root → links p c → ∃ q, tree.parent? c = some q

/-- Where parents are set, the links to the parts are followed. -/
theorem Parented.follows (h : tree.Parented) : tree.Follows fun p c => c ∈ tree.parts p where
  walks a n := mem_preorder_iff
  partialWalks enter a n := mem_preorderWhere_iff
  parents p c hp := by
    obtain ⟨hattached, hc⟩ := h.links hp
    exact ⟨mem_preorder_iff.2 hattached, hc⟩
  linked p c hp hc := by
    have hattached : tree.Attached p := mem_preorder_iff.1 hp
    -- a node that something links has been given a parent
    have hset := h.parentSet c (h.lt_size_of_mem hattached hc)
    cases hparent : tree.parent? c with
    | none => exact absurd hc (hset.unlinked hparent p hattached)
    | some q => exact ⟨q, rfl⟩

theorem Follows.congr (h : tree.Follows links) {links' : NodeId → NodeId → Prop}
    (heq : ∀ p c, links p c ↔ links' p c) : tree.Follows links' := by
  have hlinks : links = links' := by
    ext p c
    exact heq p c
  rwa [hlinks] at h

/-- **Setting the parents** makes them follow the links to the parts, as walks do. -/
theorem follows_of_relink (h : tree.relink = .ok next) :
    next.Follows fun p c => c ∈ tree.parts p := by
  have hparented : next.Parented := parented_of_relink h
  refine hparented.follows.congr fun p c => ?_
  rw [eq_relinked_of_relink h, relinked_parts]

/-! ### Links that are written -/

section Redirect

variable {up old new c : NodeId}

/-- Where a link from `p` to `c` leads once the links from `up` to `old` lead to `new`. -/
def redirect (up old new p c : NodeId) : NodeId := if p = up ∧ c = old then new else c

theorem redirect_self : redirect up old new up = fun c => if c = old then new else c := by
  ext c
  simp [redirect]

theorem redirect_of_ne (h : p ≠ up) : redirect up old new p c = c := by
  simp [redirect, h]

/-- **A tree with the links from `up` to `old` redirected to `new`**, its parents not set yet. -/
structure Redirected (tree : Tree) (up old new : NodeId) (changed : Tree) : Prop where
  root_eq : changed.root = tree.root
  /-- Each layer is what it was, with its parts rewritten. -/
  layers : ∀ p, Option.Rel (Kind.Rewritten (redirect up old new p)) (tree.kind? p) (changed.kind? p)
  /-- The links that will be followed are those that were there, rewritten. -/
  follows : ∀ next, changed.relink = .ok next →
    next.Follows fun p c => ∃ d ∈ tree.parts p, redirect up old new p d = c

end Redirect

/-- What is read of a rewritten layer are its rewritten parts. -/
theorem parts_eq_of_rewritten {f : NodeId → NodeId}
    (h : Option.Rel (Kind.Rewritten f) (tree.kind? p) (next.kind? p)) :
    next.parts p = (tree.parts p).map f := by
  rw [parts, parts]
  generalize tree.kind? p = layer, next.kind? p = layer' at h
  cases h with
  | none => rfl
  | some hrewritten => exact hrewritten.children_eq

/-- Replacing a node rewrites the layer of its parent, and all others by what they are. -/
theorem rewritten_modifyKind (tree : Tree) (up old new p : NodeId) :
    Option.Rel (Kind.Rewritten (redirect up old new p)) (tree.kind? p)
      ((tree.modifyKind up (EditOp.replace old new).change).kind? p) := by
  by_cases hp : p = up
  · subst hp
    rw [modifyKind_kind?_self, redirect_self]
    cases tree.kind? p with
    | none => exact .none
    | some kind => exact .some (Kind.rewritten_map _ kind)
  · rw [modifyKind_kind?_of_ne hp]
    cases tree.kind? p with
    | none => exact .none
    | some kind =>
      -- nothing is redirected in the layer of any other node
      have hsame : kind.map (redirect up old new p) = kind :=
        Kind.map_eq_self fun c _ => redirect_of_ne hp
      exact .some (Kind.rewritten_iff.2 hsame.symm)

/-- **A replacement redirects links.** -/
theorem redirected_modifyKind (tree : Tree) (up old new : NodeId) :
    tree.Redirected up old new (tree.modifyKind up (EditOp.replace old new).change) where
  root_eq := modifyKind_root
  layers := rewritten_modifyKind tree up old new
  follows next hnext := by
    refine (follows_of_relink hnext).congr fun p c => ?_
    rw [parts_eq_of_rewritten (rewritten_modifyKind tree up old new p), List.mem_map]

/-! ### Reading and writing -/

/-- **Parts are written where they are read.** Writing to the parts of a layer rewrites them in the
list of its parts, one by one and in place, and nothing else of the layer.

Thus, in a tree, a replacement writes to the links that walks and parents follow, and to no others.
It always finds them: where the parents are set, the parent links what is to be replaced. Setting
the parents afterwards cannot fail as long as links lead to nodes. -/
theorem parts_written_as_read (f : NodeId → NodeId) (kind : Kind NodeId) :
    (∀ other, other = kind.map f ↔ kind.Alike other ∧ other.children = kind.children.map f) ∧
      (kind.map f).children.length = kind.children.length ∧
      ∀ tree : Tree,
        (∀ next, tree.relink = .ok next → next.Follows fun p c => c ∈ tree.parts p) ∧
        ∀ old new up, tree.parent? old = some up → up.index < tree.size →
          (tree.Parented → old ∈ tree.parts up) ∧
          ∃ changed, tree.changeLinks (.replace old new) = .ok changed ∧
            tree.Redirected up old new changed ∧
            (tree.Closed → new.index < tree.size → ∃ next, changed.relink = .ok next) := by
  refine ⟨fun other => ?_, ?_, fun tree => ⟨fun next => follows_of_relink, ?_⟩⟩
  · rw [← Kind.rewritten_iff]
    exact ⟨fun h => ⟨h.alike, h.children_eq⟩, fun ⟨halike, hparts⟩ => ⟨halike, hparts⟩⟩
  · rw [Kind.children_map, List.length_map]
  · intro old new up hup hknown
    -- the parent is where the link is, so exchanging parts in its layer is enough
    refine ⟨fun hparented => (hparented.links hup).2, _, changeLinks_eq hup hknown,
      redirected_modifyKind tree up old new, fun hclosed hnew => ?_⟩
    have hplaced : ∀ c, (EditOp.replace old new).placed? = some c → c.index < tree.size := by
      rintro c ⟨⟩
      exact hnew
    exact ⟨_, (hclosed.change hplaced).relink_eq⟩

/-- A statement with a handler for two exceptions and one for another, with the same body as the
statement. -/
def handled : Kind NodeId :=
  .stmt (.tryCatch ⟨0⟩ [⟨⟨0⟩, [.simple "IOException", .simple "TimeoutException"], ⟨1⟩⟩,
    ⟨⟨1⟩, [.simple "Error"], ⟨0⟩⟩])

/-- The layers of `{ f(a, a); a; }`, where `a` is one node throughout, and of a name that nothing
links. -/
def sharedName : List (Kind NodeId) :=
  [.expr (.name "a" none), .expr (.call ⟨none, "f", [⟨0⟩, ⟨0⟩], none⟩), .stmt (.expr ⟨1⟩),
    .stmt (.expr ⟨0⟩), .stmt (.block [⟨2⟩, ⟨3⟩]), .expr (.name "b" none)]

/-- The parent of the name that is linked three times is the call. Replacing the name replaces both
arguments and leaves the statement that is the name as well. -/
theorem parts_written_as_read_sharedName :
    (handled.map fun id => (⟨id.index + 7⟩ : NodeId)).children = [⟨7⟩, ⟨8⟩, ⟨7⟩] ∧
    ∃ tree changed next, ofKinds .unknown #[] sharedName ⟨4⟩ = .ok tree ∧ tree.Closed ∧
      tree.Parented ∧
      tree.parent? ⟨0⟩ = some ⟨1⟩ ∧ tree.changeLinks (.replace ⟨0⟩ ⟨5⟩) = .ok changed ∧
      changed.parts ⟨1⟩ = [⟨5⟩, ⟨5⟩] ∧ changed.parts ⟨3⟩ = [⟨0⟩] ∧ changed.relink = .ok next ∧
      ⟨5⟩ ∈ next.preorder ⟨4⟩ := by
  obtain ⟨hlayer, -, htrees⟩ := parts_written_as_read (fun id => ⟨id.index + 7⟩) handled
  refine ⟨((hlayer _).1 rfl).2, ?_⟩
  obtain ⟨tree, hbuilt, hroot, hsize, hlinks, hparent, hblock, hstatement, hcall, hname⟩ :
      ∃ tree, ofKinds .unknown #[] sharedName ⟨4⟩ = .ok tree ∧ tree.root = ⟨4⟩ ∧ tree.size = 6 ∧
        (∀ i < tree.size, ∀ c ∈ tree.parts ⟨i⟩, c.index < tree.size) ∧
        tree.parent? ⟨0⟩ = some ⟨1⟩ ∧ ⟨2⟩ ∈ tree.parts ⟨4⟩ ∧ ⟨1⟩ ∈ tree.parts ⟨2⟩ ∧
        tree.parts ⟨1⟩ = [⟨0⟩, ⟨0⟩] ∧ tree.parts ⟨3⟩ = [⟨0⟩] :=
    ⟨_, by cbv, by cbv, by cbv, by decide, by decide, by decide, by decide, by decide, by decide⟩
  -- every link of the six nodes leads to one of them
  have hclosed : tree.Closed := by
    refine ⟨by simp [hroot, hsize], fun id kind hkind c hc => ?_⟩
    rw [← parts_eq_children hkind] at hc
    exact hlinks id.index (lt_size_of_mem_parts hc) c hc
  have hparented : tree.Parented := parented_of_relink hbuilt
  obtain ⟨-, hreplace⟩ := htrees tree
  obtain ⟨hmem, changed, hchanged, hredirected, hrelink⟩ :=
    hreplace ⟨0⟩ ⟨5⟩ ⟨1⟩ hparent (by simp [hsize])
  obtain ⟨next, hnext⟩ := hrelink hclosed (by simp [hsize])
  -- down from the block to the call, by links that are not redirected
  have hway : ReflTransGen (fun p c => ∃ d ∈ tree.parts p, redirect ⟨1⟩ ⟨0⟩ ⟨5⟩ p d = c) ⟨4⟩ ⟨1⟩ :=
    .tail (.single ⟨⟨2⟩, hblock, rfl⟩) ⟨⟨1⟩, hstatement, rfl⟩
  refine ⟨tree, changed, next, hbuilt, hclosed, hparented, hparent, hchanged, ?_, ?_, hnext, ?_⟩
  · rw [parts_eq_of_rewritten (hredirected.layers ⟨1⟩), hcall]
    rfl
  · rw [parts_eq_of_rewritten (hredirected.layers ⟨3⟩), hname]
    rfl
  · exact ((hredirected.follows next hnext).walks ⟨4⟩ ⟨5⟩).2 (hway.tail ⟨⟨0⟩, hmem hparented, rfl⟩)

end Tree

end LoopToStream
