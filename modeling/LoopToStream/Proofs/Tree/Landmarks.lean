import LoopToStream.Proofs.Tree.Grounded

/-!
# Landmarks

A rewrite moves code about that it does not make: comments, loops, declarations and so on. The
*landmarks* of some code are its comments, its statements, except for blocks, for `if`s and for
expressions that stand as statements, which a rewrite may make anew or give up, and those of its
expressions that declare or write variables: function literals, assignments, and the operators with
one operand. A landmark is taken down as its id together with what stands there apart from its parts
(`Kind.shape`), so that it is still the same landmark after one of its parts has been exchanged.

* `Tree.landmarks` — the landmarks at or below a node, in source order. Its equation is
  `Grounded.landmarks_eq`. Those that were there before the table became longer are
  `Tree.landmarksUpTo`.
* `Tree.Unmarked` — there are none.
* `Tree.commentsBelow`, `Tree.loopsBelow` — the comments and the loops of some code. They are read
  off the list of landmarks (`Tree.commentsBelow_eq`, `Tree.loopsBelow_eq`).

The layers that new code is made of are `Kind.isGlue`. Of these only function literals are
landmarks, and none of them mentions a variable by its name.
-/

namespace LoopToStream

/-! ### Layers -/

namespace Kind

variable {α β ι : Type}

/-- What a layer is apart from its parts. -/
def shape (kind : Kind ι) : Kind Unit := kind.map fun _ => ()

/-- A comment, a statement that no rewrite makes or gives up, or an expression that may declare or
write a variable. -/
def isLandmark : Kind ι → Bool
  | .comment _ => true
  | .stmt (.block _) | .stmt (.expr _) | .stmt (.branch ..) => false
  | .stmt _ => true
  | .expr (.lambda ..) | .expr (.assign ..) | .expr (.unary ..) => true
  | .expr _ => false

/-- What a landmark is apart from its parts. -/
def mark? (kind : Kind ι) : Option (Kind Unit) :=
  if kind.isLandmark then some kind.shape else none

/-- The layers that new code is made of. -/
def isGlue : Kind ι → Bool
  | .stmt (.expr _) | .stmt (.block _) => true
  | .expr (.call _) | .expr (.typeName _) | .expr .thisRef | .expr .superRef | .expr (.paren _) =>
    true
  | .expr (.lambda ..) | .expr (.methodRef ..) => true
  | _ => false

theorem shape_map (f : α → β) (kind : Kind α) : (kind.map f).shape = kind.shape := by
  cases kind with
  | stmt s => cases s <;> simp [shape, map, Stmt.map, Function.comp_def]
  | expr e => cases e <;> simp [shape, map, Expr.map, Function.comp_def]
  | comment text => rfl

theorem isLandmark_map (f : α → β) (kind : Kind α) : (kind.map f).isLandmark = kind.isLandmark := by
  cases kind with
  | stmt s => cases s <;> rfl
  | expr e => cases e <;> rfl
  | comment text => rfl

/-- **Exchanging parts** leaves a landmark the landmark that it is. -/
theorem mark?_map (f : α → β) (kind : Kind α) : (kind.map f).mark? = kind.mark? := by
  rw [mark?, mark?, isLandmark_map, shape_map]

/-- New code mentions no variable by itself. -/
theorem var?_of_isGlue {kind : Kind ι} (h : kind.isGlue = true) :
    kind.expr?.bind Expr.var? = none := by
  cases kind with
  | stmt s => rfl
  | expr e => cases e <;> first | rfl | cases h
  | comment text => rfl

end Kind

/-- A node with what stands there, apart from its parts. -/
abbrev Landmark : Type := NodeId × Kind Unit

namespace Landmark

/-- The landmark is a comment. -/
def isComment (mark : Landmark) : Bool := mark.2.comment?.isSome

/-- The landmark is a loop over a collection. -/
def isForEach (mark : Landmark) : Bool := (mark.2.stmt?.bind Stmt.forEach?).isSome

theorem isComment_of_isForEach {mark : Landmark} (h : mark.isForEach = true) :
    mark.isComment = false := by
  obtain ⟨id, kind⟩ := mark
  cases kind with
  | comment text => cases h
  | expr e => rfl
  | stmt s => rfl

end Landmark

namespace Tree

variable {tree tree' : Tree} {a n id : NodeId} {kind : Kind NodeId}

/-! ### The landmarks of some code -/

/-- The landmark at an id. -/
def mark? (tree : Tree) (id : NodeId) : Option Landmark :=
  ((tree.kind? id).bind Kind.mark?).map (id, ·)

/-- The landmarks at or below an id, in source order. -/
def landmarks (tree : Tree) (id : NodeId) : List Landmark := (tree.preorder id).filterMap tree.mark?

theorem mark?_eq_of_kind? (h : tree.kind? id = some kind) :
    tree.mark? id = kind.mark?.map (id, ·) := by
  rw [mark?, h, Option.bind_some]

theorem mark?_congr (h : tree'.kind? id = tree.kind? id) : tree'.mark? id = tree.mark? id := by
  rw [mark?, mark?, h]

theorem flatMap_landmarks (tree : Tree) (ids : List NodeId) :
    ids.flatMap tree.landmarks = (ids.flatMap tree.preorder).filterMap tree.mark? :=
  List.filterMap_flatMap.symm

/-- A landmark, if there is one, then those of the parts. -/
theorem Grounded.landmarks_eq (h : tree.Grounded a) :
    tree.landmarks a = (tree.mark? a).toList ++ (tree.parts a).flatMap tree.landmarks := by
  rw [landmarks, h.preorder_eq, flatMap_landmarks, List.filterMap_cons]
  cases tree.mark? a <;> rfl

theorem SameBelow.landmarks_eq (h : tree.SameBelow tree' a) (hg : tree.Grounded a) :
    tree'.landmarks a = tree.landmarks a := by
  rw [landmarks, landmarks, h.preorder_eq hg]
  refine List.filterMap_congr fun n hn => ?_
  exact mark?_congr (h n (mem_preorder_iff.1 hn))

/-- A landmark that is listed stands at or below the node. -/
theorem reaches_of_mem_landmarks {mark : Landmark} (h : mark ∈ tree.landmarks a) :
    tree.Reaches a mark.1 ∧ tree.mark? mark.1 = some mark := by
  obtain ⟨n, hn, hmark⟩ := List.mem_filterMap.1 h
  obtain ⟨shape, -, rfl⟩ := Option.map_eq_some_iff.1 hmark
  exact ⟨mem_preorder_iff.1 hn, hmark⟩

/-- The landmarks at or below an id that are among the first nodes of the table, so many of them. -/
def landmarksUpTo (tree : Tree) (limit : Nat) (id : NodeId) : List Landmark :=
  (tree.landmarks id).filter fun mark => mark.1.index < limit

theorem flatMap_landmarksUpTo (tree : Tree) (limit : Nat) (ids : List NodeId) :
    ids.flatMap (tree.landmarksUpTo limit) =
      (ids.flatMap tree.landmarks).filter fun mark => mark.1.index < limit :=
  List.filter_flatMap.symm

/-- A node that has been added is no landmark of before. -/
theorem Grounded.landmarksUpTo_eq {limit : Nat} (h : tree.Grounded a) (ha : limit ≤ a.index) :
    tree.landmarksUpTo limit a = (tree.parts a).flatMap (tree.landmarksUpTo limit) := by
  have hnew : (tree.mark? a).toList.filter (fun mark => mark.1.index < limit) = [] := by
    refine List.filter_eq_nil_iff.2 fun mark hmark => ?_
    obtain ⟨shape, -, rfl⟩ := Option.map_eq_some_iff.1 (Option.mem_toList.1 hmark)
    simpa using ha
  rw [landmarksUpTo, h.landmarks_eq, List.filter_append, hnew, List.nil_append,
    flatMap_landmarksUpTo]

/-- Landmarks of a tree are among its nodes. -/
theorem Grounded.landmarksUpTo_size (h : tree.Grounded a) :
    tree.landmarksUpTo tree.size a = tree.landmarks a :=
  List.filter_eq_self.2 fun mark hmark => by
    simpa using (h.of_reaches (reaches_of_mem_landmarks hmark).1).lt_size

theorem SameBelow.landmarksUpTo_eq {limit : Nat} (h : tree.SameBelow tree' a)
    (hg : tree.Grounded a) :
    tree'.landmarksUpTo limit a = tree.landmarksUpTo limit a := by
  rw [landmarksUpTo, landmarksUpTo, h.landmarks_eq hg]

/-- What was a landmark before the table became longer twice was one in between. -/
theorem filter_landmarksUpTo {limit limit' : Nat} (h : limit ≤ limit') :
    (tree.landmarksUpTo limit' a).filter (fun mark => mark.1.index < limit) =
      tree.landmarksUpTo limit a := by
  rw [landmarksUpTo, List.filter_filter, landmarksUpTo]
  refine List.filter_congr fun mark _ => ?_
  rw [Bool.and_eq_left_iff_imp]
  simpa using fun hlt => hlt.trans_le h

/-! ### Code without landmarks -/

/-- No landmark stands at or below a node. -/
def Unmarked (tree : Tree) (id : NodeId) : Prop := ∀ n, tree.Reaches id n → tree.mark? n = none

theorem landmarks_eq_nil_iff : tree.landmarks a = [] ↔ tree.Unmarked a := by
  rw [landmarks, List.filterMap_eq_nil_iff]
  exact forall_congr' fun n => by rw [mem_preorder_iff]

namespace Unmarked

theorem landmarks_eq (h : tree.Unmarked a) : tree.landmarks a = [] := landmarks_eq_nil_iff.2 h

theorem landmarksUpTo_eq {limit : Nat} (h : tree.Unmarked a) : tree.landmarksUpTo limit a = [] := by
  rw [landmarksUpTo, h.landmarks_eq, List.filter_nil]

theorem of_reaches (h : tree.Unmarked a) (hn : tree.Reaches a n) : tree.Unmarked n :=
  fun m hm => h m (hn.trans hm)

theorem congr (h : tree.Unmarked a) (hg : tree.Grounded a) (hsame : tree.SameBelow tree' a) :
    tree'.Unmarked a := by
  rw [← landmarks_eq_nil_iff, hsame.landmarks_eq hg]
  exact h.landmarks_eq

/-- A layer that is no landmark, over parts without landmarks. -/
theorem layer (hkind : tree.kind? a = some kind) (hno : kind.mark? = none)
    (hparts : ∀ c ∈ kind.children, tree.Unmarked c) : tree.Unmarked a := by
  intro n hn
  rcases reaches_iff.1 hn with rfl | ⟨c, hc, hcn⟩
  · rw [mark?_eq_of_kind? hkind, hno]
    rfl
  · exact hparts c (parts_eq_children hkind ▸ hc) n hcn

/-- An expression that declares and writes nothing, over parts without landmarks. -/
theorem expr {e : Expr NodeId} (hkind : tree.kind? a = some (.expr e))
    (hno : (Kind.expr e).mark? = none) (hparts : ∀ c ∈ e.children, tree.Unmarked c) :
    tree.Unmarked a :=
  layer hkind hno hparts

/-- There is no comment in particular. -/
theorem comment?_eq_none (h : tree.Unmarked a)
    (hn : tree.Reaches a n) : tree.comment? n = none := by
  cases hcomment : tree.comment? n with
  | none => rfl
  | some text =>
    have hmark := h n hn
    rw [mark?_eq_of_kind? (comment?_eq_some.1 hcomment)] at hmark
    cases hmark

end Unmarked

/-! ### Comments and loops -/

/-- **Questions that landmarks answer.** Where only landmarks pass a test, and pass it by what they
are apart from their parts, the nodes that pass it are read off the list of landmarks. -/
theorem filter_eq_marks {p : NodeId → Bool} {q : Landmark → Bool}
    (h : ∀ n, p n = (tree.mark? n).any q) (ids : List NodeId) :
    ids.filter p = ((ids.filterMap tree.mark?).filter q).map Prod.fst := by
  induction ids with
  | nil => rfl
  | cons n rest ih =>
    have hn := h n
    cases hmark : tree.mark? n with
    | none =>
      -- a node that is no landmark does not pass
      rw [hmark, Option.any_none] at hn
      rw [List.filter_cons_of_neg (by simp [hn]), List.filterMap_cons_none hmark, ih]
    | some mark =>
      -- a landmark passes for what it is, and is listed by its node
      have hid : mark.1 = n := by
        obtain ⟨shape, -, rfl⟩ := Option.map_eq_some_iff.1 hmark
        rfl
      rw [hmark, Option.any_some] at hn
      rw [List.filterMap_cons_some hmark]
      cases hq : q mark with
      | true => simp [hn, hq, ih, hid]
      | false => simp [hn, hq, ih]

/-- Where nodes that have been added do not pass the test, landmarks of before answer the question.
-/
theorem filter_eq_marksUpTo {p : NodeId → Bool} {q : Landmark → Bool} {limit : Nat}
    (h : ∀ n, p n = (tree.mark? n).any q) (hnew : ∀ n, limit ≤ n.index → p n = false) (a : NodeId) :
    (tree.preorder a).filter p = ((tree.landmarksUpTo limit a).filter q).map Prod.fst := by
  rw [landmarksUpTo, List.filter_filter]
  refine filter_eq_marks (fun n => ?_) _
  -- landmarks that came later are left out, and their nodes do not pass
  by_cases hn : n.index < limit
  · rw [h n]
    cases hmark : tree.mark? n with
    | none => rfl
    | some mark =>
      obtain ⟨shape, -, rfl⟩ := Option.map_eq_some_iff.1 hmark
      simp [hn]
  · rw [hnew n (Nat.le_of_not_lt hn)]
    cases hmark : tree.mark? n with
    | none => rfl
    | some mark =>
      obtain ⟨shape, -, rfl⟩ := Option.map_eq_some_iff.1 hmark
      simp [hn]

theorem isSome_comment?_eq (tree : Tree) (n : NodeId) :
    (tree.comment? n).isSome = (tree.mark? n).any Landmark.isComment := by
  cases hkind : tree.kind? n with
  | none => simp [comment?, mark?, hkind]
  | some kind =>
    rw [mark?_eq_of_kind? hkind, comment?, hkind]
    cases kind with
    | comment text => rfl
    | expr e => cases e <;> rfl
    | stmt s => cases s <;> rfl

theorem isSome_forEach?_eq (tree : Tree) (n : NodeId) :
    (tree.forEach? n).isSome = (tree.mark? n).any Landmark.isForEach := by
  cases hkind : tree.kind? n with
  | none => simp [forEach?, stmt?, mark?, hkind]
  | some kind =>
    rw [mark?_eq_of_kind? hkind, forEach?, stmt?, hkind]
    cases kind with
    | comment text => rfl
    | expr e => cases e <;> rfl
    | stmt s => cases s <;> rfl

/-- The comments at or below an id, in source order. -/
def commentsBelow (tree : Tree) (id : NodeId) : List NodeId :=
  (tree.preorder id).filter fun n => (tree.comment? n).isSome

/-- The loops over collections at or below an id, in source order. -/
def loopsBelow (tree : Tree) (id : NodeId) : List NodeId :=
  (tree.preorder id).filter fun n => (tree.forEach? n).isSome

theorem mem_commentsBelow :
    n ∈ tree.commentsBelow a ↔ tree.Reaches a n ∧ (tree.comment? n).isSome := by
  rw [commentsBelow, List.mem_filter, mem_preorder_iff]

theorem mem_loopsBelow :
    n ∈ tree.loopsBelow a ↔ tree.Reaches a n ∧ (tree.forEach? n).isSome := by
  rw [loopsBelow, List.mem_filter, mem_preorder_iff]

theorem commentsBelow_eq (tree : Tree) (a : NodeId) :
    tree.commentsBelow a = ((tree.landmarks a).filter Landmark.isComment).map Prod.fst :=
  filter_eq_marks tree.isSome_comment?_eq _

theorem loopsBelow_eq (tree : Tree) (a : NodeId) :
    tree.loopsBelow a = ((tree.landmarks a).filter Landmark.isForEach).map Prod.fst :=
  filter_eq_marks tree.isSome_forEach?_eq _

theorem flatMap_commentsBelow (tree : Tree) (ids : List NodeId) :
    ids.flatMap tree.commentsBelow =
      ((ids.flatMap tree.landmarks).filter Landmark.isComment).map Prod.fst := by
  rw [List.filter_flatMap, List.map_flatMap]
  exact List.flatMap_congr fun a _ => tree.commentsBelow_eq a

end Tree

end LoopToStream
