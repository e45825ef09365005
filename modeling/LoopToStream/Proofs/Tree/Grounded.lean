import LoopToStream.Proofs.Answers
import LoopToStream.Proofs.Tree.Reach
import LoopToStream.Tree.Query
import Mathlib.Data.List.Basic
import Mathlib.Data.List.Flatten

/-!
# Finite subtrees

An id is *grounded* (`Tree.Grounded`) if every way down from it ends, and none at a missing
node. On grounded ids the walks satisfy the equations that one would like to have taken as
their definitions:

* `Grounded.preorder_eq` — a node, then the preorders of its parts;
* `Grounded.bottomUp_eq` — a layer is read over what its parts were read as;
* `Grounded.innermost_eq` — seeing through wrappers goes on for as long as there is something
  to see through.

They come from one lemma, `Grounded.steps_irrelevant`: a function of a number of steps and an
id that looks only at what is strictly below the id, with one step less, has settled once there
are as many steps as nodes at or below the id (`Tree.weight`).

What can be reached from an id decides what the walks say about it. `SameBelow` states that two
trees agree on it; `SameBelow.preorder_eq` and `SameBelow.bottomUp_eq` carry the walks over.
-/

namespace LoopToStream

/-- Running two functions on the parts of a layer gives the same if they agree on the parts. -/
theorem Kind.mapM_congr {α β : Type} {m : Type → Type} [Monad m] [LawfulMonad m]
    {f g : α → m β} {kind : Kind α} (h : ∀ c ∈ kind.children, f c = g c) :
    kind.mapM f = kind.mapM g := by
  have hopt : ∀ o : Option α, (∀ c ∈ o.toList, f c = g c) → o.mapM f = o.mapM g := by
    intro o ho
    cases o with
    | none => rfl
    | some c => rw [Option.mapM_some, Option.mapM_some, ho c (by simp)]
  -- a layer links single parts, parts that may be left out, and lists of parts
  have hlist : ∀ l : List α, (∀ c ∈ l, f c = g c) → l.mapM f = l.mapM g := by
    intro l hl
    induction l with
    | nil => rfl
    | cons c l ih =>
      rw [List.mapM_cons, List.mapM_cons, hl c (by simp), ih fun x hx => hl x (by simp [hx])]
  cases kind with
  | comment _ => rfl
  | expr e =>
    cases e <;> simp only [children, Expr.children] at h <;> simp only [mapM, Expr.mapM]
    case field r n v => rw [h r (by simp)]
    case call c =>
      rw [hopt _ fun x hx => h x (by simp_all), hlist _ fun x hx => h x (by simp [hx])]
    case create c => rw [hlist _ h]
    case binary op l r => rw [h l (by simp), h r (by simp)]
    case unary op x => rw [h x (by simp)]
    case assign op t v => rw [h t (by simp), h v (by simp)]
    case paren x => rw [h x (by simp)]
    case lambda ps e b => rw [h b (by simp)]
    case methodRef q n => rw [h q (by simp)]
  | stmt s =>
    cases s <;> simp only [children, Stmt.children] at h <;> simp only [mapM, Stmt.mapM]
    case block ss => rw [hlist _ h]
    case expr x => rw [h x (by simp)]
    case declare v i => rw [hopt _ h]
    case branch c t e =>
      rw [hopt c fun x hx => h x (by simp_all), hopt t fun x hx => h x (by simp_all),
        hopt e fun x hx => h x (by simp_all)]
    case forEach l =>
      rw [hopt _ fun x hx => h x (by simp_all), hopt _ fun x hx => h x (by simp_all)]
    case whileLoop c b => rw [h c (by simp), h b (by simp)]
    case labeled n b => rw [h b (by simp)]
    case giveBack v => rw [hopt _ h]
    case throwValue v => rw [h v (by simp)]
    case tryCatch b hs =>
      rw [h b (by simp)]
      -- a handler has one part, and things that are not run through
      have hcatch : ∀ l : List (Catch α), (∀ c ∈ l.map Catch.body, f c = g c) →
          (l.mapM fun c => return (⟨c.var, c.types, ← f c.body⟩ : Catch β)) =
            l.mapM fun c => return ⟨c.var, c.types, ← g c.body⟩ := by
        intro l hl
        induction l with
        | nil => rfl
        | cons c l ih =>
          rw [List.mapM_cons, List.mapM_cons, hl c.body (by simp),
            ih fun x hx => hl x (by simp_all)]
      rw [hcatch hs fun x hx => h x (by simp_all)]

namespace Tree

variable {tree tree' : Tree} {a b c n id : NodeId} {kind : Kind NodeId}

/-! ### Grounded ids -/

/-- Every way down from an id ends, and none at a missing node. -/
inductive Grounded (tree : Tree) : NodeId → Prop where
  | layer {id : NodeId} {kind : Kind NodeId} (here : tree.kind? id = some kind)
      (below : ∀ c ∈ kind.children, Grounded tree c) : Grounded tree id

namespace Grounded

/-- There is a node. -/
theorem exists_kind (h : tree.Grounded id) : ∃ kind, tree.kind? id = some kind := by
  cases h with
  | layer here _ => exact ⟨_, here⟩

theorem of_mem_parts (h : tree.Grounded a) (hc : c ∈ tree.parts a) : tree.Grounded c := by
  cases h with
  | layer here below => exact below c (parts_eq_children here ▸ hc)

theorem of_reaches (h : tree.Grounded a) (hn : tree.Reaches a n) : tree.Grounded n := by
  induction hn with
  | refl => exact h
  | tail _ hc ih => exact ih.of_mem_parts hc

/-- **No way returns.** A part of a grounded node does not reach the node. -/
theorem not_reaches (h : tree.Grounded a) (hc : c ∈ tree.parts a) : ¬ tree.Reaches c a := by
  induction h generalizing c with
  | @layer a kind here below ih =>
    rw [parts_eq_children here] at hc
    intro hca
    -- the last step of the way comes from a node below `c`, which then reaches itself
    rcases reaches_iff.1 hca with rfl | ⟨d, hd, hda⟩
    · exact ih c hc (parts_eq_children here ▸ hc) (.refl c)
    · exact ih c hc hd (hda.tail (parts_eq_children here ▸ hc))

theorem lt_size (h : tree.Grounded id) : id.index < tree.size := by
  obtain ⟨kind, hkind⟩ := h.exists_kind
  exact lt_size_of_kind? hkind

end Grounded

/-! ### Enough steps -/

open Classical in
/-- How many nodes are at or below an id. -/
noncomputable def weight (tree : Tree) (a : NodeId) : Nat :=
  (tree.ids.filter fun n => tree.Reaches a n).card

theorem weight_le : tree.weight a ≤ tree.size := by
  classical
  exact (Finset.card_filter_le _ _).trans_eq card_ids

theorem Grounded.weight_pos (h : tree.Grounded a) : 0 < tree.weight a := by
  classical
  exact Finset.card_pos.2 ⟨a, Finset.mem_filter.2 ⟨mem_ids.2 h.lt_size, .refl a⟩⟩

/-- What is below and does not lead back weighs less. -/
theorem weight_lt (hlt : a.index < tree.size) (hac : tree.Reaches a c) (hca : ¬ tree.Reaches c a) :
    tree.weight c < tree.weight a := by
  classical
  refine Finset.card_lt_card ((Finset.ssubset_iff_of_subset fun x hx => ?_).2 ⟨a, ?_, ?_⟩)
  · rw [Finset.mem_filter] at hx ⊢
    exact ⟨hx.1, hac.trans hx.2⟩
  · exact Finset.mem_filter.2 ⟨mem_ids.2 hlt, .refl a⟩
  · rw [Finset.mem_filter]
    exact fun hx => hca hx.2

theorem Grounded.weight_lt (h : tree.Grounded a) (hc : tree.StrictlyReaches a c) :
    tree.weight c < tree.weight a := by
  obtain ⟨d, hd, hdc⟩ := strictlyReaches_iff.1 hc
  exact Tree.weight_lt h.lt_size hc.reaches fun hca => h.not_reaches hd (hdc.trans hca)

/-- **The number of steps does not matter** once there are as many as nodes at or below the id,
to a function that looks at what is strictly below the id with one step less. -/
theorem Grounded.steps_irrelevant {β : Type} {f : Nat → NodeId → β}
    (hf : ∀ i j a, (∀ c, tree.StrictlyReaches a c → f i c = f j c) → f (i + 1) a = f (j + 1) a)
    (h : tree.Grounded a) {i j : Nat} (hi : tree.weight a ≤ i) (hj : tree.weight a ≤ j) :
    f i a = f j a := by
  induction hw : tree.weight a using Nat.strong_induction_on generalizing a i j with
  | _ w ih =>
    have hpos := h.weight_pos
    obtain ⟨i, rfl⟩ : ∃ k, i = k + 1 := ⟨i - 1, by omega⟩
    obtain ⟨j, rfl⟩ : ∃ k, j = k + 1 := ⟨j - 1, by omega⟩
    refine hf i j a fun c hc => ?_
    have hlt := h.weight_lt hc
    exact ih (tree.weight c) (hw ▸ hlt) (h.of_reaches hc.reaches) (by omega) (by omega) rfl

/-- The form in which it is used: the bound of the walks, and one step less strictly below. -/
theorem Grounded.pathBound_eq {β : Type} {f : Nat → NodeId → β}
    (hf : ∀ i j a, (∀ c, tree.StrictlyReaches a c → f i c = f j c) → f (i + 1) a = f (j + 1) a)
    (h : tree.Grounded a) (hc : tree.StrictlyReaches a c) :
    f tree.size c = f tree.pathBound c := by
  have hle : tree.weight c ≤ tree.size := weight_le
  exact (h.of_reaches hc.reaches).steps_irrelevant hf hle (hle.trans (Nat.le_succ _))

/-! ### The equations of the walks -/

theorem depthFirst_congr (next : NodeId → List NodeId) (i j : Nat) (a : NodeId)
    (h : ∀ c ∈ next a, depthFirst next i c [] = depthFirst next j c []) :
    depthFirst next (i + 1) a [] = depthFirst next (j + 1) a [] := by
  rw [depthFirst_succ, depthFirst_succ]
  exact congrArg _ (List.flatMap_congr h)

/-- A walk that goes on from a node to some of its parts lists the node, and then what the walks
from these parts list. -/
theorem Grounded.depthFirst_eq {next : NodeId → List NodeId} (hnext : ∀ x, next x ⊆ tree.parts x)
    (h : tree.Grounded a) :
    depthFirst next tree.pathBound a [] =
      a :: (next a).flatMap fun c => depthFirst next tree.pathBound c [] := by
  show depthFirst next (tree.size + 1) a [] = _
  rw [depthFirst_succ]
  refine congrArg _ (List.flatMap_congr fun c hc => ?_)
  exact h.pathBound_eq (f := fun i x => depthFirst next i x [])
    (fun i j x hx => depthFirst_congr _ i j x fun d hd => hx d (.of_mem (hnext x hd)))
    (.of_mem (hnext a hc))

theorem Grounded.preorder_eq (h : tree.Grounded a) :
    tree.preorder a = a :: (tree.parts a).flatMap tree.preorder :=
  h.depthFirst_eq fun _ => List.Subset.refl _

/-- What is below a node is listed in one stretch of its preorder, with other nodes around. -/
theorem Grounded.preorder_sublist (h : tree.Grounded a) (hb : tree.Reaches a b) :
    (tree.preorder b).Sublist (tree.preorder a) := by
  induction hb with
  | refl => exact List.Sublist.refl _
  | @tail p c hp hc ih =>
    refine List.Sublist.trans ?_ ih
    rw [(h.of_reaches hp).preorder_eq]
    have hone := (List.singleton_sublist.2 hc).flatMap tree.preorder
    rw [List.flatMap_singleton] at hone
    exact hone.cons p

/-- A subtree is read by reading its first layer over what the parts were read as. -/
theorem Grounded.bottomUp_eq {α : Type} {step : NodeId → Kind α → Lookup α}
    (h : tree.Grounded a) (ha : tree.kind? a = some kind) :
    tree.bottomUp step a = (do step a (← kind.mapM (tree.bottomUp step))) := by
  -- one step reads the layer, whatever the bound is
  have hsucc : ∀ {i : Nat} {x : NodeId} {k : Kind NodeId}, tree.kind? x = some k →
      tree.bottomUpWithin step (i + 1) x =
        (do step x (← k.mapM (tree.bottomUpWithin step i))) := by
    intro i x k hx
    rw [bottomUpWithin, kind_of_kind? hx]
    rfl
  rw [bottomUp, pathBound, hsucc ha]
  -- below a grounded node it does not matter that a step has been taken
  have hparts : kind.mapM (tree.bottomUpWithin step tree.size) = kind.mapM (tree.bottomUp step) :=
    Kind.mapM_congr fun c hc =>
      h.pathBound_eq (f := tree.bottomUpWithin step)
        (fun i j x hx => by
          cases hk : tree.kind? x with
          | none => simp [bottomUpWithin, Tree.kind, node, show tree.node? x = none by
              simpa [kind?] using hk]
          | some k =>
            rw [hsucc hk, hsucc hk, Kind.mapM_congr fun d hd =>
              hx d (.of_mem (parts_eq_children hk ▸ hd))])
        (.of_mem (parts_eq_children ha ▸ hc))
  rw [hparts]

/-- Going inwards for as long as there is a way that leads strictly down. -/
theorem Grounded.innermost_eq {inside : NodeId → Option NodeId}
    (hinside : ∀ x y, inside x = some y → tree.StrictlyReaches x y) (h : tree.Grounded a) :
    innermostWithin inside tree.pathBound a =
      match inside a with
      | some inner => innermostWithin inside tree.pathBound inner
      | none => a := by
  rw [pathBound, innermostWithin]
  cases hin : inside a with
  | none => rfl
  | some inner =>
    -- one step less is enough below a node that is left for good
    refine h.pathBound_eq (f := innermostWithin inside) (fun i j x hx => ?_) (hinside _ _ hin)
    rw [innermostWithin, innermostWithin]
    cases hy : inside x with
    | none => rfl
    | some y => exact hx y (hinside x y hy)

/-- Going inwards leads down. -/
theorem reaches_innermostWithin {inside : NodeId → Option NodeId}
    (hinside : ∀ x y, inside x = some y → y ∈ tree.parts x) (steps : Nat) (id : NodeId) :
    tree.Reaches id (innermostWithin inside steps id) := by
  induction steps generalizing id with
  | zero => exact .refl id
  | succ steps ih =>
    rw [innermostWithin]
    cases hinner : inside id with
    | none => exact .refl id
    | some inner => exact (ih inner).head (hinside id inner hinner)

/-! ### Trees that agree below an id -/

/-- The second tree has, at every id that `a` reaches in the first, what the first has there. -/
def SameBelow (tree tree' : Tree) (a : NodeId) : Prop :=
  ∀ n, tree.Reaches a n → tree'.kind? n = tree.kind? n

namespace SameBelow

theorem of_reaches (h : tree.SameBelow tree' a) (hb : tree.Reaches a b) :
    tree.SameBelow tree' b :=
  fun n hn => h n (hb.trans hn)

theorem reaches (h : tree.SameBelow tree' a) (hn : tree.Reaches a n) : tree'.Reaches a n := by
  induction hn with
  | refl => exact .refl _
  | @tail p c hp hc ih =>
    have hparts : tree'.parts p = tree.parts p := by rw [parts, parts, h p hp]
    exact ih.tail (hparts ▸ hc)

theorem parts_eq (h : tree.SameBelow tree' a) : tree'.parts a = tree.parts a := by
  rw [parts, parts, h a (.refl a)]

theorem grounded (h : tree.SameBelow tree' a) (hg : tree.Grounded a) : tree'.Grounded a := by
  induction hg with
  | layer here below ih =>
    refine .layer ((h _ (.refl _)).trans here) fun c hc => ?_
    exact ih c hc (h.of_reaches (.of_mem (parts_eq_children here ▸ hc)))

theorem preorder_eq (h : tree.SameBelow tree' a) (hg : tree.Grounded a) :
    tree'.preorder a = tree.preorder a := by
  induction hg with
  | @layer a kind here below ih =>
    have hg : tree.Grounded a := .layer here below
    rw [(h.grounded hg).preorder_eq, hg.preorder_eq, h.parts_eq]
    refine congrArg _ (List.flatMap_congr fun c hc => ?_)
    exact ih c (parts_eq_children here ▸ hc) (h.of_reaches (.of_mem hc))

theorem bottomUp_eq {α : Type} {step : NodeId → Kind α → Lookup α}
    (h : tree.SameBelow tree' a) (hg : tree.Grounded a) :
    tree'.bottomUp step a = tree.bottomUp step a := by
  induction hg with
  | @layer a kind here below ih =>
    have hg : tree.Grounded a := .layer here below
    rw [(h.grounded hg).bottomUp_eq ((h a (.refl a)).trans here), hg.bottomUp_eq here]
    rw [Kind.mapM_congr fun c hc => ih c hc (h.of_reaches (.of_mem (parts_eq_children here ▸ hc)))]

end SameBelow

end Tree

end LoopToStream
