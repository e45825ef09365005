import LoopToStream.Tree.Query
import Mathlib.Data.Finset.Card
import Mathlib.Data.Finset.Image
import Mathlib.Data.Finset.Range
import Mathlib.Logic.Relation

/-!
# Reachability

The walks of `Tree.Walk` carry a number of steps, so that they end on any table of nodes. This
file says what they list, without the number:

* `Tree.Reaches a n` — the node `n` is `a` or below it, as a closure of "is a part of";
* `Tree.mem_preorder_iff` — the preorder of `a` lists exactly what `a` reaches;
* `Tree.mem_preorderWhere_iff` — a walk that is kept from going on from some nodes lists what
  can be reached without going on from them.

All of this holds for every tree, cycles and dangling ids included: a walk that is long enough
to visit every node of the table once is long enough (`mem_depthFirst_of_reflTransGen`).
-/

namespace LoopToStream

open Relation

/-! ### Depth-first order -/

section DepthFirst

variable {next next' : NodeId → List NodeId} {fuel : Nat} {a b n : NodeId}

theorem mem_depthFirst_succ :
    n ∈ depthFirst next (fuel + 1) a [] ↔
      n = a ∨ ∃ c ∈ next a, n ∈ depthFirst next fuel c [] := by
  rw [depthFirst_succ, List.mem_cons, List.mem_flatMap]

/-- What is listed can be reached. -/
theorem reflTransGen_of_mem_depthFirst (h : n ∈ depthFirst next fuel a []) :
    ReflTransGen (fun p c => c ∈ next p) a n := by
  induction fuel generalizing a with
  | zero => simp at h
  | succ fuel ih =>
    rcases mem_depthFirst_succ.1 h with rfl | ⟨c, hc, hn⟩
    · exact .refl
    · exact .head hc (ih hn)

/-- Fewer successors and fewer steps list less. -/
theorem mem_depthFirst_mono (hnext : ∀ x, next' x ⊆ next x) {fuel' : Nat} (hfuel : fuel' ≤ fuel)
    (h : n ∈ depthFirst next' fuel' a []) : n ∈ depthFirst next fuel a [] := by
  induction fuel' generalizing a fuel with
  | zero => simp at h
  | succ fuel' ih =>
    obtain ⟨fuel, rfl⟩ : ∃ k, fuel = k + 1 := ⟨fuel - 1, by omega⟩
    rw [mem_depthFirst_succ] at h ⊢
    refine h.imp_right fun ⟨c, hc, hn⟩ => ⟨c, hnext a hc, ih (by omega) hn⟩

/-- **Leaving a node for good.** A way from `a` to another node goes on from `a` for a last
time; what follows never goes on from `a` again. -/
theorem exists_last_departure (h : ReflTransGen (fun p c => c ∈ next p) a n) (hne : n ≠ a) :
    ∃ c ∈ next a, ReflTransGen (fun p c => c ∈ if p = a then [] else next p) c n := by
  induction h with
  | refl => exact absurd rfl hne
  | @tail b n hab hbn ih =>
    -- either the last step leaves `a`, or the last departure was before it
    by_cases hb : b = a
    · subst hb
      exact ⟨n, hbn, .refl⟩
    · obtain ⟨c, hc, hcb⟩ := ih hb
      exact ⟨c, hc, hcb.tail (by rw [if_neg hb]; exact hbn)⟩

/-- A walk with one step more than there are nodes to go on from lists all that can be
reached. The induction takes the start out of the nodes to go on from: by
`exists_last_departure` it need not be visited again. -/
theorem mem_depthFirst_of_reflTransGen (s : Finset NodeId)
    (hs : ∀ x, next x ≠ [] → x ∈ s) (h : ReflTransGen (fun p c => c ∈ next p) a n) :
    n ∈ depthFirst next (s.card + 1) a [] := by
  induction hk : s.card generalizing s next a with
  | zero =>
    obtain rfl : s = ∅ := Finset.card_eq_zero.1 hk
    rw [mem_depthFirst_succ]
    rcases h.cases_head with rfl | ⟨c, hc, -⟩
    · exact .inl rfl
    · exact absurd (hs a (List.ne_nil_of_mem hc)) (Finset.notMem_empty a)
  | succ k ih =>
    rw [mem_depthFirst_succ]
    by_cases hna : n = a
    · exact .inl hna
    obtain ⟨c, hc, hcn⟩ := exists_last_departure h hna
    refine .inr ⟨c, hc, ?_⟩
    have ha : a ∈ s := hs a (List.ne_nil_of_mem hc)
    -- from `c` on, only the nodes of `s` other than `a` are gone on from
    have hrest : n ∈ depthFirst (fun p => if p = a then [] else next p) (k + 1) c [] :=
      ih (s.erase a) (fun x hx => by
        by_cases hxa : x = a
        · simp [hxa] at hx
        · exact Finset.mem_erase.2 ⟨hxa, hs x (by simpa [hxa] using hx)⟩)
      hcn (by rw [Finset.card_erase_of_mem ha, hk]; rfl)
    refine mem_depthFirst_mono (fun x => ?_) le_rfl hrest
    by_cases hxa : x = a <;> simp [hxa]

end DepthFirst

namespace Tree

variable {tree tree' : Tree} {a b c n id : NodeId}

/-! ### What can be reached -/

/-- The node `n` is `a` or below it. -/
def Reaches (tree : Tree) : NodeId → NodeId → Prop := ReflTransGen fun p c => c ∈ tree.parts p

/-- The node `n` is below `a`. -/
def StrictlyReaches (tree : Tree) : NodeId → NodeId → Prop :=
  TransGen fun p c => c ∈ tree.parts p

@[refl] theorem Reaches.refl (a : NodeId) : tree.Reaches a a := ReflTransGen.refl

theorem Reaches.trans (h₁ : tree.Reaches a b) (h₂ : tree.Reaches b n) : tree.Reaches a n :=
  ReflTransGen.trans h₁ h₂

theorem Reaches.of_mem (h : c ∈ tree.parts a) : tree.Reaches a c := ReflTransGen.single h

theorem Reaches.head (h₁ : c ∈ tree.parts a) (h₂ : tree.Reaches c n) : tree.Reaches a n :=
  ReflTransGen.head h₁ h₂

theorem Reaches.tail (h₁ : tree.Reaches a b) (h₂ : c ∈ tree.parts b) : tree.Reaches a c :=
  ReflTransGen.tail h₁ h₂

theorem reaches_iff : tree.Reaches a n ↔ a = n ∨ ∃ c ∈ tree.parts a, tree.Reaches c n :=
  ReflTransGen.cases_head_iff

theorem strictlyReaches_iff :
    tree.StrictlyReaches a n ↔ ∃ c ∈ tree.parts a, tree.Reaches c n :=
  TransGen.head'_iff

theorem StrictlyReaches.reaches (h : tree.StrictlyReaches a n) : tree.Reaches a n :=
  TransGen.to_reflTransGen h

theorem StrictlyReaches.of_mem (h : c ∈ tree.parts a) : tree.StrictlyReaches a c :=
  TransGen.single h

theorem reaches_iff_eq_or_strictly :
    tree.Reaches a n ↔ n = a ∨ tree.StrictlyReaches a n :=
  reflTransGen_iff_eq_or_transGen

/-- An id with parts names a node. -/
theorem lt_size_of_mem_parts (h : c ∈ tree.parts a) : a.index < tree.size := by
  by_contra hlt
  have hnode : tree.kind? a = none := by
    simp only [kind?, node?, Option.map_eq_none_iff]
    exact Array.getElem?_eq_none (Nat.le_of_not_lt hlt)
  simp [parts, hnode] at h

/-- The ids of the table. -/
def ids (tree : Tree) : Finset NodeId := (Finset.range tree.size).image NodeId.mk

theorem mem_ids : id ∈ tree.ids ↔ id.index < tree.size := by
  simp only [ids, Finset.mem_image, Finset.mem_range]
  exact ⟨fun ⟨i, hi, h⟩ => h ▸ hi, fun h => ⟨id.index, h, rfl⟩⟩

theorem card_ids : tree.ids.card = tree.size := by
  rw [ids, Finset.card_image_of_injective _ fun i j h => NodeId.mk.inj h, Finset.card_range]

/-- **The preorder lists what can be reached.** -/
theorem mem_preorder_iff : n ∈ tree.preorder a ↔ tree.Reaches a n := by
  refine ⟨reflTransGen_of_mem_depthFirst, fun h => ?_⟩
  have := mem_depthFirst_of_reflTransGen tree.ids
    (fun x hx => mem_ids.2 (lt_size_of_mem_parts (List.exists_mem_of_ne_nil _ hx).choose_spec)) h
  rwa [card_ids] at this

/-- A walk that is kept from going on from some nodes lists what can be reached without going
on from them. -/
theorem mem_preorderWhere_iff {enter : NodeId → Bool} :
    n ∈ tree.preorderWhere enter a ↔
      ReflTransGen (fun p c => (p = a ∨ enter p) ∧ c ∈ tree.parts p) a n := by
  -- going on from a node only if it may be entered makes a relation of its own
  have hrel : (fun p c => c ∈ if p = a ∨ enter p then tree.parts p else []) =
      fun p c => (p = a ∨ enter p) ∧ c ∈ tree.parts p := by
    funext p c
    by_cases h : p = a ∨ enter p = true <;> simp [h]
  rw [← hrel]
  refine ⟨reflTransGen_of_mem_depthFirst, fun h => ?_⟩
  have := mem_depthFirst_of_reflTransGen tree.ids (fun x hx => mem_ids.2 ?_) h
  · rwa [card_ids] at this
  · obtain ⟨c, hc⟩ := List.exists_mem_of_ne_nil _ hx
    by_cases h : x = a ∨ enter x = true
    · rw [if_pos h] at hc
      exact lt_size_of_mem_parts hc
    · simp [h] at hc

theorem reaches_of_mem_preorderWhere {enter : NodeId → Bool} (h : n ∈ tree.preorderWhere enter a) :
    tree.Reaches a n :=
  ReflTransGen.mono (fun _ _ hstep => hstep.2) _ _ (mem_preorderWhere_iff.1 h)

end Tree

end LoopToStream
