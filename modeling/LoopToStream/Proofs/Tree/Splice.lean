import LoopToStream.Proofs.Tree.WellFormed

/-!
# Putting something else in the place of parts

Two trees that differ in the parts of one node, and in what is below the parts that are
exchanged, have preorders that differ in one stretch: what stood there gives way to the
preorders of the new parts, and everything in front of it and behind it stays
(`Grounded.preorder_splice`). That is all that is needed to follow an edit through the list of
what hangs in a tree.
-/

namespace LoopToStream

namespace Tree

variable {tree tree' : Tree} {a up : NodeId} {left mid mid' right : List NodeId}

/-- The node `up` links `mid` between `left` and `right` in one tree and `mid'` in the other, and
apart from that and from what is below `mid` the trees agree below `a`. -/
structure Spliced (tree tree' : Tree) (a up : NodeId) (left mid mid' right : List NodeId) :
    Prop where
  before : tree.parts up = left ++ mid ++ right
  after : ∃ kind, tree'.kind? up = some kind ∧ kind.children = left ++ mid' ++ right
  elsewhere : ∀ n, tree.Reaches a n → n ≠ up → n ∉ mid.flatMap tree.preorder →
    tree'.kind? n = tree.kind? n
  grounded : ∀ m ∈ mid', tree'.Grounded m

theorem mem_flatMap_preorder {n : NodeId} {ids : List NodeId} :
    n ∈ ids.flatMap tree.preorder ↔ ∃ c ∈ ids, tree.Reaches c n := by
  simp [List.mem_flatMap, mem_preorder_iff]

theorem Spliced.reaches {b : NodeId} (h : tree.Spliced tree' a up left mid mid' right)
    (hb : tree.Reaches a b) : tree.Spliced tree' b up left mid mid' right :=
  { h with elsewhere := fun n hn => h.elsewhere n (hb.trans hn) }

/-- Parts that the exchange does not touch are as they were. -/
theorem preorder_untouched (h : tree.Spliced tree' a up left mid mid' right) (hg : tree.Grounded a)
    (ids : List NodeId) (hids : ∀ c ∈ ids, tree.Reaches a c)
    (hup : up ∉ ids.flatMap tree.preorder)
    (hdisjoint : (ids.flatMap tree.preorder).Disjoint (mid.flatMap tree.preorder)) :
    ids.flatMap tree'.preorder = ids.flatMap tree.preorder ∧ ∀ c ∈ ids, tree'.Grounded c := by
  have hsame : ∀ c ∈ ids, tree.SameBelow tree' c := by
    intro c hc n hn
    have hmem : n ∈ ids.flatMap tree.preorder := mem_flatMap_preorder.2 ⟨c, hc, hn⟩
    exact h.elsewhere n ((hids c hc).trans hn) (fun heq => hup (heq ▸ hmem)) (hdisjoint hmem)
  have hgc : ∀ c ∈ ids, tree.Grounded c := fun c hc => hg.of_reaches (hids c hc)
  exact ⟨List.flatMap_congr fun c hc => (hsame c hc).preorder_eq (hgc c hc),
    fun c hc => (hsame c hc).grounded (hgc c hc)⟩

/-- At the node whose parts are exchanged, the stretch is among them. -/
theorem preorder_splice_here (hg : tree.Grounded up) (hnodup : (tree.preorder up).Nodup)
    (h : tree.Spliced tree' up up left mid mid' right) :
    tree'.Grounded up ∧ ∃ front back,
      tree.preorder up = front ++ mid.flatMap tree.preorder ++ back ∧
      tree'.preorder up = front ++ mid'.flatMap tree'.preorder ++ back := by
  rw [hg.preorder_eq, h.before] at hnodup
  obtain ⟨hup, hnodup⟩ := List.nodup_cons.1 hnodup
  simp only [List.flatMap_append] at hup hnodup
  obtain ⟨hlm, -, hlmr⟩ := List.nodup_append'.1 hnodup
  obtain ⟨-, -, hlm⟩ := List.nodup_append'.1 hlm
  -- on both sides of the stretch the subtrees are as they were
  have hleft := preorder_untouched h hg left
    (fun c hc => .of_mem (by simp [h.before, hc])) (fun hmem => hup (by simp [hmem])) hlm
  have hright := preorder_untouched h hg right
    (fun c hc => .of_mem (by simp [h.before, hc])) (fun hmem => hup (by simp [hmem]))
    (fun n hn hm => hlmr (List.mem_append_right _ hm) hn)
  obtain ⟨kind, hkind, hchildren⟩ := h.after
  have hg' : tree'.Grounded up := .layer hkind fun c hc => by
    simp only [hchildren, List.mem_append] at hc
    rcases hc with (hc | hc) | hc
    · exact hleft.2 c hc
    · exact h.grounded c hc
    · exact hright.2 c hc
  refine ⟨hg', up :: left.flatMap tree.preorder, right.flatMap tree.preorder, ?_, ?_⟩
  · rw [hg.preorder_eq, h.before]
    simp [List.flatMap_append]
  · rw [hg'.preorder_eq, parts_eq_children hkind, hchildren]
    simp [List.flatMap_append, hleft.1, hright.1]

/-- Above it, one part leads to where parts are exchanged, and its siblings do not. -/
theorem preorder_splice_above {c : NodeId} (hg : tree.Grounded a) (hnodup : (tree.preorder a).Nodup)
    (h : tree.Spliced tree' a up left mid mid' right) (hc : c ∈ tree.parts a)
    (hcup : tree.Reaches c up) (hgc : tree'.Grounded c) {front back : List NodeId}
    (hbefore : tree.preorder c = front ++ mid.flatMap tree.preorder ++ back)
    (hafter : tree'.preorder c = front ++ mid'.flatMap tree'.preorder ++ back) :
    tree'.Grounded a ∧ ∃ front back,
      tree.preorder a = front ++ mid.flatMap tree.preorder ++ back ∧
      tree'.preorder a = front ++ mid'.flatMap tree'.preorder ++ back := by
  obtain ⟨kind, hkind⟩ := exists_kind_of_lt hg.lt_size
  have hparts : tree.parts a = kind.children := parts_eq_children hkind
  obtain ⟨before, after, hsplit⟩ := List.append_of_mem hc
  -- the stretch and the node are below the one part, so they are below no sibling
  have hmidc : ∀ n ∈ mid.flatMap tree.preorder, n ∈ tree.preorder c := fun n hn => by
    simp [hbefore, hn]
  have hupc : up ∈ tree.preorder c := mem_preorder_iff.2 hcup
  rw [hg.preorder_eq, hsplit] at hnodup
  obtain ⟨ha, hnodup⟩ := List.nodup_cons.1 hnodup
  simp only [List.flatMap_append, List.flatMap_cons] at ha hnodup
  obtain ⟨-, hrest, hdisjoint⟩ := List.nodup_append'.1 hnodup
  obtain ⟨-, -, hbehind⟩ := List.nodup_append'.1 hrest
  have hfirst := preorder_untouched h hg before (fun d hd => .of_mem (by simp [hsplit, hd]))
    (fun hmem => hdisjoint hmem (by simp [hupc]))
    (fun n hn hm => hdisjoint hn (by simp [hmidc n hm]))
  have hlast := preorder_untouched h hg after (fun d hd => .of_mem (by simp [hsplit, hd]))
    (fun hmem => hbehind hupc hmem) (fun n hn hm => hbehind (hmidc n hm) hn)
  -- the layer in between is not the one that changes
  have hane : a ≠ up := fun heq => ha (by simp [heq, hupc])
  have hkind' : tree'.kind? a = some kind :=
    (h.elsewhere a (.refl a) hane fun hm => ha (by simp [hmidc a hm])).trans hkind
  have hg' : tree'.Grounded a := .layer hkind' fun d hmem => by
    rw [← hparts, hsplit] at hmem
    rcases List.mem_append.1 hmem with hmem | hmem
    · exact hfirst.2 d hmem
    · rcases List.mem_cons.1 hmem with rfl | hmem
      · exact hgc
      · exact hlast.2 d hmem
  refine ⟨hg', a :: before.flatMap tree.preorder ++ front, back ++ after.flatMap tree.preorder,
    ?_, ?_⟩
  · rw [hg.preorder_eq, hsplit]
    simp [List.flatMap_append, hbefore]
  · rw [hg'.preorder_eq, parts_eq_children hkind', ← hparts, hsplit]
    simp [List.flatMap_append, hafter, hfirst.1, hlast.1]

/-- **One stretch of the preorder gives way.** By induction on the subtree. -/
theorem Grounded.preorder_splice (hg : tree.Grounded a) (hnodup : (tree.preorder a).Nodup)
    (h : tree.Spliced tree' a up left mid mid' right) (hup : tree.Reaches a up) :
    tree'.Grounded a ∧ ∃ front back,
      tree.preorder a = front ++ mid.flatMap tree.preorder ++ back ∧
      tree'.preorder a = front ++ mid'.flatMap tree'.preorder ++ back := by
  induction hg with
  | @layer a kind here below ih =>
    have hg : tree.Grounded a := .layer here below
    rcases reaches_iff.1 hup with rfl | ⟨c, hc, hcup⟩
    · exact preorder_splice_here hg hnodup h
    · have hcnodup : (tree.preorder c).Nodup :=
        (hg.preorder_sublist (.of_mem hc)).nodup hnodup
      obtain ⟨hgc, front, back, hbefore, hafter⟩ :=
        ih c (parts_eq_children here ▸ hc) hcnodup (h.reaches (.of_mem hc)) hcup
      exact preorder_splice_above hg hnodup h hc hcup hgc hbefore hafter

end Tree

end LoopToStream
