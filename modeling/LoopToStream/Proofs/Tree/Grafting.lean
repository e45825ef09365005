import LoopToStream.Proofs.Tree.WellFormed

/-!
# Grafting

A rewrite gives up some neighbours and puts others in their place. Around them nothing changes but
the one layer that links them, and that layer changes in a way that can be said without naming it:
each of its parts gives way for what is put in its place, and most parts for themselves.

* `Kind.graft` — a layer with each part exchanged for several; only a block has room for more than
  one.
* `exchange` — what is put in the place of which part.
* `Tree.Grafted` — two trees that differ, outside of what is given up, by such an exchange. It is
  enough to look at the layer that links what is given up (`Grafted.of_layer`).
-/

namespace LoopToStream

variable {tree next : Tree} {a c n new up : NodeId} {kind : Kind NodeId}
  {given placed left right : List NodeId} {f : NodeId → List NodeId}

/-! ### Layers with other parts -/

namespace Kind

/-- What is made of the parts is all that matters. -/
theorem map_congr {α β : Type} {f g : α → β} {kind : Kind α} (h : ∀ c ∈ kind.children, f c = g c) :
    kind.map f = kind.map g := by
  have hlist : ∀ l : List α, (∀ c ∈ l, f c = g c) → l.map f = l.map g := fun l hl =>
    List.map_congr_left hl
  have hopt : ∀ o : Option α, (∀ c ∈ o.toList, f c = g c) → o.map f = o.map g := by
    intro o ho
    cases o with
    | none => rfl
    | some c => exact congrArg some (ho c (by simp))
  cases kind with
  | comment text => rfl
  | stmt s =>
    cases s with
    | tryCatch body handlers =>
      -- the bodies of the handlers are parts
      have hhandlers : handlers.map (fun c => (⟨c.var, c.types, f c.body⟩ : Catch β)) =
          handlers.map fun c => ⟨c.var, c.types, g c.body⟩ := List.map_congr_left fun c hc => by
        rw [h c.body (by simpa [children, Stmt.children] using .inr ⟨c, hc, rfl⟩)]
      simp [map, Stmt.map, hhandlers, h body (by simp [children, Stmt.children])]
    | _ => simp_all [map, Stmt.map, children, Stmt.children]
  | expr e => cases e <;> simp_all [map, Expr.map, children, Expr.children]

theorem map_map {α β γ : Type} (f : α → β) (g : β → γ) (kind : Kind α) :
    (kind.map f).map g = kind.map fun c => g (f c) := by
  cases kind with
  | comment text => rfl
  | stmt s => cases s <;> simp [map, Stmt.map, Function.comp_def]
  | expr e => cases e <;> simp [map, Expr.map, Function.comp_def]

/-- A layer that is left alone. -/
theorem map_eq_self {g : NodeId → NodeId}
    (h : ∀ c ∈ kind.children, g c = c) : kind.map g = kind := by
  refine (map_congr h).trans ?_
  cases kind with
  | comment text => rfl
  | stmt s => cases s <;> simp [map, Stmt.map]
  | expr e => cases e <;> simp [map, Expr.map]

/-- The layer with each part exchanged for several. Outside of blocks there is room for one. -/
def graft (f : NodeId → List NodeId) : Kind NodeId → Kind NodeId
  | .stmt (.block stmts) => .stmt (.block (stmts.flatMap f))
  | kind => kind.map fun c => (f c).headD c

@[simp] theorem graft_block (stmts : List NodeId) :
    graft f (.stmt (.block stmts)) = .stmt (.block (stmts.flatMap f)) := rfl

/-- A block with other statements, or another layer with other parts. -/
theorem graft_cases (f : NodeId → List NodeId) (kind : Kind NodeId) :
    (∃ stmts, kind = .stmt (.block stmts) ∧ kind.graft f = .stmt (.block (stmts.flatMap f))) ∨
      (kind.stmt?.any Stmt.isBlock = false ∧ kind.graft f = kind.map fun c => (f c).headD c) := by
  cases kind with
  | stmt s => cases s <;> first | exact .inl ⟨_, rfl, rfl⟩ | exact .inr ⟨rfl, rfl⟩
  | expr e => exact .inr ⟨rfl, rfl⟩
  | comment text => exact .inr ⟨rfl, rfl⟩

/-- **Where nothing is exchanged**, nothing changes. -/
theorem graft_eq_self (h : ∀ c ∈ kind.children, f c = [c]) : kind.graft f = kind := by
  rcases graft_cases f kind with ⟨stmts, rfl, hgraft⟩ | ⟨-, hgraft⟩
  · have hlist : stmts.flatMap f = stmts :=
      (List.flatMap_congr h).trans (List.flatMap_singleton' stmts)
    rw [hgraft, hlist]
  · rw [hgraft]
    exact map_eq_self fun c hc => by simp [h c hc]

/-- Each part exchanged for one. -/
theorem graft_singletons (g : NodeId → NodeId) (kind : Kind NodeId) :
    kind.graft (fun c => [g c]) = kind.map g := by
  rcases graft_cases (fun c => [g c]) kind with ⟨stmts, rfl, hgraft⟩ | ⟨-, hgraft⟩
  · rw [hgraft, ← List.map_eq_flatMap]
    rfl
  · exact hgraft

/-- A part that is left alone is still there. -/
theorem mem_children_graft (hc : c ∈ kind.children) (h : f c = [c]) :
    c ∈ (kind.graft f).children := by
  rcases graft_cases f kind with ⟨stmts, rfl, hgraft⟩ | ⟨-, hgraft⟩
  · rw [hgraft]
    exact List.mem_flatMap.2 ⟨c, hc, by simp [h]⟩
  · rw [hgraft, children_map]
    exact List.mem_map.2 ⟨c, hc, by simp [h]⟩

/-- A part has been there before, or stands for one that has. -/
theorem mem_children_of_graft (hc : c ∈ (kind.graft f).children) :
    c ∈ kind.children ∨ ∃ d ∈ kind.children, c ∈ f d := by
  rcases graft_cases f kind with ⟨stmts, rfl, hgraft⟩ | ⟨-, hgraft⟩
  · rw [hgraft] at hc
    exact .inr (List.mem_flatMap.1 hc)
  · rw [hgraft, children_map] at hc
    obtain ⟨d, hd, rfl⟩ := List.mem_map.1 hc
    -- a part that is exchanged for none stays where there is no list
    cases hf : f d with
    | nil => exact .inl (by simpa using hd)
    | cons first rest => exact .inr ⟨d, hd, by simp [hf]⟩

theorem isBlock_map {α β : Type} (f : α → β) (kind : Kind α) :
    (kind.map f).stmt?.any Stmt.isBlock = kind.stmt?.any Stmt.isBlock := by
  cases kind with
  | stmt s => cases s <;> rfl
  | expr e => rfl
  | comment text => rfl

/-- A block has been one before. -/
theorem eq_block_of_graft {stmts : List NodeId} (h : kind.graft f = .stmt (.block stmts)) :
    ∃ stmts', kind = .stmt (.block stmts') ∧ stmts'.flatMap f = stmts := by
  rcases graft_cases f kind with ⟨stmts', rfl, hgraft⟩ | ⟨hno, hgraft⟩
  · rw [hgraft] at h
    cases h
    exact ⟨stmts', rfl, rfl⟩
  · rw [← isBlock_map, ← hgraft, h] at hno
    cases hno

/-- A declaration with an initial value has been one before. -/
theorem eq_declare_of_graft {v : VarId} {init : NodeId}
    (h : kind.graft f = .stmt (.declare v (some init))) :
    ∃ init', kind = .stmt (.declare v (some init')) ∧ (f init').headD init' = init := by
  -- an exchange of parts leaves the sort of layer
  cases kind with
  | stmt s =>
    cases s with
    | declare w init' =>
      cases init' with
      | none => cases h
      | some init' =>
        cases h
        exact ⟨init', rfl, rfl⟩
    | _ => cases h
  | expr e => cases h
  | comment text => cases h

/-- **Exchanging parts twice** in a row. Where there is room for one part only, both times it has to
be exchanged for one. -/
theorem graft_graft {g : NodeId → List NodeId}
    (hf : kind.stmt?.any Stmt.isBlock = false → ∀ c ∈ kind.children, ∃ d, f c = [d])
    (hg : kind.stmt?.any Stmt.isBlock = false → ∀ c ∈ kind.children, ∀ d ∈ f c, g d ≠ []) :
    (kind.graft f).graft g = kind.graft fun c => (f c).flatMap g := by
  rcases graft_cases f kind with ⟨stmts, rfl, hgraft⟩ | ⟨hno, hgraft⟩
  · rw [hgraft, graft_block, graft_block, List.flatMap_assoc]
  · -- outside of lists, a part is exchanged for the first of what takes its place
    have hmap : ∀ (h : NodeId → List NodeId) (k : Kind NodeId), k.stmt?.any Stmt.isBlock = false →
        k.graft h = k.map fun c => (h c).headD c := fun h k hk => by
      rcases graft_cases h k with ⟨stmts, rfl, -⟩ | ⟨-, hgraft⟩
      · cases hk
      · exact hgraft
    rw [hgraft, hmap g _ ((isBlock_map _ kind).trans hno), hmap _ kind hno, map_map]
    refine map_congr fun c hc => ?_
    -- so the second exchange has a single part to work on
    obtain ⟨d, hd⟩ := hf hno c hc
    obtain ⟨first, rest, hfirst⟩ := List.exists_cons_of_ne_nil (hg hno c hc d (by simp [hd]))
    simp [hd, hfirst]

/-- **What is made of exchanged parts.** -/
theorem map_graft_congr {β : Type} {f' : NodeId → List NodeId} {φ φ' : NodeId → β}
    (h : ∀ c ∈ kind.children, (f c).map φ = (f' c).map φ')
    (hne : kind.stmt?.any Stmt.isBlock = false → ∀ c ∈ kind.children, f c ≠ []) :
    (kind.graft f).map φ = (kind.graft f').map φ' := by
  rcases graft_cases f kind with ⟨stmts, rfl, hgraft⟩ | ⟨hno, hgraft⟩
  · have hlist : (stmts.flatMap f).map φ = (stmts.flatMap f').map φ' := by
      rw [List.map_flatMap, List.map_flatMap]
      exact List.flatMap_congr h
    simp [map, Stmt.map, hlist]
  · rcases graft_cases f' kind with ⟨stmts, rfl, -⟩ | ⟨-, hgraft'⟩
    · cases hno
    rw [hgraft, hgraft', map_map, map_map]
    refine map_congr fun c hc => ?_
    -- lists that are mapped to the same have first members that are
    obtain ⟨first, rest, hfirst⟩ := List.exists_cons_of_ne_nil (hne hno c hc)
    have hc' := h c hc
    rw [hfirst, List.map_cons] at hc'
    obtain ⟨first', rest', hfirst', hhead, -⟩ := List.map_eq_cons_iff.1 hc'.symm
    simp [hfirst, hfirst', hhead]

end Kind

/-! ### Exchanging neighbours -/

/-- What is put in the place of a part: for the first of the nodes that are given up, what is
placed, for the others nothing, and any other part stays. -/
def exchange (given placed : List NodeId) (c : NodeId) : List NodeId :=
  if given.head? = some c then placed else if c ∈ given then [] else [c]

theorem exchange_of_notMem (h : c ∉ given) : exchange given placed c = [c] := by
  have hhead : given.head? ≠ some c := fun hhead => h (List.mem_of_head? hhead)
  rw [exchange, if_neg hhead, if_neg h]

/-- What is there in the place of a part is the part itself or has been placed. -/
theorem eq_or_mem_of_mem_exchange (h : c ∈ exchange given placed a) : c = a ∨ c ∈ placed := by
  unfold exchange at h
  split at h
  · exact .inr h
  · split at h
    · cases h
    · exact .inl (List.mem_singleton.1 h)

theorem exchange_single : exchange [a] [new] c = [if c = a then new else c] := by
  by_cases h : c = a
  · simp [exchange, h]
  · simp [exchange, h, Ne.symm h]

/-- One part exchanged for one. -/
theorem Kind.graft_exchange_single (kind : Kind NodeId) :
    kind.graft (exchange [a] [new]) = kind.map fun c => if c = a then new else c := by
  rw [show exchange [a] [new] = fun c => [if c = a then new else c] from
    funext fun _ => exchange_single, graft_singletons]

/-- **Neighbours in a list** give way to what is placed. -/
theorem flatMap_exchange (hne : given ≠ []) (hnodup : (left ++ given ++ right).Nodup) :
    (left ++ given ++ right).flatMap (exchange given placed) = left ++ placed ++ right := by
  obtain ⟨first, rest, rfl⟩ := List.exists_cons_of_ne_nil hne
  obtain ⟨hfront, -, hback⟩ := List.nodup_append'.1 hnodup
  obtain ⟨-, hgiven, hleft⟩ := List.nodup_append'.1 hfront
  -- the first of the given nodes stands for all of them, and the others for nothing
  have hstay : ∀ l : List NodeId, (∀ c ∈ l, c ∉ first :: rest) →
      l.flatMap (exchange (first :: rest) placed) = l := fun l hl =>
    (List.flatMap_congr fun c hc => exchange_of_notMem (hl c hc)).trans (List.flatMap_singleton' l)
  have hrest : rest.flatMap (exchange (first :: rest) placed) = [] := by
    refine List.flatMap_eq_nil_iff.2 fun c hc => ?_
    have hother : first ≠ c := fun heq => (List.nodup_cons.1 hgiven).1 (heq ▸ hc)
    simp [exchange, hother, hc]
  rw [List.flatMap_append, List.flatMap_append, hstay left fun c hc hmem => hleft hc hmem,
    hstay right fun c hc hmem => hback (List.mem_append_right _ hmem) hc, List.flatMap_cons, hrest]
  simp [exchange]

namespace Tree

/-- **Grafting.** Outside of what is given up, layers are as they were, but that what is placed has
taken the place of what is given up. -/
def Grafted (tree next : Tree) (given placed : List NodeId) : Prop :=
  ∀ n, tree.Attached n → n ∉ given.flatMap tree.preorder →
    next.kind? n = (tree.kind? n).map (Kind.graft (exchange given placed))

/-- **Only one layer changes**, the one that links what is given up. -/
theorem Grafted.of_layer (hwf : tree.WellFormed) (hup : tree.Attached up)
    (hgiven : ∀ m ∈ given, m ∈ tree.parts up)
    (hothers : ∀ n, tree.Attached n → n ≠ up → n ∉ given.flatMap tree.preorder →
      next.kind? n = tree.kind? n)
    (hlayer : next.kind? up = (tree.kind? up).map (Kind.graft (exchange given placed))) :
    tree.Grafted next given placed := by
  intro n hn hout
  by_cases hnup : n = up
  · exact hnup ▸ hlayer
  · obtain ⟨kind, hkind⟩ := exists_kind_of_lt (hwf.lt_size hn)
    -- what is given up is linked from nowhere else
    have hself : kind.graft (exchange given placed) = kind := by
      refine Kind.graft_eq_self fun c hc => exchange_of_notMem fun hmem => hnup ?_
      exact hwf.linkedOnce.one_linker n up c hn hup (parts_eq_children hkind ▸ hc) (hgiven c hmem)
    rw [hothers n hn hnup hout, hkind, Option.map_some, hself]

end Tree

end LoopToStream
