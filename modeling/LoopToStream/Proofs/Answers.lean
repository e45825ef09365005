import LoopToStream.Tree.Query

/-!
# Answers that are there

`Lookup` and `Attempt ε` are answers that may be missing. The lemmas here say when an answer
composed of several is there: each of the parts has to be (`bind_eq_ok`), a lookup inside of an
attempt is as good as on its own (`Attempt.liftM_eq_ok`), and a link that leads to a node of
the table is followed (`Tree.kind_of_kind?` and its companions). An attempt that may be declined
but does not get lost is `Attempt.Answered`.
-/

namespace LoopToStream

variable {α β : Type} {ε : Type}

/-! ### Composed answers -/

/-- A composed answer is there if each of its parts is. -/
theorem bind_eq_ok {x : Except ε α} {f : α → Except ε β} {b : β} :
    (x >>= f) = .ok b ↔ ∃ a, x = .ok a ∧ f a = .ok b := by
  cases x with
  | error e => simp [bind, Except.bind]
  | ok a => simp [bind, Except.bind]

@[simp] theorem ok_bind {a : α} {f : α → Except ε β} : (Except.ok a >>= f) = f a := rfl

@[simp] theorem error_bind {e : ε} {f : α → Except ε β} : (Except.error e >>= f) = .error e := rfl

@[simp] theorem pure_eq_ok {a : α} : (pure a : Except ε α) = .ok a := rfl

@[simp] theorem map_ok {a : α} {f : α → β} : f <$> (Except.ok a : Except ε α) = .ok (f a) := rfl

/-- Running a function on a list gives the list of its answers. -/
theorem mapM_eq_ok {f : α → Except ε β} {g : α → β} {l : List α} (h : ∀ a ∈ l, f a = .ok (g a)) :
    l.mapM f = .ok (l.map g) := by
  induction l with
  | nil => rfl
  | cons a l ih =>
    rw [List.mapM_cons, h a (by simp), ih fun x hx => h x (by simp [hx])]
    rfl

/-- A list of answers, each of them as it should be. -/
theorem exists_mapM_eq_ok {f : α → Except ε β} {P : β → Prop} {l : List α}
    (h : ∀ a ∈ l, ∃ b, f a = .ok b ∧ P b) : ∃ bs, l.mapM f = .ok bs ∧ ∀ b ∈ bs, P b := by
  induction l with
  | nil => exact ⟨[], rfl, by simp⟩
  | cons a l ih =>
    obtain ⟨b, hb, hPb⟩ := h a (by simp)
    obtain ⟨bs, hbs, hall⟩ := ih fun x hx => h x (by simp [hx])
    exact ⟨b :: bs, by simp [List.mapM_cons, hb, hbs], by simpa using ⟨hPb, hall⟩⟩

/-- If all answers are there, each of them is. -/
theorem exists_of_mapM_eq_ok {f : α → Except ε β} {l : List α} {bs : List β}
    (h : l.mapM f = .ok bs) : ∀ a ∈ l, ∃ b ∈ bs, f a = .ok b := by
  induction l generalizing bs with
  | nil => simp
  | cons a l ih =>
    rw [List.mapM_cons] at h
    -- the answers come in the order of the questions, the first for the first
    obtain ⟨b, hb, h⟩ := bind_eq_ok.1 h
    obtain ⟨rest, hrest, h⟩ := bind_eq_ok.1 h
    cases h
    intro x hx
    rcases List.mem_cons.1 hx with rfl | hx
    · exact ⟨b, List.mem_cons_self, hb⟩
    · obtain ⟨answer, hanswer, hfx⟩ := ih hrest x hx
      exact ⟨answer, List.mem_cons_of_mem _ hanswer, hfx⟩

/-- And each of the answers is one of them. -/
theorem exists_of_mem_mapM {f : α → Except ε β} {l : List α} {bs : List β}
    (h : l.mapM f = .ok bs) : ∀ b ∈ bs, ∃ a ∈ l, f a = .ok b := by
  induction l generalizing bs with
  | nil =>
    cases h
    simp
  | cons a l ih =>
    rw [List.mapM_cons] at h
    obtain ⟨b, hb, h⟩ := bind_eq_ok.1 h
    obtain ⟨rest, hrest, h⟩ := bind_eq_ok.1 h
    cases h
    intro x hx
    rcases List.mem_cons.1 hx with rfl | hx
    · exact ⟨a, List.mem_cons_self, hb⟩
    · obtain ⟨c, hc, hfc⟩ := ih hrest x hx
      exact ⟨c, List.mem_cons_of_mem _ hc, hfc⟩

/-- Filtering by a test whose answers are known. -/
theorem filterM_eq_ok {f : α → Except ε Bool} {p : α → Bool} {l : List α}
    (h : ∀ a ∈ l, f a = .ok (p a)) : l.filterM f = .ok (l.filter p) := by
  -- what has been kept so far stands in reverse in front
  have haux : ∀ l : List α, (∀ a ∈ l, f a = .ok (p a)) → ∀ kept : List α,
      l.filterAuxM f kept = .ok ((l.filter p).reverse ++ kept) := by
    intro l
    induction l with
    | nil => intro _ kept; rfl
    | cons a l ih =>
      intro h kept
      rw [List.filterAuxM, h a (by simp), ok_bind, ih fun x hx => h x (by simp [hx])]
      cases hp : p a <;> simp [hp]
  rw [List.filterM, haux l h]
  simp

/-- Asking for some member that passes a test whose answers are known. -/
theorem anyM_eq_ok {f : α → Except ε Bool} {p : α → Bool} {l : List α}
    (h : ∀ a ∈ l, f a = .ok (p a)) : l.anyM f = .ok (l.any p) := by
  induction l with
  | nil => rfl
  | cons a l ih =>
    rw [List.anyM, h a (by simp), ok_bind]
    -- the rest is asked about only if the first fails the test
    cases hp : p a
    · rw [List.any_cons, hp, Bool.false_or]
      exact ih fun x hx => h x (by simp [hx])
    · simp [hp]

/-- Where no member passes a test, each of them has failed it. -/
theorem anyM_eq_false {f : α → Except ε Bool} {l : List α} (h : l.anyM f = .ok false) :
    ∀ a ∈ l, f a = .ok false := by
  induction l with
  | nil => simp
  | cons a l ih =>
    rw [List.anyM] at h
    obtain ⟨b, hb, h⟩ := bind_eq_ok.1 h
    cases b with
    | true => cases h
    | false => simpa using ⟨hb, ih h⟩

/-- Answers that are there decide a test. -/
theorem exists_test {f : α → Except ε Bool} {l : List α} (h : ∀ a ∈ l, ∃ b, f a = .ok b) :
    ∃ p : α → Bool, ∀ a ∈ l, f a = .ok (p a) := by
  refine ⟨fun a => (f a).toOption.getD false, fun a ha => ?_⟩
  obtain ⟨b, hb⟩ := h a ha
  simp [hb, Except.toOption]

/-! ### Composed answers that agree -/

/-- What is made of an answer matters where there is one. -/
theorem bind_congr_of_ok {x : Except ε α} {f g : α → Except ε β} (h : ∀ a, x = .ok a → f a = g a) :
    (x >>= f) = (x >>= g) := by
  cases x with
  | error e => rfl
  | ok a => exact h a rfl

theorem mapM_congr_of_mem {f g : α → Except ε β} {l : List α} (h : ∀ a ∈ l, f a = g a) :
    l.mapM f = l.mapM g := by
  induction l with
  | nil => rfl
  | cons a l ih =>
    rw [List.mapM_cons, List.mapM_cons, h a (by simp), ih fun x hx => h x (by simp [hx])]

theorem anyM_congr_of_mem {f g : α → Except ε Bool} {l : List α} (h : ∀ a ∈ l, f a = g a) :
    l.anyM f = l.anyM g := by
  induction l with
  | nil => rfl
  | cons a l ih => rw [List.anyM, List.anyM, h a (by simp), ih fun x hx => h x (by simp [hx])]

theorem foldlM_congr_of_mem {f g : β → α → Except ε β} {l : List α}
    (h : ∀ a ∈ l, ∀ b, f b a = g b a) (b : β) : l.foldlM f b = l.foldlM g b := by
  induction l generalizing b with
  | nil => rfl
  | cons a l ih =>
    rw [List.foldlM_cons, List.foldlM_cons, h a (by simp)]
    exact bind_congr_of_ok fun b _ => ih (fun x hx => h x (by simp [hx])) b

namespace Attempt

@[simp] theorem liftM_ok (a : α) : (liftM (.ok a : Lookup α) : Attempt ε α) = .ok a := rfl

@[simp] theorem liftM_error (ref : Dangling) :
    (liftM (.error ref : Lookup α) : Attempt ε α) = .error (.dangling ref) := rfl

theorem liftM_eq_ok {x : Lookup α} {a : α} : (liftM x : Attempt ε α) = .ok a ↔ x = .ok a := by
  cases x <;> simp

/-- Lookups on the members of a list. -/
theorem mapM_liftM_eq_ok {f : β → Lookup α} {l : List β} {as : List α} :
    l.mapM (fun b => (liftM (f b) : Attempt ε α)) = .ok as ↔ l.mapM f = .ok as := by
  -- lifting each answer is lifting the list of them
  have hlift : l.mapM (fun b => (liftM (f b) : Attempt ε α)) = liftM (l.mapM f) := by
    induction l with
    | nil => rfl
    | cons b l ih =>
      rw [List.mapM_cons, List.mapM_cons, ih]
      cases f b with
      | error ref => rfl
      | ok a => cases l.mapM f <;> rfl
  rw [hlift, liftM_eq_ok]

theorem settle_eq_ok {x : Attempt ε α} {a : α} : x.settle = .ok (.ok a) ↔ x = .ok a := by
  match x with
  | .ok b => simp
  | .error (.because reason) => simp [settle]
  | .error (.dangling ref) => simp [settle]

theorem mapReason_eq_ok {ε' : Type} {f : ε → ε'} {x : Attempt ε α} {a : α} :
    x.mapReason f = .ok a ↔ x = .ok a := by
  match x with
  | .ok b => simp
  | .error (.because reason) => simp [mapReason]
  | .error (.dangling ref) => simp [mapReason]

/-! ### Attempts that do not get lost -/

/-- The attempt meets no dangling reference, and an answer of it is as it should be. -/
def Answered (x : Attempt ε α) (P : α → Prop) : Prop :=
  match x with
  | .ok a => P a
  | .error (.because _) => True
  | .error (.dangling _) => False

namespace Answered

variable {x : Attempt ε α} {P Q : α → Prop}

@[simp] theorem ok_iff {a : α} : Answered (.ok a : Attempt ε α) P ↔ P a := Iff.rfl

@[simp] theorem pure_iff {a : α} : Answered (pure a : Attempt ε α) P ↔ P a := Iff.rfl

@[simp] theorem refuse (reason : ε) : Answered (LoopToStream.refuse reason : Attempt ε α) P :=
  trivial

theorem mono (h : x.Answered P) (hPQ : ∀ a, P a → Q a) : x.Answered Q := by
  match x with
  | .ok a => exact hPQ a h
  | .error (.because _) => trivial

/-- An answer of an attempt is known to be one. -/
theorem eq_ok (h : x.Answered P) : x.Answered fun a => x = .ok a := by
  match x with
  | .ok a => rfl
  | .error (.because _) => trivial

/-- Attempts one after the other. -/
theorem bind {f : α → Attempt ε β} {R : β → Prop} (h : x.Answered P)
    (hf : ∀ a, P a → (f a).Answered R) : (x >>= f).Answered R := by
  match x with
  | .ok a => exact hf a h
  | .error (.because _) => trivial

/-- A lookup that does not get lost. -/
theorem lift {y : Lookup α} (h : ∃ a, y = .ok a ∧ P a) : (liftM y : Attempt ε α).Answered P := by
  obtain ⟨a, rfl, ha⟩ := h
  exact ha

theorem mapReason {ε' : Type} {f : ε → ε'} (h : x.Answered P) : (x.mapReason f).Answered P := by
  match x with
  | .ok a => exact h
  | .error (.because _) => trivial

/-- Attempts on the members of a list. -/
theorem mapM {f : β → Attempt ε α} {l : List β} (h : ∀ b ∈ l, (f b).Answered P) :
    (l.mapM f).Answered fun answers => ∀ a ∈ answers, P a := by
  induction l with
  | nil => simp
  | cons b l ih =>
    rw [List.mapM_cons]
    refine (h b (by simp)).bind fun a ha =>
      (ih fun x hx => h x (by simp [hx])).bind fun as has => ?_
    simpa using ⟨ha, has⟩

/-- An attempt that does not get lost can be settled. -/
theorem exists_settle (h : x.Answered P) : ∃ answer, x.settle = .ok answer := by
  match x with
  | .ok a => exact ⟨_, rfl⟩
  | .error (.because _) => exact ⟨_, rfl⟩

end Answered

end Attempt

@[simp] theorem refuse_ne_ok {reason : ε} {a : α} :
    (refuse reason : Attempt ε α) ≠ .ok a := by
  simp [refuse]

@[simp] theorem refuse_bind {reason : ε} {f : α → Attempt ε β} :
    (refuse reason >>= f : Attempt ε β) = refuse reason := rfl

theorem ite_refuse_eq_ok {c : Prop} [Decidable c] {reason : ε} {x : Attempt ε α} {a : α} :
    (if c then refuse reason else x) = .ok a ↔ ¬ c ∧ x = .ok a := by
  split <;> simp_all

/-! ### Links that lead to a node -/

namespace Tree

variable {tree : Tree} {id p c : NodeId} {kind : Kind NodeId}

theorem kind?_eq_some : tree.kind? id = some kind ↔
    ∃ node, tree.node? id = some node ∧ node.kind = kind :=
  Option.map_eq_some_iff

theorem kind?_isSome : (tree.kind? id).isSome ↔ id.index < tree.size := by
  simp [kind?, node?, size]

theorem exists_kind_of_lt (h : id.index < tree.size) : ∃ kind, tree.kind? id = some kind :=
  Option.isSome_iff_exists.1 (kind?_isSome.2 h)

theorem lt_size_of_kind? (h : tree.kind? id = some kind) : id.index < tree.size :=
  kind?_isSome.1 (by simp [h])

theorem node_of_lt (h : id.index < tree.size) :
    ∃ node, tree.node? id = some node ∧ tree.node id = .ok node := by
  have hnode : tree.node? id = some tree.nodes[id.index] := Array.getElem?_eq_getElem h
  exact ⟨_, hnode, tree.node_eq_ok.2 hnode⟩

theorem kind_of_kind? (h : tree.kind? id = some kind) : tree.kind id = .ok kind := by
  obtain ⟨node, hnode, rfl⟩ := kind?_eq_some.1 h
  simp [Tree.kind, (tree.node_eq_ok).2 hnode]

theorem parts_eq_children (h : tree.kind? id = some kind) : tree.parts id = kind.children := by
  simp [parts, h]

theorem exists_span (h : id.index < tree.size) : ∃ place, tree.span id = .ok place := by
  obtain ⟨node, -, hok⟩ := node_of_lt h
  exact ⟨node.span, by simp [span, hok]⟩

theorem stmt?_eq_some {s : Stmt NodeId} :
    tree.stmt? id = some s ↔ tree.kind? id = some (.stmt s) := by
  cases h : tree.kind? id with
  | none => simp [stmt?, h]
  | some k => cases k <;> simp [stmt?, h, Kind.stmt?]

theorem expr?_eq_some {e : Expr NodeId} :
    tree.expr? id = some e ↔ tree.kind? id = some (.expr e) := by
  cases h : tree.kind? id with
  | none => simp [expr?, h]
  | some k => cases k <;> simp [expr?, h, Kind.expr?]

theorem comment?_eq_some {text : String} :
    tree.comment? id = some text ↔ tree.kind? id = some (.comment text) := by
  cases h : tree.kind? id with
  | none => simp [comment?, h]
  | some k => cases k <;> simp [comment?, h, Kind.comment?]

theorem forEach?_eq_some {loop : ForEach NodeId} :
    tree.forEach? id = some loop ↔ tree.kind? id = some (.stmt (.forEach loop)) := by
  rw [forEach?, ← stmt?_eq_some]
  cases h : tree.stmt? id with
  | none => simp
  | some s => cases s <;> simp [Stmt.forEach?]

theorem call?_eq_some {call : Call NodeId} :
    tree.call? id = some call ↔ tree.kind? id = some (.expr (.call call)) := by
  rw [call?, ← expr?_eq_some]
  cases h : tree.expr? id with
  | none => simp
  | some e => cases e <;> simp [Expr.call?]

theorem var_of_lt {v : VarId} (h : v.index < tree.vars.size) :
    tree.var v = .ok tree.vars[v.index] := by
  simp [var, h]

/-- The node that links a node, where the table has the node. -/
def parent? (tree : Tree) (id : NodeId) : Option NodeId := (tree.node? id).bind Node.parent

theorem parent_of_lt (h : id.index < tree.size) : tree.parent id = .ok (tree.parent? id) := by
  obtain ⟨node, hnode, hok⟩ := node_of_lt h
  simp [parent, parent?, hnode, hok]

theorem parent?_of_size_le (h : tree.size ≤ id.index) : tree.parent? id = none := by
  have : tree.node? id = none := Array.getElem?_eq_none h
  simp [parent?, this]

/-- All of some ids name nodes. -/
theorem allFound_eq_ok {ids : List NodeId} (h : ∀ id ∈ ids, id.index < tree.size) :
    tree.allFound ids = .ok ids := by
  -- all that the walk does is to fail at an id without a node, and there is none
  have hunit : forM ids (fun id => discard (tree.node id)) = (.ok ⟨⟩ : Lookup PUnit) := by
    induction ids with
    | nil => rfl
    | cons id ids ih =>
      obtain ⟨node, -, hok⟩ := node_of_lt (h id (by simp))
      rw [List.forM_cons, hok]
      exact ih fun x hx => h x (by simp [hx])
  rw [allFound, List.forM_eq_forM, hunit]
  rfl

end Tree

end LoopToStream
