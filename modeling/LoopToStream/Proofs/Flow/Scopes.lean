import LoopToStream.Proofs.Flow.Bounds
import LoopToStream.Proofs.Flow.Outside
import LoopToStream.Proofs.Tree.Printing

/-!
# Exits, read from the top

The flow query for exits decides each jump by itself: it goes up from the jump and looks for its
target. One can as well go down from the code and know at each place what is around it, whether
there is a loop and which labels there are (`Surroundings`). `Tree.exitsFromTop` is this reading,
which never looks up.

`Flow.exits_eq_fromTop` says that the two agree on every statement of a well-formed tree, unless it
is itself a jump. What carries the proof down is that the surroundings of a place are exactly the
targets between the code and the place (`Tree.Surrounds`). Surroundings do not say how often a label
occurs or how many loops there are, and need not: a jump only asks whether there is a target.
-/

namespace LoopToStream

variable {ι κ : Type}

/-! ### The reading -/

/-- What is around a place in the code, as far as jumps can end there. -/
structure Surroundings where
  inLoop : Bool
  labels : List String

namespace Surroundings

/-- Nothing is around the code as a whole. -/
def bare : Surroundings := ⟨false, []⟩

/-- What is around the parts of a layer. -/
def enter (around : Surroundings) : Kind ι → Surroundings
  | .stmt (.forEach _) => { around with inLoop := true }
  | .stmt (.whileLoop ..) => { around with inLoop := true }
  | .stmt (.labeled label _) => { around with labels := label :: around.labels }
  | _ => around

/-- A jump with this label, or without one, ends up at something that is around it. -/
def holds (around : Surroundings) : Option String → Bool
  | none => around.inLoop
  | some label => around.labels.contains label

/-- How the layer at an id leaves the code, if it does. -/
def leaving (around : Surroundings) (id : NodeId) : Kind ι → List (NodeId × Exit)
  | .stmt (.giveBack _) => [(id, .returns)]
  | .stmt (.throwValue _) => [(id, .throws)]
  | .stmt (.breakTo label) => if around.holds label then [] else [(id, .breaks)]
  | .stmt (.continueTo label) => if around.holds label then [] else [(id, .continues)]
  | _ => []

/-! What is around a layer does not depend on what its parts are. -/

theorem enter_map (around : Surroundings) (f : ι → κ) (kind : Kind ι) :
    around.enter (kind.map f) = around.enter kind := by
  cases kind with
  | stmt s => cases s <;> rfl
  | _ => rfl

theorem leaving_map (around : Surroundings) (id : NodeId) (f : ι → κ) (kind : Kind ι) :
    around.leaving id (kind.map f) = around.leaving id kind := by
  cases kind with
  | stmt s => cases s <;> rfl
  | _ => rfl

/-- A layer leaves the code at its own id, once at most. -/
theorem sublist_leaving (around : Surroundings) (id : NodeId) (kind : Kind ι) :
    ((around.leaving id kind).map Prod.fst).Sublist [id] := by
  unfold leaving
  split
  · exact .refl _
  · exact .refl _
  · split
    · exact List.nil_sublist _
    · exact .refl _
  · split
    · exact List.nil_sublist _
    · exact .refl _
  · exact List.nil_sublist _

end Surroundings

/-- A function literal or a method reference. -/
def Kind.isClosure (kind : Kind ι) : Bool := kind.expr?.any Expr.isClosure

theorem Kind.isClosure_map (f : ι → κ) (kind : Kind ι) :
    (kind.map f).isClosure = kind.isClosure := by
  cases kind with
  | expr e => cases e <;> rfl
  | _ => rfl

/-- The exits of a layer and of its parts, in this order, given those of the parts. All of them
depend on what is around them. The parts of a closure do not count. -/
def readExits (id : NodeId) (kind : Kind (Surroundings → List (NodeId × Exit))) :
    Surroundings → List (NodeId × Exit) := fun around =>
  around.leaving id kind ++
    if kind.isClosure then [] else kind.children.flatMap fun read => read (around.enter kind)

/-- **The exits of the code at an id**, as they are met on the way down. -/
def Tree.exitsFromTop (tree : Tree) (id : NodeId) : Lookup (List (NodeId × Exit)) := do
  return (← tree.bottomUp (fun id kind => return readExits id kind) id) .bare

/-! ### What is around a place -/

namespace Tree

variable {tree : Tree} {body a n id : NodeId} {kind : Kind NodeId} {around : Surroundings}

/-- **The surroundings of a place** in the code at `body`: the targets that are above the place, and
not above `body`. -/
def Surrounds (tree : Tree) (body id : NodeId) (around : Surroundings) : Prop :=
  ∀ label, around.holds label = true ↔
    ∃ a, tree.Reaches body a ∧ tree.StrictlyReaches a id ∧ tree.IsTarget label a

/-- Going into a layer adds the layer, if it is a target. -/
theorem holds_enter (here : tree.kind? id = some kind) (label : Option String) :
    (around.enter kind).holds label = true ↔
      tree.IsTarget label id ∨ around.holds label = true := by
  have hstmt : tree.stmt? id = kind.stmt? := by rw [stmt?, here, Option.bind_some]
  cases kind with
  | stmt s =>
    cases label with
    | none =>
      cases s <;> simp [IsTarget, hstmt, Kind.stmt?, Surroundings.enter, Surroundings.holds,
        Stmt.isLoop]
    | some label =>
      cases s with
      | labeled name inner =>
        simp [IsTarget, hstmt, Kind.stmt?, Surroundings.enter, Surroundings.holds,
          eq_comm (a := label)]
      | _ => simp [IsTarget, hstmt, Kind.stmt?, Surroundings.enter, Surroundings.holds]
  | _ =>
    cases label <;> simp [IsTarget, hstmt, Kind.stmt?, Surroundings.enter, Surroundings.holds]

namespace WellFormed

variable (hwf : tree.WellFormed) (hbody : tree.Attached body)
include hwf hbody

/-- Above the code, nothing counts. -/
theorem surrounds_top : tree.Surrounds body body .bare := by
  intro label
  have hnone : Surroundings.bare.holds label = false := by cases label <;> rfl
  rw [hnone]
  constructor
  · intro h
    cases h
  · rintro ⟨a, ha, hab, -⟩
    exact absurd (Relation.TransGen.trans_right ha hab) (hwf.linkedOnce.irrefl hbody)

/-- **One step down.** -/
theorem surrounds_part (hid : tree.Reaches body id) (here : tree.kind? id = some kind)
    (hn : n ∈ tree.parts id) (h : tree.Surrounds body id around) :
    tree.Surrounds body n (around.enter kind) := by
  intro label
  rw [holds_enter here, h label, ← exists_goesBy, ← exists_goesBy]
  simp [hwf.goesBy_part hbody hid hn, or_and_right, exists_or]

/-- Every place in the code has its surroundings. By induction on the way down. -/
theorem exists_surrounds (hn : tree.Reaches body n) :
    ∃ kind around, tree.kind? n = some kind ∧ tree.Surrounds body n around := by
  obtain ⟨kind, hkind⟩ := exists_kind_of_lt (hwf.lt_size (hbody.reaches hn))
  -- what is around the node is what is around the one above it, and that one itself
  induction hn generalizing kind with
  | refl => exact ⟨kind, .bare, hkind, hwf.surrounds_top hbody⟩
  | @tail p c hp hc ih =>
    obtain ⟨above, habove⟩ := exists_kind_of_lt (hwf.lt_size (hbody.reaches hp))
    obtain ⟨-, around, -, haround⟩ := ih above habove
    exact ⟨kind, _, hkind, hwf.surrounds_part hbody hp habove hc haround⟩

/-- **A node leaves the code as its surroundings say.** -/
theorem exitAt_eq (hjump : ∀ label, ¬ tree.IsJump label body) (hn : tree.Reaches body n)
    (here : tree.kind? n = some kind) (h : tree.Surrounds body n around) :
    Flow.exitAt tree body n = .ok (around.leaving n kind) := by
  -- a jump is below the code, and its target is found if it is around
  have hstays : ∀ label, tree.IsJump label n →
      Flow.staysInside tree body label n = .ok (around.holds label) := by
    intro label hlabel
    rcases reaches_iff_eq_or_strictly.1 hn with rfl | hstrict
    · exact absurd hlabel (hjump label)
    · rw [hwf.staysInside_eq hbody hstrict]
      simp [← h label]
  -- only statements leave code, and of these the jumps look for their target
  cases kind with
  | stmt s =>
    have hstmt := stmt?_eq_some.2 here
    cases s with
    | breakTo label =>
      rw [Flow.exitAt, hstmt]
      dsimp only
      rw [hstays label (.inl hstmt)]
      rfl
    | continueTo label =>
      rw [Flow.exitAt, hstmt]
      dsimp only
      rw [hstays label (.inr hstmt)]
      rfl
    | _ =>
      rw [Flow.exitAt, hstmt]
      rfl
  | _ =>
    have hstmt : tree.stmt? n = none := by rw [stmt?, here]; rfl
    rw [Flow.exitAt, hstmt]
    rfl

end WellFormed

/-! ### Agreement -/

theorem isClosure_eq (here : tree.kind? id = some kind) : tree.isClosure id = kind.isClosure := by
  rw [isClosure, expr?, here]
  rfl

/-- **The reading below a node** lists what there is at the nodes that are looked at, if each of
them leaves the code as its surroundings say. By induction on the code. -/
theorem Grounded.exists_read (hwf : tree.WellFormed) (hbody : tree.Attached body)
    {found : NodeId → List (NodeId × Exit)}
    (hfound : ∀ n kind around, tree.Reaches body n → tree.kind? n = some kind →
      tree.Surrounds body n around → found n = around.leaving n kind)
    (hg : tree.Grounded a) (ha : tree.Reaches body a) :
    ∃ read, tree.bottomUp (fun id kind => return readExits id kind) a = .ok read ∧
      ∀ around, tree.Surrounds body a around → (tree.outside a).flatMap found = read around := by
  induction hg with
  | @layer a kind here below ih =>
    -- the layer leaves the code by itself, and the parts are read with what it adds around them
    have hg : tree.Grounded a := .layer here below
    have hparts : tree.parts a = kind.children := parts_eq_children here
    have hbelow : ∀ c ∈ kind.children, ∃ read,
        tree.bottomUp (fun id kind => return readExits id kind) c = .ok read ∧
          ∀ around, tree.Surrounds body c around → (tree.outside c).flatMap found = read around :=
      fun c hc => ih c hc (ha.tail (hparts ▸ hc))
    -- the parts are read by the induction, each with the same surroundings
    choose! reads hreads hsame using hbelow
    refine ⟨readExits a (kind.map reads), ?_, fun around haround => ?_⟩
    · rw [hg.bottomUp_eq here, Kind.mapM_eq_ok hreads]
      rfl
    · have hentered : ∀ c ∈ kind.children,
          (tree.outside c).flatMap found = reads c (around.enter kind) := fun c hc =>
        hsame c hc _ (hwf.surrounds_part hbody ha here (hparts ▸ hc) haround)
      calc (tree.outside a).flatMap found
          -- the outside of the code is its top and the outside of the parts that are not below a
          -- closure
          _ = found a ++ (tree.openParts a).flatMap fun c => (tree.outside c).flatMap found := by
            rw [hg.outside_eq, List.flatMap_cons, List.flatMap_assoc]
          _ = around.leaving a kind ++ if kind.isClosure then []
                else kind.children.flatMap fun c => reads c (around.enter kind) := by
            -- the top leaves as its surroundings say, and each part has been read
            rw [hfound a kind around ha here haround, openParts, isClosure_eq here, hparts]
            split
            · rfl
            · rw [List.flatMap_congr hentered]
          _ = readExits a (kind.map reads) around := by
            rw [readExits, Surroundings.leaving_map, Surroundings.enter_map, Kind.isClosure_map,
              Kind.children_map, List.flatMap_map]

end Tree

/-- What is found at nodes, if it is at most the node itself, is found in their order. -/
theorem sublist_of_found {found : NodeId → List (NodeId × Exit)} {ids : List NodeId}
    (h : ∀ id ∈ ids, ((found id).map Prod.fst).Sublist [id]) :
    ((ids.flatMap found).map Prod.fst).Sublist ids := by
  have hall := List.Sublist.flatMap_right ids h
  rwa [List.flatMap_singleton', ← List.map_flatMap] at hall

/-- **The exits of a statement are those that are met on the way down.** The query finds them in
preorder, and each of them once. -/
theorem Flow.exits_eq_fromTop {tree : Tree} {body : NodeId} {s : Stmt NodeId}
    (hwf : tree.WellFormed) (hattached : tree.isAttached body = .ok true)
    (hstmt : tree.stmt? body = some s)
    (hjump : ∀ label, ¬ tree.IsJump label body) :
    ∃ exits, Flow.unbounded.exits tree body = .ok exits ∧ tree.exitsFromTop body = .ok exits ∧
      (exits.map Prod.fst).Sublist (tree.preorder body) ∧ (exits.map Prod.fst).Nodup := by
  have here := Tree.stmt?_eq_some.1 hstmt
  have hbody := (hwf.isAttached_eq_true (Tree.lt_size_of_kind? here)).1 hattached
  have hopen : tree.isClosure body = false := Tree.isClosure_eq here
  -- what there is at each node of the code
  obtain ⟨found, hexit, hfound⟩ : ∃ found : NodeId → List (NodeId × Exit),
      (∀ n, tree.Reaches body n → Flow.exitAt tree body n = .ok (found n)) ∧
      ∀ n kind around, tree.Reaches body n → tree.kind? n = some kind →
        tree.Surrounds body n around → found n = around.leaving n kind := by
    refine ⟨fun n => (Flow.exitAt tree body n).toOption.getD [], fun n hn => ?_,
      fun n kind around hn hkind haround => ?_⟩
    · obtain ⟨kind, around, hkind, haround⟩ := hwf.exists_surrounds hbody hn
      dsimp only
      rw [hwf.exitAt_eq hbody hjump hn hkind haround]
      rfl
    · dsimp only
      rw [hwf.exitAt_eq hbody hjump hn hkind haround]
      rfl
  -- what is found is found outside of closures, in the order of the walk
  have hbelow : ∀ n ∈ tree.outside body, tree.Reaches body n := fun n hn =>
    ((Tree.mem_outside_iff hopen).1 hn).reaches
  obtain ⟨read, hread, hsame⟩ := (hwf.grounded hbody).exists_read hwf hbody hfound (.refl body)
  have hlisted :
      (((tree.outside body).flatMap found).map Prod.fst).Sublist (tree.outside body) := by
    refine sublist_of_found fun n hn => ?_
    obtain ⟨kind, around, hkind, haround⟩ := hwf.exists_surrounds hbody (hbelow n hn)
    rw [hfound n kind around (hbelow n hn) hkind haround]
    exact around.sublist_leaving n kind
  have hpreorder := hlisted.trans (hwf.grounded hbody).outside_sublist
  refine ⟨(tree.outside body).flatMap found, ?_, ?_, hpreorder,
    hpreorder.nodup (hwf.nodup_preorder hbody)⟩
  · -- the query looks at these nodes one after the other
    rw [Flow.exits, Flow.queryOutsideClosures, Tree.preorderWhere_eq_outside hopen]
    exact Flow.look_unbounded 0 fun n hn =>
      ⟨hwf.lt_size (hbody.reaches (hbelow n hn)), hexit n (hbelow n hn)⟩
  · -- and reading from the top lists the same
    rw [Tree.exitsFromTop, hread, ok_bind, hsame .bare (hwf.surrounds_top hbody)]
    rfl

/-- The loop `b: for (String x : xs) { a: while (true) { break; break a; break b; } continue;
() -> { return; }; return; }`, as a tree. -/
def labeledLoops : Tree where
  nodes := #[
    ⟨.expr (.literal (.bool true)), some ⟨5⟩, Tree.placeOf 0⟩,
    ⟨.stmt (.breakTo none), some ⟨4⟩, Tree.placeOf 1⟩,
    ⟨.stmt (.breakTo (some "a")), some ⟨4⟩, Tree.placeOf 2⟩,
    ⟨.stmt (.breakTo (some "b")), some ⟨4⟩, Tree.placeOf 3⟩,
    ⟨.stmt (.block [⟨1⟩, ⟨2⟩, ⟨3⟩]), some ⟨5⟩, Tree.placeOf 4⟩,
    ⟨.stmt (.whileLoop ⟨0⟩ ⟨4⟩), some ⟨6⟩, Tree.placeOf 5⟩,
    ⟨.stmt (.labeled "a" ⟨5⟩), some ⟨13⟩, Tree.placeOf 6⟩,
    ⟨.stmt (.continueTo none), some ⟨13⟩, Tree.placeOf 7⟩,
    ⟨.stmt (.giveBack none), some ⟨9⟩, Tree.placeOf 8⟩,
    ⟨.stmt (.block [⟨8⟩]), some ⟨10⟩, Tree.placeOf 9⟩,
    ⟨.expr (.lambda [] false ⟨9⟩), some ⟨11⟩, Tree.placeOf 10⟩,
    ⟨.stmt (.expr ⟨10⟩), some ⟨13⟩, Tree.placeOf 11⟩,
    ⟨.stmt (.giveBack none), some ⟨13⟩, Tree.placeOf 12⟩,
    ⟨.stmt (.block [⟨6⟩, ⟨7⟩, ⟨11⟩, ⟨12⟩]), some ⟨15⟩, Tree.placeOf 13⟩,
    ⟨.expr (.name "xs" (some ⟨0⟩)), some ⟨15⟩, Tree.placeOf 14⟩,
    ⟨.stmt (.forEach ⟨⟨1⟩, some ⟨14⟩, some ⟨13⟩⟩), some ⟨16⟩, Tree.placeOf 15⟩,
    ⟨.stmt (.labeled "b" ⟨15⟩), none, Tree.placeOf 16⟩]
  vars := #[⟨"xs", .simple "List", .parameter, false⟩,
    ⟨"x", .simple "String", .loopParameter, false⟩]
  root := ⟨16⟩
  scope := .unknown
  revision := 0

/-- Labels outside of the body do not count, and neither does what a function literal does. -/
theorem exits_labeledLoops :
    Flow.unbounded.exits labeledLoops ⟨13⟩ =
      .ok [(⟨3⟩, .breaks), (⟨7⟩, .continues), (⟨12⟩, .returns)] := by
  have hwf : labeledLoops.WellFormed := .of_isInOrder (by decide)
  have hjump : ∀ label, ¬ labeledLoops.IsJump label ⟨13⟩ := by
    intro label hjump
    rcases hjump with hjump | hjump <;> cases hjump
  obtain ⟨exits, hquery, htop, -⟩ :=
    Flow.exits_eq_fromTop hwf (by cbv) (s := .block [⟨6⟩, ⟨7⟩, ⟨11⟩, ⟨12⟩]) rfl hjump
  have hread : labeledLoops.exitsFromTop ⟨13⟩ =
      .ok [(⟨3⟩, .breaks), (⟨7⟩, .continues), (⟨12⟩, .returns)] := by cbv
  obtain rfl := Except.ok.inj (htop.symm.trans hread)
  exact hquery

end LoopToStream
