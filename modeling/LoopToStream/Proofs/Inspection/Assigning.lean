import LoopToStream.Proofs.Inspection.Failing
import LoopToStream.Proofs.Pipeline.Meaning
import LoopToStream.Proofs.Symbols.Hierarchy

/-!
# Whether what is collected can be assigned

A loop that is folded into a declaration leaves the declared type as it is and gives the variable
what a collector makes. The collector is chosen by the created class alone
(`Pipeline.collectorFor`): a list for `ArrayList`, a set for `HashSet`, and for anything else a
collection that the creation itself supplies.

What can be assigned is decided by the declared class. It is a collection, as the loop adds to it
(`Accumulation.isSubtype_collection`), and hence a list can be assigned where the declared class is
`List` or `Collection`. Where the created collection could be assigned, so can the collected one,
unless the declared class is the created one (`Inspector.assignable_iff_of_folded`). In that case
the new declaration is ill-typed, and is written nevertheless (`Inspector.arrayListLoop_folded`).
-/

namespace LoopToStream

/-- **What a collector makes**, as far as is known: `toList()` makes a `List` of some class, and
`toSet()` a `Set`. -/
def Collector.class? : Collector → Option String
  | .list => some "List"
  | .set => some "Set"
  | .custom _ => none

namespace Pipeline

variable {analyzer : Analyzer} {tree next : Tree} {style : CollectorStyle} {candidate : Candidate}
  {ending : Ending} {typed : Bool} {replacement init : NodeId} {made : ClassType} {cls : String}

/-- The created class is a class of such collections, and neither their class nor that of all
collections. -/
theorem class_of_collectorFor (h : (collectorFor made init).class? = some cls) :
    Hierarchy.standard.supertypes? cls = some ["Collection"] ∧
      Hierarchy.standard.supertypes? made.name = some [cls] ∧
      made.name ≠ cls ∧ made.name ≠ "Collection" := by
  unfold collectorFor at h
  -- two sorts of collections are collected into an interface
  split at h
  · next hname =>
    cases h
    rw [hname]
    exact ⟨rfl, rfl, by decide, by decide⟩
  · split at h
    · next hname =>
      cases h
      rw [hname]
      exact ⟨rfl, rfl, by decide, by decide⟩
    · cases h

/-- **A loop has been folded into a declaration**: the variable was declared with the creation of an
empty collection, and is declared with the chain that is collected by the collector for it. -/
structure FoldedInto (tree : Tree) (style : CollectorStyle) (next : Tree) (declaration : NodeId)
    (var : VarId) (made : ClassType) (collector : Collector) : Prop where
  before : ∃ init target, tree.kind? declaration = some (.stmt (.declare var (some init))) ∧
    tree.kind? init = some (.expr (.create ⟨made, [], target⟩)) ∧ collector = collectorFor made init
  after : ∃ value, next.kind? declaration = some (.stmt (.declare var (some value)))
  text : ∃ chain maker text, Spelling.collector tree style collector = .ok maker ∧
    Spelling.declaration tree declaration (Spelling.call chain "collect" maker) = .ok text ∧
    next.text declaration = .ok text

/-- What a loop is folded into is written with the type that is declared. -/
theorem exists_collect_text {collector : Collector} {fold : Fold} {text : String}
    (hterminal : ending.terminal = .collect collector) (hfold : ending.fold = some fold)
    (h : Spelling.whole tree style candidate ending typed = .ok text) :
    ∃ chain maker, Spelling.collector tree style collector = .ok maker ∧
      Spelling.declaration tree fold.declaration (Spelling.call chain "collect" maker) =
        .ok text := by
  obtain ⟨statement, hstatement, h⟩ := bind_eq_ok.1 h
  rw [hfold] at h
  cases h
  obtain ⟨chain, -, hstatement⟩ := bind_eq_ok.1 hstatement
  simp only [hterminal, hfold] at hstatement
  obtain ⟨maker, hmaker, hdeclaration⟩ := bind_eq_ok.1 hstatement
  exact ⟨chain, maker, hmaker, hdeclaration⟩

theorem Planned.exists_foldedInto {plan : Pipeline} {fold : Fold}
    (h : Planned analyzer tree candidate ending plan)
    (hinstalled : Installed tree style candidate ending typed replacement next)
    (hfold : ending.fold = some fold) :
    ∃ accumulation var made collector, candidate.action = .accumulate accumulation ∧
      accumulation.target = .variable var ∧
      FoldedInto tree style next replacement var made collector := by
  obtain ⟨accumulation, var, collector, haction, htarget, hterminal, hsite⟩ :=
    h.ends.exists_site hfold
  have hkind : candidate.kind = .accumulation := by rw [Candidate.kind, haction]; rfl
  have hhere : fold.declaration = replacement :=
    hinstalled.folded_eq _ (by simp [foldedInto, hfold])
  obtain ⟨collected, chain, -, -, hdeclares⟩ := hinstalled.collects hkind
  obtain ⟨text, hspelled, hprints⟩ := hinstalled.text
  obtain ⟨front, maker, hmaker, hdeclaration⟩ := exists_collect_text hterminal hfold hspelled
  obtain ⟨v, init', hdeclared, hafter⟩ := hdeclares fold hfold
  -- the only site that a pipeline is folded into is a declaration with a creation
  cases hsite with
  | @declared up declaration init left right made target up_attached block here creation =>
    obtain rfl : declaration = replacement := hhere
    obtain ⟨rfl, -⟩ : v = var ∧ init' = init := by simpa using hdeclared.symm.trans here
    exact ⟨accumulation, v, made, _, haction, htarget, ⟨init, target, here, creation, rfl⟩,
      ⟨collected, hafter⟩, front, maker, text, hmaker, hdeclaration, hprints.text_eq⟩

end Pipeline

/-- **What is added to is a collection**, by the class that it is declared to be of. -/
theorem Accumulation.isSubtype_collection {analyzer : Analyzer} {tree : Tree} {chain : GuardChain}
    {accumulation : Accumulation} {var : VarId} (h : of analyzer tree chain = .ok accumulation)
    (htarget : accumulation.target = .variable var) :
    ∃ declared, tree.var var = .ok declared ∧
      analyzer.symbols.hierarchy.isSubtype declared.type.name "Collection" = true := by
  obtain ⟨-, className, -, -, hclass, hcollection, -⟩ := of_eq_ok h
  obtain ⟨q, hq, -⟩ := (found_of_eq_ok h).target var htarget
  rw [hq] at hclass
  obtain ⟨-, v, declared, hv, -, hdeclared, rfl⟩ := targetOf_some_eq_ok hclass
  obtain rfl : v = var := by simpa [hv] using htarget
  exact ⟨declared, hdeclared, hcollection⟩

namespace Inspector

open Pipeline (FoldedInto)

/-- **When a loop has been folded into a declaration**, and its collector makes lists, a list can be
assigned to the variable if and only if the declared class is `List` or `Collection`; the same holds
for sets. If the created collection could be assigned, the collected one cannot in one case only,
where the declared class is the created one. -/
theorem assignable_iff_of_folded (inspector : Inspector) {tree next : Tree} {finding : Finding}
    {outcome : Outcome} (hclasses : Hierarchy.standard.Extends inspector.analyzer.symbols.hierarchy)
    (hwf : tree.WellFormed) (happly : inspector.apply finding tree = .ok outcome next)
    (hfolded : outcome.folded = true) :
    ∃ var declared made collector,
      FoldedInto tree inspector.options.collectorStyle next outcome.replacement var made collector ∧
      tree.var var = .ok declared ∧
      ∀ cls, collector.class? = some cls →
        (inspector.analyzer.symbols.hierarchy.isSubtype cls declared.type.name = true ↔
          declared.type.name = cls ∨ declared.type.name = "Collection") ∧
        (inspector.analyzer.symbols.hierarchy.isSubtype made.name declared.type.name = true →
          (inspector.analyzer.symbols.hierarchy.isSubtype cls declared.type.name = true ↔
            declared.type.name ≠ made.name)) := by
  -- an application that goes through has a plan, and a folded outcome a declaration
  obtain ⟨candidate, ending, -, -, -, -, happlied⟩ :=
    applied_of_apply hwf (isAttached_of_apply happly) happly
  obtain ⟨plan, hplanned⟩ := happlied.planned
  obtain ⟨fold, hfold⟩ := Option.isSome_iff_exists.1 (happlied.folded_eq ▸ hfolded)
  obtain ⟨accumulation, var, made, collector, haction, htarget, hinto⟩ :=
    hplanned.exists_foldedInto happlied.installed hfold
  have hchecked := LoopAction.accumulation_of_eq_ok (haction ▸ hplanned.found.action_eq)
  obtain ⟨declared, hdeclared, hcollection⟩ := Accumulation.isSubtype_collection hchecked htarget
  refine ⟨var, declared, made, collector, hinto, hdeclared, fun cls hcls => ?_⟩
  obtain ⟨init, target, -, -, rfl⟩ := hinto.before
  obtain ⟨hinterface, hmade, hne, hne'⟩ := Pipeline.class_of_collectorFor hcls
  have hassign := hclasses.isSubtype_interface_iff hinterface hcollection
  -- the created class has three classes above it, one of which is its own
  refine ⟨hassign, fun hcreated => ⟨fun hcollected heq => ?_, fun hother => ?_⟩⟩
  · rw [hassign, heq] at hcollected
    exact hcollected.elim hne hne'
  · exact ((hclasses.isSubtype_made_iff hinterface hmade).1 hcreated).resolve_left hother

/-- The list that `collectingLoop` collects can be assigned to `ys`, which is declared as a `List`.
-/
theorem assignable_collectingLoop :
    ∃ finding outcome next,
      Inspector.inspect ⟨Pipeline.knowingAdd, .standard⟩ Pipeline.collectingLoop ⟨10⟩ =
        .ok finding ∧
      Inspector.apply ⟨Pipeline.knowingAdd, .standard⟩ finding Pipeline.collectingLoop =
        .ok outcome next ∧
      FoldedInto Pipeline.collectingLoop .qualified next outcome.replacement ⟨2⟩
        (.simple "ArrayList") .list ∧
      Hierarchy.standard.isSubtype "List" "List" = true := by
  obtain ⟨finding, outcome, next, hreported, happly, hfolded, hhere⟩ : ∃ finding outcome next,
      Inspector.inspect ⟨Pipeline.knowingAdd, .standard⟩ Pipeline.collectingLoop ⟨10⟩ =
        .ok finding ∧
        Inspector.apply ⟨Pipeline.knowingAdd, .standard⟩ finding Pipeline.collectingLoop =
          .ok outcome next ∧ outcome.folded = true ∧ outcome.replacement = ⟨1⟩ :=
    ⟨_, _, _, by cbv, by cbv, by cbv, by cbv⟩
  obtain ⟨var, declared, made, collector, hinto, hdeclared, hassign⟩ :=
    assignable_iff_of_folded ⟨Pipeline.knowingAdd, .standard⟩ (fun _ _ h => h)
      (.of_isInOrder (by decide)) happly hfolded
  -- what has been declared, and with which creation, is read off the tree
  obtain ⟨init, target, hdeclares, hcreates, rfl⟩ := hinto.before
  rw [hhere] at hdeclares
  cases hdeclares
  cases hcreates
  cases hdeclared
  exact ⟨finding, outcome, next, hreported, happly, hinto,
    ((hassign "List" rfl).2 (by cbv)).2 (by decide)⟩

/-- The statements `ArrayList ys = new ArrayList(); for (String x : xs) ys.add(x);`, as a block. -/
def arrayListLoop : Tree where
  nodes := #[
    ⟨.expr (.create ⟨.simple "ArrayList", [], none⟩), some ⟨1⟩, Tree.placeOf 0⟩,
    ⟨.stmt (.declare ⟨2⟩ (some ⟨0⟩)), some ⟨8⟩, Tree.placeOf 1⟩,
    ⟨.expr (.name "xs" (some ⟨0⟩)), some ⟨7⟩, Tree.placeOf 2⟩,
    ⟨.expr (.name "ys" (some ⟨2⟩)), some ⟨5⟩, Tree.placeOf 3⟩,
    ⟨.expr (.name "x" (some ⟨1⟩)), some ⟨5⟩, Tree.placeOf 4⟩,
    ⟨.expr (.call ⟨some ⟨3⟩, "add", [⟨4⟩], some ⟨1⟩⟩), some ⟨6⟩, Tree.placeOf 5⟩,
    ⟨.stmt (.expr ⟨5⟩), some ⟨7⟩, Tree.placeOf 6⟩,
    ⟨.stmt (.forEach ⟨⟨1⟩, some ⟨2⟩, some ⟨6⟩⟩), some ⟨8⟩, Tree.placeOf 7⟩,
    ⟨.stmt (.block [⟨1⟩, ⟨7⟩]), none, Tree.placeOf 8⟩]
  vars := #[⟨"xs", .simple "List", .parameter, false⟩,
    ⟨"x", .simple "String", .loopParameter, false⟩,
    ⟨"ys", .simple "ArrayList", .localVariable, false⟩]
  root := ⟨8⟩
  scope := .unknown
  revision := 0

/-- **A list is assigned to an `ArrayList`**, where the loop is folded into its declaration. -/
theorem arrayListLoop_folded :
    arrayListLoop.WellFormed ∧ ∃ finding outcome next,
      Inspector.inspect ⟨Pipeline.knowingAdd, .standard⟩ arrayListLoop ⟨7⟩ = .ok finding ∧
      finding.kind = .accumulation ∧
      Inspector.apply ⟨Pipeline.knowingAdd, .standard⟩ finding arrayListLoop = .ok outcome next ∧
      outcome.folded = true ∧
      next.text outcome.replacement =
        .ok "ArrayList ys = xs.stream().collect(Collectors.toList());" ∧
      Hierarchy.standard.isSubtype "ArrayList" "ArrayList" = true ∧
      Hierarchy.standard.isSubtype "List" "ArrayList" = false := by
  refine ⟨.of_isInOrder (by decide), _, _, _,
    by cbv, by cbv, by cbv, by cbv, by cbv, by cbv, by cbv⟩

end Inspector

end LoopToStream
