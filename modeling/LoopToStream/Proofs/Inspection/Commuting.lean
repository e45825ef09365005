import LoopToStream.Proofs.Inspection.Applying
import LoopToStream.Proofs.Pipeline.Commuting

/-!
# Loops beside each other

Converting a loop changes the tree around other loops: statements are given up, comments and
function literals come in, and a declaration may get another initial value. A loop beside it does
not notice, as long as it does not refer to the parameter that has become one of function literals.
It is reported as before, or turned down for the same reason (`Inspector.commutes_of_beside`), and
if both loops can be converted, the order in which it is done does not show in the source.
-/

namespace LoopToStream

open Pipeline (Planned Installed endingOf given placed lines foldedInto)

namespace Tree

variable {tree : Tree} {v : VarId} {a : NodeId}

/-- Nothing outside of some code refers to a variable. -/
def StaysWithin (tree : Tree) (v : VarId) (a : NodeId) : Prop :=
  ∀ n, tree.Attached n → (tree.expr? n).bind Expr.var? = some v → tree.Reaches a n

theorem staysWithin_iff_preorder :
    tree.StaysWithin v a ↔ ∀ n ∈ tree.preorder tree.root,
      (tree.expr? n).bind Expr.var? = some v → n ∈ tree.preorder a := by
  simp only [StaysWithin, mem_preorder_iff, Attached]

end Tree

namespace Inspector

variable {inspector : Inspector} {tree mid other last : Tree} {loop : NodeId} {finding : Finding}
  {candidate candidate' : Candidate} {ending ending' : Pipeline.Ending}
  {outcome outcome' outcome'' : Outcome}

namespace Applied

variable (h : Applied inspector tree candidate ending outcome mid)
include h

/-- **A loop beside the one that has been converted is left alone.** -/
theorem undisturbed {found : ForEach NodeId} (hloop : tree.Attached loop)
    (hforEach : tree.forEach? loop = some found) (hbelow : ¬ tree.Reaches candidate.loop loop)
    (habove : ¬ tree.Reaches loop candidate.loop)
    (hparam : tree.StaysWithin candidate.param candidate.loop) :
    tree.Undisturbed mid candidate.param loop := by
  obtain ⟨plan, hplanned⟩ := h.planned
  have hbeside := hplanned.beside_loop hloop hforEach hbelow habove
  refine hplanned.undisturbed h.installed h.extended hbeside fun n hn hvar => ?_
  -- code that refers to the parameter is in the loop, and there is none that is in both
  have hn' := hbeside.of_reaches hplanned.wellFormed hplanned.given_attached hn
  exact hn'.not_below candidate.loop (by simp) (hparam n hn'.attached hvar)

/-- It is looked at with the same result. -/
theorem inspect_eq (hundisturbed : tree.Undisturbed mid candidate.param loop)
    (hflow : inspector.analyzer.flow = .unbounded) :
    inspector.inspect mid loop = (inspector.inspect tree loop).map fun finding =>
      { finding with revision := mid.revision } :=
  inspector.inspect_eq_of_undisturbed hundisturbed
    (fun source hsource => h.extended.span_eq source (hundisturbed.lt_size hsource))
    (hflow ▸ hundisturbed.sameFinality)

variable (h' : Applied inspector tree candidate' ending' outcome' other)
  (hbelow : ¬ tree.Reaches candidate.loop candidate'.loop)
include h' hbelow

omit h in
/-- A loop that another one is not below is not the top. -/
theorem loop_ne_root : candidate.loop ≠ tree.root := by
  obtain ⟨plan', hplanned'⟩ := h'.planned
  exact fun heq => hbelow (heq ▸ hplanned'.attached)

variable (habove : ¬ tree.Reaches candidate'.loop candidate.loop)
include habove

theorem given_beside : ∀ g ∈ given candidate' ending', tree.Beside (given candidate ending) g := by
  obtain ⟨plan, hplanned⟩ := h.planned
  obtain ⟨plan', hplanned'⟩ := h'.planned
  exact hplanned.given_beside hplanned' hbelow habove

variable (hparam : tree.StaysWithin candidate.param candidate.loop)
include hparam

/-- **Converting the other loop afterwards**: the finding that there is then can be applied, and is
applied to the same candidate in the same way. -/
theorem exists_second (hcandidate : inspector.candidate tree candidate'.loop = .ok candidate')
    (hending : endingOf inspector.analyzer inspector.options tree candidate' = .ok ending')
    (hreported : inspector.inspect tree candidate'.loop = .ok finding)
    (hflow : inspector.analyzer.flow = .unbounded) :
    ∃ outcome'' last,
      inspector.inspect mid candidate'.loop = .ok { finding with revision := mid.revision } ∧
      inspector.apply { finding with revision := mid.revision } mid = .ok outcome'' last ∧
      Applied inspector mid candidate' ending' outcome'' last := by
  obtain ⟨plan, hplanned⟩ := h.planned
  obtain ⟨plan', hplanned'⟩ := h'.planned
  -- the other loop is undisturbed by the conversion, and so it is reported as before
  have hundisturbed := h.undisturbed hplanned'.attached hplanned'.found.forEach hbelow habove hparam
  have hfinal := hflow ▸ hundisturbed.sameFinality
  have hinspect := h.inspect_eq hundisturbed hflow
  rw [hreported] at hinspect
  have hattached : mid.isAttached candidate'.loop = .ok true :=
    (hundisturbed.after.isAttached_eq_true (hundisturbed.after.lt_size hundisturbed.attached)).2
      hundisturbed.attached
  obtain ⟨found, end_, outcome'', last, hfound, -, -, hend, happly, happlied⟩ :=
    exists_apply h.installed.wellFormed hattached hinspect
  -- it is the same candidate, and the pipeline ends in the same way
  have hsame : inspector.candidate mid candidate'.loop = inspector.candidate tree candidate'.loop :=
    hundisturbed.candidate_eq hfinal
  obtain rfl := Except.ok.inj (hfound.symm.trans (hsame.trans hcandidate))
  have hloop : found.loop ∈ given found ending' := by simp
  have hsite := hplanned.foldSite?_eq h.installed (loop_ne_root h' hbelow)
    (h.given_beside h' hbelow habove found.loop hloop)
  rw [hundisturbed.endingOf_eq hplanned'.found hfinal inspector.options hsite, hending] at hend
  obtain rfl := Except.ok.inj hend
  exact ⟨outcome'', last, hinspect, happly, happlied⟩

/-- **The other loop becomes the same pipeline**, with the same comments in front of it. -/
theorem exists_respelled (h'' : Applied inspector mid candidate' ending' outcome'' last) :
    ∃ text,
      tree.Respelled other (given candidate' ending')
        (placed tree candidate' ending' outcome'.replacement) (lines tree candidate' ending' text) ∧
      mid.Respelled last (given candidate' ending')
        (placed mid candidate' ending' outcome''.replacement)
        (lines tree candidate' ending' text) := by
  obtain ⟨plan, hplanned⟩ := h.planned
  obtain ⟨plan', hplanned'⟩ := h'.planned
  obtain ⟨plan'', hplanned''⟩ := h''.planned
  have hbeside := h.given_beside h' hbelow habove
  have hne := loop_ne_root h' hbelow
  have hundisturbed := h.undisturbed hplanned'.attached hplanned'.found.forEach hbelow habove hparam
  have hrevised := hplanned.revised h.installed hne
  -- the loop is still in a block, if it was in one
  have hroom : (tree.parent? candidate'.loop).any mid.isBlock =
      (tree.parent? candidate'.loop).any tree.isBlock := by
    cases hparent : tree.parent? candidate'.loop with
    | none => rfl
    | some up =>
      have hup := (hplanned.wellFormed.parent?_eq_some.1 hparent).1
      exact Tree.isBlock_congr (h.extended.outline_eq up (hplanned.wellFormed.lt_size hup))
  -- the type of the parameter is written or left out as before
  have htyped : outcome''.explicitLambda = outcome'.explicitLambda := by
    rw [Bool.eq_iff_iff, h''.typed_iff, h'.typed_iff]
  obtain ⟨text, hwhole, -⟩ := h'.installed.text
  have hwhole' := hwhole
  rw [← hundisturbed.whole_eq hplanned'.found hplanned'.ends
    (fun d hd => hrevised.sameBelow (hbeside d (List.mem_append_left _ hd))) hroom,
    ← htyped] at hwhole'
  -- both pipelines are spelled from the same parts, before the change and after it
  refine ⟨text, hplanned'.respelled h'.installed (fun heq => habove ?_) hwhole, ?_⟩
  · exact heq ▸ hplanned.attached
  · rw [← Pipeline.lines_eq hundisturbed hplanned'.found hplanned'.ends hroom]
    refine hplanned''.respelled h''.installed (fun heq => habove ?_) hwhole'
    rw [heq, h.installed.root_eq hne]
    exact hplanned.attached

end Applied

/-! ### Both loops -/

/-- One loop is converted, and then another one with the finding that there is then. -/
def ConvertsInTurn (inspector : Inspector) (tree : Tree) (first second : NodeId) (last : Tree) :
    Prop :=
  ∃ finding outcome mid fresh outcome', inspector.inspect tree first = .ok finding ∧
    inspector.apply finding tree = .ok outcome mid ∧ inspector.inspect mid second = .ok fresh ∧
    inspector.apply fresh mid = .ok outcome' last

theorem ConvertsInTurn.right_unique {first second : NodeId} {last last' : Tree}
    (h : inspector.ConvertsInTurn tree first second last)
    (h' : inspector.ConvertsInTurn tree first second last') : last = last' := by
  obtain ⟨finding, outcome, mid, fresh, outcome', hinspect, happly, hfresh, hlast⟩ := h
  obtain ⟨finding', outcome₁, mid', fresh', outcome₁', hinspect', happly', hfresh', hlast'⟩ := h'
  cases hinspect.symm.trans hinspect'
  cases happly.symm.trans happly'
  cases hfresh.symm.trans hfresh'
  cases hlast.symm.trans hlast'
  rfl

/-- **Loops beside each other are converted independently.** Neither loop is inside of the other,
and the parameter of each is not referred to elsewhere. After one of them has been converted, the
other is reported as before, but for the revision, or turned down for the same reason. If both are
reported, both can be converted, one after the other, and the source afterwards does not tell in
which order. This is so for flow queries without bounds: with a bound, what becomes of one loop may
decide whether a query about the other comes to an end. -/
theorem commutes_of_beside (inspector : Inspector) {tree : Tree} {first second : NodeId}
    {loop loop' : ForEach NodeId} (hwf : tree.WellFormed)
    (hflow : inspector.analyzer.flow = .unbounded) (hfirst : tree.isAttached first = .ok true)
    (hsecond : tree.isAttached second = .ok true)
    (hloop : tree.forEach? first = some loop) (hloop' : tree.forEach? second = some loop')
    (hbelow : ¬ tree.Reaches first second) (habove : ¬ tree.Reaches second first)
    (hparam : tree.StaysWithin loop.var first) (hparam' : tree.StaysWithin loop'.var second) :
    (∀ finding outcome next, inspector.inspect tree first = .ok finding →
      inspector.apply finding tree = .ok outcome next →
        inspector.inspect next second = (inspector.inspect tree second).map fun finding =>
          { finding with revision := next.revision }) ∧
    ∀ finding finding', inspector.inspect tree first = .ok finding →
      inspector.inspect tree second = .ok finding' →
        ∃ last last' text, inspector.ConvertsInTurn tree first second last ∧
          inspector.ConvertsInTurn tree second first last' ∧
          last.text last.root = .ok text ∧ last'.text last'.root = .ok text := by
  have hlt := Tree.lt_size_of_kind? (Tree.forEach?_eq_some.1 hloop')
  have hattached := (hwf.isAttached_eq_true hlt).1 hsecond
  refine ⟨fun finding outcome next hreported happly => ?_,
    fun finding finding' hreported hreported' => ?_⟩
  · -- whatever has come of the first loop has left the second one undisturbed
    obtain ⟨candidate, ending, outcome', next', hcandidate, rfl, -, -, happly', happlied⟩ :=
      exists_apply hwf hfirst hreported
    rw [happly] at happly'
    cases happly'
    have hfound := Candidate.found_of_eq_ok hcandidate
    obtain rfl := Option.some.inj (hfound.forEach.symm.trans hloop)
    exact happlied.inspect_eq (happlied.undisturbed hattached hloop' hbelow habove hparam) hflow
  · obtain ⟨candidate, ending, outcome, mid, hcandidate, rfl, -, hending, happly, happlied⟩ :=
      exists_apply hwf hfirst hreported
    -- each of the loops is converted first
    obtain ⟨candidate', ending', outcome', mid', hcandidate', rfl, -, hending', happly',
        happlied'⟩ :=
      exists_apply hwf hsecond hreported'
    obtain rfl := Option.some.inj ((Candidate.found_of_eq_ok hcandidate).forEach.symm.trans hloop)
    obtain rfl := Option.some.inj ((Candidate.found_of_eq_ok hcandidate').forEach.symm.trans hloop')
    -- and the other one afterwards, in both orders
    obtain ⟨outcome₂, last, hinspect₂, happly₂, happlied₂⟩ :=
      happlied.exists_second happlied' hbelow habove hparam hcandidate' hending' hreported' hflow
    obtain ⟨outcome₁, last', hinspect₁, happly₁, happlied₁⟩ :=
      happlied'.exists_second happlied habove hbelow hparam' hcandidate hending hreported hflow
    -- each conversion replaces what the loop prints by the same lines, wherever it comes
    obtain ⟨text', hsecond', hlast⟩ :=
      happlied.exists_respelled happlied' hbelow habove hparam happlied₂
    obtain ⟨text, hfirst', hlast'⟩ :=
      happlied'.exists_respelled happlied habove hbelow hparam' happlied₁
    have hequal :=
      hfirst'.text_eq hlast hsecond' hlast' (happlied.given_beside happlied' hbelow habove)
      (happlied'.given_beside happlied habove hbelow)
    have htext := happlied₂.installed.wellFormed.text_eq_line Tree.attached_root
    exact ⟨last, last', _, ⟨_, _, _, _, _, hreported, happly, hinspect₂, happly₂⟩,
      ⟨_, _, _, _, _, hreported', happly', hinspect₁, happly₁⟩, htext, hequal.trans htext⟩

/-- The statements `List ys = new ArrayList(); for (String x : xs) if (x.isEmpty()) ys.add(x);` and
`for (String y : ys) if (y.isEmpty()) print(y);`, as a block. -/
def besideLoops : Tree where
  nodes := #[
    ⟨.expr (.create ⟨.simple "ArrayList", [], none⟩), some ⟨1⟩, Tree.placeOf 0⟩,
    ⟨.stmt (.declare ⟨2⟩ (some ⟨0⟩)), some ⟨19⟩, Tree.placeOf 1⟩,
    ⟨.expr (.name "xs" (some ⟨0⟩)), some ⟨10⟩, Tree.placeOf 2⟩,
    ⟨.expr (.name "x" (some ⟨1⟩)), some ⟨4⟩, Tree.placeOf 3⟩,
    ⟨.expr (.call ⟨some ⟨3⟩, "isEmpty", [], some ⟨0⟩⟩), some ⟨9⟩, Tree.placeOf 4⟩,
    ⟨.expr (.name "ys" (some ⟨2⟩)), some ⟨7⟩, Tree.placeOf 5⟩,
    ⟨.expr (.name "x" (some ⟨1⟩)), some ⟨7⟩, Tree.placeOf 6⟩,
    ⟨.expr (.call ⟨some ⟨5⟩, "add", [⟨6⟩], some ⟨2⟩⟩), some ⟨8⟩, Tree.placeOf 7⟩,
    ⟨.stmt (.expr ⟨7⟩), some ⟨9⟩, Tree.placeOf 8⟩,
    ⟨.stmt (.branch (some ⟨4⟩) (some ⟨8⟩) none), some ⟨10⟩, Tree.placeOf 9⟩,
    ⟨.stmt (.forEach ⟨⟨1⟩, some ⟨2⟩, some ⟨9⟩⟩), some ⟨19⟩, Tree.placeOf 10⟩,
    ⟨.expr (.name "ys" (some ⟨2⟩)), some ⟨18⟩, Tree.placeOf 11⟩,
    ⟨.expr (.name "y" (some ⟨3⟩)), some ⟨13⟩, Tree.placeOf 12⟩,
    ⟨.expr (.call ⟨some ⟨12⟩, "isEmpty", [], some ⟨0⟩⟩), some ⟨17⟩, Tree.placeOf 13⟩,
    ⟨.expr (.name "y" (some ⟨3⟩)), some ⟨15⟩, Tree.placeOf 14⟩,
    ⟨.expr (.call ⟨none, "print", [⟨14⟩], some ⟨1⟩⟩), some ⟨16⟩, Tree.placeOf 15⟩,
    ⟨.stmt (.expr ⟨15⟩), some ⟨17⟩, Tree.placeOf 16⟩,
    ⟨.stmt (.branch (some ⟨13⟩) (some ⟨16⟩) none), some ⟨18⟩, Tree.placeOf 17⟩,
    ⟨.stmt (.forEach ⟨⟨3⟩, some ⟨11⟩, some ⟨17⟩⟩), some ⟨19⟩, Tree.placeOf 18⟩,
    ⟨.stmt (.block [⟨1⟩, ⟨10⟩, ⟨18⟩]), none, Tree.placeOf 19⟩]
  vars := #[⟨"xs", .simple "List", .parameter, false⟩,
    ⟨"x", .simple "String", .loopParameter, false⟩,
    ⟨"ys", .simple "List", .localVariable, false⟩,
    ⟨"y", .simple "String", .loopParameter, false⟩]
  root := ⟨19⟩
  scope := .unknown
  revision := 0

/-- What is looked at with, where `ys.add(x)` is known as well and throws nothing. -/
def knowingAll : Inspector :=
  let add : Signature := ⟨"List", "add", [.simple "Object"], 0, [], some (.simple "boolean"), false⟩
  let known := (knowing []).analyzer.symbols
  ⟨⟨{ known with methods := known.methods.push add }, Options.standard.flow⟩, .standard⟩

/-- The first loop is folded into the declaration of what the second one iterates over, before or
after the second one is converted. -/
theorem commutes_besideLoops :
    ∃ finding finding' outcome next last last',
      knowingAll.inspect besideLoops ⟨10⟩ = .ok finding ∧
      knowingAll.inspect besideLoops ⟨18⟩ = .ok finding' ∧
      knowingAll.apply finding besideLoops = .ok outcome next ∧
      knowingAll.inspect next ⟨18⟩ = .ok { finding' with revision := next.revision } ∧
      knowingAll.ConvertsInTurn besideLoops ⟨10⟩ ⟨18⟩ last ∧
      knowingAll.ConvertsInTurn besideLoops ⟨18⟩ ⟨10⟩ last' ∧
      last.text last.root = last'.text last'.root ∧
      last.text last.root = .ok ("\x7b List ys = xs.stream().filter(x -> x.isEmpty())" ++
        ".collect(Collectors.toList()); ys.stream().filter(y -> y.isEmpty())" ++
        ".forEach(y -> print(y)); \x7d") := by
  have hwf : besideLoops.WellFormed := .of_isInOrder (by decide)
  have hfirst : besideLoops.isAttached ⟨10⟩ = .ok true := by cbv
  have hsecond : besideLoops.isAttached ⟨18⟩ = .ok true := by cbv
  -- the parameters stay within their loops, and neither loop is in the other
  have hstays : besideLoops.StaysWithin ⟨1⟩ ⟨10⟩ ∧ besideLoops.StaysWithin ⟨3⟩ ⟨18⟩ := by
    simp only [Tree.staysWithin_iff_preorder]
    decide
  have hbeside : ¬ besideLoops.Reaches ⟨10⟩ ⟨18⟩ ∧ ¬ besideLoops.Reaches ⟨18⟩ ⟨10⟩ := by
    simp only [← Tree.mem_preorder_iff]
    decide
  obtain ⟨hkept, hturns⟩ := commutes_of_beside knowingAll hwf rfl hfirst hsecond rfl rfl hbeside.1
    hbeside.2 hstays.1 hstays.2
  -- one order is gone through here, and the other one is known from it
  obtain ⟨last₁, hlast₁, htext₁⟩ : ∃ last, knowingAll.ConvertsInTurn besideLoops ⟨10⟩ ⟨18⟩ last ∧
      last.text last.root = .ok ("\x7b List ys = xs.stream().filter(x -> x.isEmpty())" ++
        ".collect(Collectors.toList()); ys.stream().filter(y -> y.isEmpty())" ++
        ".forEach(y -> print(y)); \x7d") :=
    ⟨_, ⟨_, _, _, _, _, by cbv, by cbv, by cbv, by cbv⟩, by cbv⟩
  -- the other order leads to the same text
  obtain ⟨finding, outcome, next, -, -, hreported, happly, -, -⟩ := id hlast₁
  obtain ⟨finding', hreported'⟩ : ∃ finding, knowingAll.inspect besideLoops ⟨18⟩ = .ok finding :=
    ⟨_, by cbv⟩
  obtain ⟨last, last', text, hlast, hlast', htext, htext'⟩ :=
    hturns finding finding' hreported hreported'
  obtain rfl := hlast.right_unique hlast₁
  have hfresh := hkept finding outcome next hreported happly
  rw [hreported'] at hfresh
  exact ⟨finding, finding', outcome, next, last, last', hreported, hreported', happly,
    hfresh, hlast, hlast', htext.trans htext'.symm, htext₁⟩

end Inspector

end LoopToStream
