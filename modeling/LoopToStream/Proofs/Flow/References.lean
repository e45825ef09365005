import LoopToStream.Proofs.Tree.Parentheses
import LoopToStream.Proofs.Tree.Undisturbed

/-!
# References and flow

Which variables a piece of code refers to is asked in two ways. The search for references lists the
names and fields that stand for one variable. The flow queries list the variables that are used and
those that are written, and see through parentheses around what is written. Nothing is said there
about references, so that a variable might be written without being used.

* `Tree.Overwritten` — somewhere in the code, a reference is the target of an assignment or the
  operand of an increment or decrement, perhaps in parentheses.
* `Grounded.exists_used` and `Grounded.exists_written` — what the flow queries find without bounds,
  in terms of what can be reached.
* `Grounded.flow_agrees_with_references` — the variables that are used are those with a reference,
  and the ones that are written are those with a reference that is overwritten.

An expression that stands for a variable through its parentheses is one that a name or field is left
of without them (`Grounded.variableAt?_eq_some_iff`). This is a part of the code as well, which
makes it a reference.
-/

namespace LoopToStream

namespace Tree

variable {tree : Tree} {v : VarId} {body inner id ref site target : NodeId}

/-! ### What is written -/

/-- **A reference that is overwritten** in some code: it is what is left, without parentheses, of
the target of an assignment or the operand of an increment or decrement. -/
def Overwritten (tree : Tree) (body ref : NodeId) : Prop :=
  ∃ site target, tree.Reaches body site ∧ tree.Overwrites site target ∧ tree.Strips target ref

theorem Overwritten.reaches (h : tree.Overwritten body ref) : tree.Reaches body ref := by
  obtain ⟨site, target, hsite, hoverwrites, hstrips⟩ := h
  exact (hsite.tail hoverwrites.mem_parts).trans hstrips.reaches

theorem Overwritten.of_reaches (h : tree.Overwritten inner ref) (hinner : tree.Reaches body inner) :
    tree.Overwritten body ref := by
  obtain ⟨site, target, hsite, hrest⟩ := h
  exact ⟨site, target, hinner.trans hsite, hrest⟩

/-- The variable that is seen through parentheses is that of the name or field inside. -/
theorem Grounded.variableAt?_eq_some_iff (hg : tree.Grounded id) :
    tree.variableAt? id = some v ↔
      ∃ ref, tree.Strips id ref ∧ (tree.expr? ref).bind Expr.var? = some v := by
  simp only [hg.strips_iff, exists_eq_left]
  rfl

/-! ### What flow queries find -/

/-- **The variables that are used** are those that the code mentions. -/
theorem Grounded.exists_used (hbody : tree.Grounded body) :
    ∃ used, Flow.unbounded.used tree body = .ok used ∧ ∀ v, v ∈ used ↔ tree.Mentions v body := by
  have hquery :
      Flow.unbounded.query tree (fun id => return ((tree.expr? id).bind Expr.var?).toList) body =
      .ok ((tree.preorder body).flatMap fun id => ((tree.expr? id).bind Expr.var?).toList) :=
    Flow.query_unbounded hbody fun _ => rfl
  refine ⟨_, by rw [Flow.used, hquery, ok_bind, pure_eq_ok], fun v => ?_⟩
  rw [Ascending.mem_ofList, List.mem_flatMap]
  refine exists_congr fun n => ?_
  rw [mem_preorder_iff, Option.mem_toList]

/-- **The variables that are written** are those of the references that are overwritten. -/
theorem Grounded.exists_written (hbody : tree.Grounded body) :
    ∃ written, Flow.unbounded.written tree body = .ok written ∧
      ∀ v, v ∈ written ↔
        ∃ ref, tree.Overwritten body ref ∧ (tree.expr? ref).bind Expr.var? = some v := by
  refine ⟨_, by rw [Flow.written, hbody.writes_eq, ok_bind, pure_eq_ok], fun v => ?_⟩
  -- a variable is listed for a site exactly if it is that of what the site writes to
  have hlisted :
      (∃ site, tree.Reaches body site ∧
        (Flow.writtenAt? tree site).bind tree.variableAt? = some v) ↔
      ∃ ref, tree.Overwritten body ref ∧ (tree.expr? ref).bind Expr.var? = some v := by
    constructor
    · -- from the site to what it overwrites, without the parentheses around it
      rintro ⟨site, hsite, hwritten⟩
      obtain ⟨target, htarget, hv⟩ := Option.bind_eq_some_iff.1 hwritten
      have hoverwrites := writtenAt?_eq_some.1 htarget
      have hg : tree.Grounded target := (hbody.of_reaches hsite).of_mem_parts hoverwrites.mem_parts
      obtain ⟨ref, hstrips, hv⟩ := hg.variableAt?_eq_some_iff.1 hv
      exact ⟨ref, ⟨site, target, hsite, hoverwrites, hstrips⟩, hv⟩
    · rintro ⟨ref, ⟨site, target, hsite, hoverwrites, hstrips⟩, hv⟩
      -- and back, from the reference to the site that overwrites it
      have hg : tree.Grounded target := (hbody.of_reaches hsite).of_mem_parts hoverwrites.mem_parts
      refine ⟨site, hsite, Option.bind_eq_some_iff.2 ⟨target, writtenAt?_eq_some.2 hoverwrites, ?_⟩⟩
      exact hg.variableAt?_eq_some_iff.2 ⟨ref, hstrips, hv⟩
  rw [Ascending.mem_ofList, ← hlisted, List.map_flatMap, List.mem_flatMap]
  refine exists_congr fun site => and_congr mem_preorder_iff ?_
  cases (Flow.writtenAt? tree site).bind tree.variableAt? <;> simp [eq_comm]

/-! ### Agreement -/

/-- **Flow queries and references agree** on what finite code touches, if the queries have no
bounds. A variable is used exactly if there is a reference to it, and written exactly if one of the
references is, without the parentheses around it, the target of an assignment or the operand of an
increment or decrement in the code. Thus no variable is written without being used, and what a part
of the code uses or writes is used or written by the code. -/
theorem Grounded.flow_agrees_with_references (hbody : tree.Grounded body) :
    ∃ used written, Flow.unbounded.used tree body = .ok used ∧
      Flow.unbounded.written tree body = .ok written ∧
      (∀ v, ∃ refs, tree.referencesIn v body = .ok refs ∧ (v ∈ used ↔ refs ≠ []) ∧
        (v ∈ written ↔ ∃ ref ∈ refs, tree.Overwritten body ref)) ∧
      written ⊆ used ∧
      ∀ inner, tree.Reaches body inner → ∃ used' written',
        Flow.unbounded.used tree inner = .ok used' ∧
        Flow.unbounded.written tree inner = .ok written' ∧
          used' ⊆ used ∧ written' ⊆ written := by
  obtain ⟨used, hused, hmemUsed⟩ := hbody.exists_used
  obtain ⟨written, hwritten, hmemWritten⟩ := hbody.exists_written
  refine ⟨used, written, hused, hwritten, fun v => ?_, fun v hv => ?_, fun inner hinner => ?_⟩
  · -- the lists and the references of the variable are members of one preorder
    refine ⟨tree.references v body, hbody.referencesIn_eq, ?_, ?_⟩
    · rw [hmemUsed, references_ne_nil]
    · rw [hmemWritten]
      refine exists_congr fun ref => ?_
      rw [mem_references]
      constructor
      · rintro ⟨hoverwritten, hv⟩
        exact ⟨⟨hoverwritten.reaches, hv⟩, hoverwritten⟩
      · rintro ⟨⟨-, hv⟩, hoverwritten⟩
        exact ⟨hoverwritten, hv⟩
  · -- what is overwritten is a reference
    obtain ⟨ref, hoverwritten, hvar⟩ := (hmemWritten v).1 hv
    exact (hmemUsed v).2 ⟨ref, hoverwritten.reaches, hvar⟩
  · have hg : tree.Grounded inner := hbody.of_reaches hinner
    -- a part of the code is finite code, so that the same holds of it
    obtain ⟨used', hused', hmemUsed'⟩ := hg.exists_used
    obtain ⟨written', hwritten', hmemWritten'⟩ := hg.exists_written
    refine ⟨used', written', hused', hwritten', fun v hv => ?_, fun v hv => ?_⟩
    · exact (hmemUsed v).2 (((hmemUsed' v).1 hv).of_reaches hinner)
    · obtain ⟨ref, hoverwritten, hvar⟩ := (hmemWritten' v).1 hv
      exact (hmemWritten v).2 ⟨ref, hoverwritten.of_reaches hinner, hvar⟩

/-- A function literal `x -> ((this.total)) += x++ + limit`, which adds to a field. -/
def totaling : Tree where
  nodes := #[
    ⟨.expr .thisRef, some ⟨1⟩, placeOf 0⟩,
    ⟨.expr (.field ⟨0⟩ "total" (some ⟨1⟩)), some ⟨2⟩, placeOf 1⟩,
    ⟨.expr (.paren ⟨1⟩), some ⟨3⟩, placeOf 2⟩,
    ⟨.expr (.paren ⟨2⟩), some ⟨8⟩, placeOf 3⟩,
    ⟨.expr (.name "x" (some ⟨0⟩)), some ⟨5⟩, placeOf 4⟩,
    ⟨.expr (.unary .postInc ⟨4⟩), some ⟨7⟩, placeOf 5⟩,
    ⟨.expr (.name "limit" (some ⟨2⟩)), some ⟨7⟩, placeOf 6⟩,
    ⟨.expr (.binary .add ⟨5⟩ ⟨6⟩), some ⟨8⟩, placeOf 7⟩,
    ⟨.expr (.assign (some .add) ⟨3⟩ ⟨7⟩), some ⟨9⟩, placeOf 8⟩,
    ⟨.expr (.lambda [⟨0⟩] false ⟨8⟩), some ⟨10⟩, placeOf 9⟩,
    ⟨.stmt (.expr ⟨9⟩), none, placeOf 10⟩]
  vars :=
    #[⟨"x", .simple "int", .lambdaParameter, false⟩, ⟨"total", .simple "int", .field false, false⟩,
    ⟨"limit", .simple "int", .localVariable, true⟩]
  root := ⟨10⟩
  scope := .unknown
  revision := 0

/-- The field is written through two pairs of parentheses, the parameter by an increment, and the
limit is only read. The value that is added writes nothing else. -/
theorem flow_agrees_with_references_totaling :
    Flow.unbounded.used totaling ⟨10⟩ = .ok [⟨0⟩, ⟨1⟩, ⟨2⟩] ∧
      Flow.unbounded.written totaling ⟨10⟩ = .ok [⟨0⟩, ⟨1⟩] ∧
      totaling.referencesIn ⟨1⟩ ⟨10⟩ = .ok [⟨1⟩] ∧ totaling.Overwritten ⟨10⟩ ⟨1⟩ ∧
      totaling.referencesIn ⟨2⟩ ⟨10⟩ = .ok [⟨6⟩] ∧ ¬ totaling.Overwritten ⟨10⟩ ⟨6⟩ ∧
      ∃ written, Flow.unbounded.written totaling ⟨7⟩ = .ok written ∧ written ⊆ [⟨0⟩, ⟨1⟩] := by
  have hwf : totaling.WellFormed := .of_isInOrder (by decide)
  have hbody : totaling.Grounded ⟨10⟩ := hwf.grounded attached_root
  obtain ⟨used, written, hused, hwritten, hrefs, -, hbelow⟩ := hbody.flow_agrees_with_references
  obtain rfl : used = [⟨0⟩, ⟨1⟩, ⟨2⟩] := Except.ok.inj (hused.symm.trans (by rfl))
  obtain rfl : written = [⟨0⟩, ⟨1⟩] := Except.ok.inj (hwritten.symm.trans (by rfl))
  obtain ⟨refs, htotal, -, hwrites⟩ := hrefs ⟨1⟩
  obtain rfl : refs = [⟨1⟩] := Except.ok.inj (htotal.symm.trans (by rfl))
  obtain ⟨refs, hlimit, -, hreads⟩ := hrefs ⟨2⟩
  obtain rfl : refs = [⟨6⟩] := Except.ok.inj (hlimit.symm.trans (by rfl))
  -- part of the body is written to by part of the writes
  obtain ⟨-, written', -, hwritten', -, hsub⟩ := hbelow ⟨7⟩ (mem_preorder_iff.1 (by decide))
  refine ⟨hused, hwritten, htotal, ?_, hlimit, ?_, written', hwritten', hsub⟩
  · simpa using hwrites
  · simpa using hreads

end Tree

end LoopToStream
