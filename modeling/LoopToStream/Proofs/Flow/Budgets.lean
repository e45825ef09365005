import LoopToStream.Proofs.Flow.Bounds
import LoopToStream.Proofs.Flow.Exits
import LoopToStream.Proofs.Flow.Walking
import LoopToStream.Proofs.Tree.Parented

/-!
# What flow queries cost

A flow query is charged for each node that it looks at, and it looks at the nodes that the tree
itself lists. So what it costs can be told from the tree (`Flow.Metered`): within a budget of as
many nodes it is answered as if there were none, and within any smaller one it is given up.

* `Flow.metered_exits` — exits cost the nodes outside of function literals and method references;
* `Flow.metered_used`, `Flow.metered_written` — uses and writes cost all nodes below;
* `Flow.metered_isEffectivelyFinal` — whether a variable keeps its value costs all nodes of the
  tree, unless the variable is declared final, which costs nothing.

The one induction is along the nodes that are left to be looked at (`Flow.look_within`). What is
asked afterwards starts from nothing again, so that several questions cost what the dearest of them
costs, not what all of them cost together (`Flow.Costs.bind`, `Flow.Costs.mapM`).

Nodes may be linked from several places, and are then charged for each time that they are come by.
All that is asked of the tree is that it is finite and that its parents are set.
`Question.metered_queries` puts everything together, with the loops of `Tree.LoopsAgree` beside the
lists.
-/

namespace LoopToStream

open Attempt (Answered Unrefused)

/-- A variable that is found is in the table. -/
theorem Tree.lt_size_of_var {tree : Tree} {v : VarId} {declared : Variable}
    (h : tree.var v = .ok declared) :
    v.index < tree.vars.size := by
  unfold var at h
  split at h
  · next hfound => exact (Array.getElem?_eq_some_iff.1 hfound).1
  · cases h

namespace Flow

variable {α β ι : Type} {tree : Tree} {ask : Flow → Attempt AnalysisError α} {size cost : Nat}

/-! ### Costs -/

/-- **The attempt costs so many nodes**: it has an answer without bounds, and the same one within a
budget that covers the nodes. Within any other budget it is given up. -/
structure Costs (ask : Flow → Attempt AnalysisError α) (size : Nat) : Prop where
  answered : ∃ answer, ask unbounded = .ok answer
  within : ∀ b, ask ⟨some b, false⟩ = if b < size then refuse .timeout else ask unbounded

/-- It is given up as well if it has been canceled, however large the budget is. -/
structure Metered (ask : Flow → Attempt AnalysisError α) (size : Nat) :
    Prop extends Costs ask size where
  canceled : ∀ budget, ask ⟨budget, true⟩ = refuse .canceled

namespace Costs

/-- Given up over the budget just if the nodes are more than the budget. -/
theorem timeout_iff (h : Costs ask size) (b : Nat) :
    ask ⟨some b, false⟩ = refuse .timeout ↔ b < size := by
  rw [h.within b]
  obtain ⟨answer, hanswer⟩ := h.answered
  split
  · next hlt => simp [hlt]
  · next hle =>
    rw [hanswer]
    exact iff_of_false (fun hrefused => by cases hrefused) hle

/-- What is answered whatever the bounds are costs nothing. -/
theorem ok (answer : α) : Costs (fun _ => .ok answer) 0 := ⟨⟨answer, rfl⟩, fun b => by simp⟩

/-- **One attempt after the other.** Nothing that the first one has cost is charged to the second
one. -/
theorem bind {next : Flow → α → Attempt AnalysisError β} (h : Costs ask size)
    (hnext : ∀ a, ask unbounded = .ok a → Costs (fun flow => next flow a) cost) :
    Costs (fun flow => ask flow >>= next flow) (max size cost) := by
  obtain ⟨a, ha⟩ := h.answered
  obtain ⟨answer, hanswer⟩ := (hnext a ha).answered
  refine ⟨⟨answer, by rw [ha]; exact hanswer⟩, fun b => ?_⟩
  rw [h.within b, ha]
  by_cases hfirst : b < size
  · -- the first attempt is given up already
    rw [if_pos hfirst, if_pos (lt_max_of_lt_left hfirst)]
    rfl
  · -- the second one has the whole budget
    rw [if_neg hfirst]
    have hmax : b < max size cost ↔ b < cost := by simp [hfirst]
    simp only [hmax]
    exact (hnext a ha).within b

/-- **Attempts for each member of a list** cost what the dearest of them costs. -/
theorem mapM {ask : Flow → ι → Attempt AnalysisError α} {size : ι → Nat} {l : List ι}
    (h : ∀ i ∈ l, Costs (fun flow => ask flow i) (size i)) :
    Costs (fun flow => l.mapM (ask flow)) ((l.map size).foldr max 0) := by
  induction l with
  | nil => exact ok []
  | cons i l ih =>
    obtain ⟨hi, hl⟩ := List.forall_mem_cons.1 h
    -- the budget is the same for each of them, so the dearer of the first and the rest decides
    have hrest : ∀ a, Costs (fun flow => l.mapM (ask flow) >>= fun as => pure (a :: as))
        (max ((l.map size).foldr max 0) 0) := fun a => (ih hl).bind fun as _ => ok (a :: as)
    simp only [List.mapM_cons, List.map_cons, List.foldr_cons]
    exact hi.bind fun a _ => by simpa using hrest a

end Costs

namespace Metered

/-- What is made of the answer costs nothing more. -/
theorem map (h : Metered ask size) (f : α → β) :
    Metered (fun flow => ask flow >>= fun a => pure (f a)) size where
  answered := by
    obtain ⟨answer, hanswer⟩ := h.answered
    exact ⟨f answer, by rw [hanswer]; rfl⟩
  within b := by
    rw [h.within b]
    split <;> rfl
  canceled budget := by
    rw [h.canceled budget]
    rfl

end Metered

/-! ### Walks -/

section Walks

variable {see : NodeId → Lookup (List α)} {ids : List NodeId}

/-- **A budget covers the nodes that are left, or is exhausted** at the first of them that it does
not cover. By induction on these nodes, with as many before them as the budget has covered. -/
theorem look_within {before b : Nat} (hb : before ≤ b)
    (h : ∀ id ∈ ids, id.index < tree.size ∧ ∃ found, see id = .ok found) :
    look ⟨some b, false⟩ tree see before ids =
      if b < before + ids.length then refuse .timeout else unbounded.look tree see before ids := by
  induction ids generalizing before with
  | nil => rw [if_neg (by simpa using hb)]; rfl
  | cons id rest ih =>
    obtain ⟨⟨hid, found, hfound⟩, hrest⟩ := List.forall_mem_cons.1 h
    have hunbounded : unbounded.tick before = .ok (before + 1) := rfl
    by_cases hlast : b = before
    · -- the node is the first one beyond the budget
      have htick : tick ⟨some b, false⟩ before = refuse .timeout := by
        simp [tick, exhausted, hlast]
      rw [look_cons, htick, if_pos (by rw [List.length_cons]; omega)]
      rfl
    · -- the budget covers the node, so that the walk goes on as without bounds
      have htick : tick ⟨some b, false⟩ before = .ok (before + 1) := by
        have hcovered : exhausted ⟨some b, false⟩ (before + 1) = false := by
          rw [exhausted, Option.any_some, decide_eq_false_iff_not]
          omega
        simp [tick, hcovered]
      rw [look_cons_of_ok htick hfound hid, look_cons_of_ok hunbounded hfound hid,
        ih (by omega) hrest, List.length_cons, Nat.add_right_comm, Nat.add_assoc]
      -- the same nodes are counted from the next one on
      split <;> rfl

/-- **A walk along nodes of the table costs as many as they are**, if there is an answer at each of
them. -/
theorem metered_look (hids : ids ≠ [])
    (h : ∀ id ∈ ids, id.index < tree.size ∧ ∃ found, see id = .ok found) :
    Metered (fun flow => flow.look tree see 0 ids) ids.length where
  answered := by
    -- without a bound the walk comes to its end
    have hanswered : (unbounded.look tree see 0 ids).Answered fun found => ∀ a ∈ found, True := by
      refine look_answered 0 (fun id hid => (h id hid).1) fun id hid => ?_
      obtain ⟨found, hfound⟩ := (h id hid).2
      exact ⟨found, hfound, fun _ _ => trivial⟩
    obtain ⟨answer, hanswer, -⟩ := (look_unrefused see 0 ids).exists_ok hanswered
    exact ⟨answer, hanswer⟩
  within b := by simpa using look_within (Nat.zero_le b) h
  canceled _ := look_of_canceled rfl hids 0

end Walks

/-! ### Queries -/

section Queries

variable {body : NodeId} (hbody : tree.Grounded body) (hup : tree.ParentsKnown)

include hbody

theorem metered_query {see : NodeId → Lookup (List α)} (hsee : ∀ id, ∃ found, see id = .ok found) :
    Metered (fun flow => flow.query tree see body) (tree.preorder body).length := by
  refine metered_look (List.cons_ne_nil _ _) fun id hid => ⟨?_, hsee id⟩
  exact (hbody.of_reaches (Tree.mem_preorder_iff.1 hid)).lt_size

theorem metered_used : Metered (fun flow => flow.used tree body) (tree.preorder body).length :=
  (metered_query hbody fun _ => ⟨_, rfl⟩).map _

theorem metered_writes : Metered (fun flow => flow.writes tree body) (tree.preorder body).length :=
  metered_query hbody fun _ => ⟨_, rfl⟩

theorem metered_written :
    Metered (fun flow => flow.written tree body) (tree.preorder body).length :=
  (metered_writes hbody).map _

include hup

/-- Exits are asked for outside of function literals and method references only. -/
theorem metered_exits : Metered (fun flow => flow.exits tree body)
    (tree.preorderWhere (fun id => !tree.isClosure id) body).length := by
  refine metered_look (List.cons_ne_nil _ _) fun id hid => ?_
  have hid := (hbody.of_reaches (Tree.reaches_of_mem_preorderWhere hid)).lt_size
  exact ⟨hid, hup.exists_exitAt hid body⟩

end Queries

section Finality

variable {v : VarId} {declared : Variable} (hvar : tree.var v = .ok declared)
include hvar

/-- A variable that is declared final keeps its value, which is known without looking at anything.
-/
theorem isEffectivelyFinal_of_isFinal (hfinal : declared.isFinal = true) (flow : Flow)
    (place : NodeId) :
    flow.isEffectivelyFinal tree v place = .ok true := by
  rw [isEffectivelyFinal, hvar, Attempt.liftM_ok, ok_bind, if_pos hfinal]
  rfl

/-- For any other variable the whole tree is looked at. -/
theorem metered_isEffectivelyFinal (hroot : tree.Grounded tree.root) (hup : tree.ParentsKnown)
    (hfinal : declared.isFinal = false) (place : NodeId) :
    Metered (fun flow => flow.isEffectivelyFinal tree v place)
      (tree.preorder tree.root).length := by
  have hwrites := metered_writes hroot
  -- what is made of the writes does not depend on the bounds
  obtain ⟨verdict, hask⟩ : ∃ verdict : List (NodeId × VarId) → Attempt AnalysisError Bool,
      ∀ flow : Flow,
        flow.isEffectivelyFinal tree v place = flow.writes tree tree.root >>= verdict :=
    ⟨_, fun flow => by
      rw [isEffectivelyFinal, hvar, Attempt.liftM_ok, ok_bind, if_neg (by simp [hfinal])]⟩
  have hv : v.index < tree.vars.size := Tree.lt_size_of_var hvar
  refine ⟨⟨?_, fun b => ?_⟩, fun budget => ?_⟩
  · -- without a bound the writes are found, and the verdict on them as well
    have hanswered := hroot.isEffectivelyFinal_answered unbounded hup hv place
    obtain ⟨answer, hanswer, -⟩ := isEffectivelyFinal_unrefused.exists_ok hanswered
    exact ⟨answer, hanswer⟩
  · rw [hask, hask, hwrites.within b]
    split <;> rfl
  · rw [hask, hwrites.canceled budget]
    rfl

end Finality

end Flow

/-! ### Questions one after the other -/

/-- What flow queries are asked about a piece of code, or about a variable and the place of a
function literal that is to refer to it. -/
inductive Question where
  | exits (body : NodeId)
  | used (body : NodeId)
  | written (body : NodeId)
  | finality (v : VarId) (place : NodeId)

/-- What they answer. -/
inductive Reply where
  | exits (found : List (NodeId × Exit))
  | variables (found : List VarId)
  | finality (keeps : Bool)

namespace Question

variable {tree : Tree} {body : NodeId} {v : VarId} {declared : Variable}

/-- The answer within some bounds. -/
def ask (tree : Tree) (flow : Flow) : Question → Attempt AnalysisError Reply
  | exits body => return .exits (← flow.exits tree body)
  | used body => return .variables (← flow.used tree body)
  | written body => return .variables (← flow.written tree body)
  | finality v place => return .finality (← flow.isEffectivelyFinal tree v place)

/-- The nodes that are looked at for it. -/
def lookedAt (tree : Tree) : Question → List NodeId
  | exits body => tree.preorderWhere (fun id => !tree.isClosure id) body
  | used body | written body => tree.preorder body
  | finality v _ => if tree.vars[v.index]?.all Variable.isFinal then [] else tree.preorder tree.root

/-- What the question is about is there, and is finite. -/
def Known (tree : Tree) : Question → Prop
  | exits body | used body | written body => tree.Grounded body
  | finality v _ => v.index < tree.vars.size

/-- **A question costs as many nodes as are looked at for it.** -/
theorem costs (hroot : tree.Grounded tree.root) (hup : tree.ParentsKnown) {question : Question}
    (h : question.Known tree) :
    Flow.Costs (fun flow => question.ask tree flow) (question.lookedAt tree).length := by
  cases question with
  | exits body => exact ((Flow.metered_exits h hup).map Reply.exits).toCosts
  | used body => exact ((Flow.metered_used h).map Reply.variables).toCosts
  | written body => exact ((Flow.metered_written h).map Reply.variables).toCosts
  | finality v place =>
    have hvar := Tree.var_of_lt h
    have hfound : tree.vars[v.index]? = some tree.vars[v.index] := Array.getElem?_eq_getElem h
    simp only [lookedAt, hfound, Option.all_some]
    cases hfinal : tree.vars[v.index].isFinal with
    | true =>
      -- of a variable that is declared final no node is looked at
      have hanswer : ∀ flow : Flow, ask tree flow (finality v place) = .ok (.finality true) := by
        intro flow
        rw [ask, Flow.isEffectivelyFinal_of_isFinal hvar hfinal]
        rfl
      simp only [hanswer, if_true, List.length_nil]
      exact .ok _
    | false =>
      exact ((Flow.metered_isEffectivelyFinal hvar hroot hup hfinal place).map
        Reply.finality).toCosts

/-- **What each flow query costs**, in a finite tree whose parents are set: exits cost the nodes
that are listed without going into function literals and method references, uses and writes those
that are listed at all, and whether a variable keeps its value costs the nodes of the whole tree. A
variable that is declared final keeps its value, within any bounds and even if the query has been
canceled.

The loop that counts the nodes goes the same way as the one that lists them. What is asked in a row
costs as much as the dearest question, since none of them is charged for those before it. -/
theorem metered_queries (hparents : tree.Parented) (hroot : tree.Grounded tree.root)
    (hbody : tree.Grounded body) (hvar : tree.var v = .ok declared) :
    ∃ outside below all,
      (tree.descendantsOutsideClosures body = .ok outside ∧ tree.descendants body = .ok below ∧
        tree.descendants tree.root = .ok all) ∧
      tree.LoopsAgree body outside below ∧
      Flow.Metered (fun flow => flow.exits tree body) outside.length ∧
      Flow.Metered (fun flow => flow.used tree body) below.length ∧
      Flow.Metered (fun flow => flow.written tree body) below.length ∧
      (declared.isFinal = false →
        Flow.Metered (fun flow => flow.isEffectivelyFinal tree v body) all.length) ∧
      (declared.isFinal = true → ∀ flow : Flow, flow.isEffectivelyFinal tree v body = .ok true) ∧
      ∀ questions : List Question, (∀ question ∈ questions, question.Known tree) →
        Flow.Costs (fun flow => questions.mapM (ask tree flow))
          ((questions.map fun question => (question.lookedAt tree).length).foldr max 0) := by
  have hup := hparents.parentsKnown
  have hlisted := hbody.descendantsWhere_eq fun id => !tree.isClosure id
  refine ⟨_, _, _, ⟨hlisted, hbody.descendants_eq, hroot.descendants_eq⟩, hbody.loopsAgree,
    Flow.metered_exits hbody hup, Flow.metered_used hbody, Flow.metered_written hbody,
    fun hfinal => ?_, fun hfinal flow => ?_, fun questions hknown => ?_⟩
  · exact Flow.metered_isEffectivelyFinal hvar hroot hup hfinal body
  · exact Flow.isEffectivelyFinal_of_isFinal hvar hfinal flow body
  · exact Flow.Costs.mapM fun question hquestion => costs hroot hup (hknown question hquestion)

/-- A function literal that counts its parameter up, and a variable that is declared final. -/
def countingUp : Tree where
  nodes := #[
    ⟨.expr (.name "x" (some ⟨0⟩)), some ⟨1⟩, Tree.placeOf 0⟩,
    ⟨.expr (.unary .postInc ⟨0⟩), some ⟨2⟩, Tree.placeOf 1⟩,
    ⟨.expr (.lambda [⟨0⟩] false ⟨1⟩), some ⟨3⟩, Tree.placeOf 2⟩,
    ⟨.stmt (.expr ⟨2⟩), some ⟨4⟩, Tree.placeOf 3⟩,
    ⟨.stmt (.block [⟨3⟩]), none, Tree.placeOf 4⟩]
  vars :=
    #[⟨"x", .simple "int", .lambdaParameter, false⟩, ⟨"limit", .simple "int", .localVariable, true⟩]
  root := ⟨4⟩
  scope := .unknown
  revision := 0

/-- Asked about the function literal itself, flow queries look into it, for which they need a budget
of three nodes. Two of them in a row get along with that as well. Whether the parameter keeps its
value takes the five nodes of the tree. -/
theorem metered_queries_countingUp :
    countingUp.descendantsOutsideClosures ⟨2⟩ = .ok [⟨2⟩, ⟨1⟩, ⟨0⟩] ∧
      Flow.exits ⟨some 2, false⟩ countingUp ⟨2⟩ = refuse .timeout ∧
      Flow.exits ⟨some 3, false⟩ countingUp ⟨2⟩ = Flow.unbounded.exits countingUp ⟨2⟩ ∧
      Flow.isEffectivelyFinal ⟨some 4, false⟩ countingUp ⟨0⟩ ⟨2⟩ = refuse .timeout ∧
      Flow.isEffectivelyFinal ⟨some 0, true⟩ countingUp ⟨1⟩ ⟨2⟩ = .ok true ∧
      Flow.written ⟨none, true⟩ countingUp ⟨2⟩ = refuse .canceled ∧
      [exits ⟨2⟩, used ⟨2⟩].mapM (ask countingUp ⟨some 3, false⟩) =
        [exits ⟨2⟩, used ⟨2⟩].mapM (ask countingUp Flow.unbounded) := by
  have hwf : countingUp.WellFormed := .of_isInOrder (by decide)
  have hparents : countingUp.Parented := Tree.parented_of_relink hwf.relinked
  have hroot : countingUp.Grounded ⟨4⟩ := hwf.grounded Tree.attached_root
  have hbody : countingUp.Grounded ⟨2⟩ := hroot.of_reaches (Tree.mem_preorder_iff.1 (by decide))
  obtain ⟨outside, below, all, ⟨houtside, hbelow, hall⟩, -, hexits, -, hwritten, hfinality,
      -, hrow⟩ :=
    metered_queries hparents hroot hbody (by rfl : countingUp.var ⟨0⟩ = .ok _)
  obtain ⟨-, -, -, -, -, -, -, -, -, hdeclaredFinal, -⟩ :=
    metered_queries hparents hroot hbody (by rfl : countingUp.var ⟨1⟩ = .ok _)
  have hlisted : countingUp.descendantsOutsideClosures ⟨2⟩ = .ok [⟨2⟩, ⟨1⟩, ⟨0⟩] := by rfl
  obtain rfl : outside = [⟨2⟩, ⟨1⟩, ⟨0⟩] := Except.ok.inj (houtside.symm.trans hlisted)
  obtain rfl : all = [⟨4⟩, ⟨3⟩, ⟨2⟩, ⟨1⟩, ⟨0⟩] := Except.ok.inj (hall.symm.trans (by rfl))
  have hrow := hrow [exits ⟨2⟩, used ⟨2⟩] (by simpa [Known] using hbody)
  exact ⟨hlisted, (hexits.timeout_iff 2).2 (by decide), hexits.within 3,
    ((hfinality rfl).timeout_iff 4).2 (by decide), hdeclaredFinal rfl _, hwritten.canceled none,
    hrow.within 3⟩

end Question

end LoopToStream
