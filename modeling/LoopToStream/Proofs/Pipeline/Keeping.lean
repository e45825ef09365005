import LoopToStream.Proofs.Pipeline.Staging

/-!
# What staging keeps up

A property of edits that is kept up by a piece of staging (`Pipeline.Keeps`), which may besides hand
on ids of a certain sort (`Pipeline.Yields`). It is kept up by putting pieces together. What adding
any node keeps up is kept up by all the code that is staged for a pipeline, on whatever tree and for
whatever plan (`Keeps.stageChain`), and with the operations by all that a plan asks for
(`Keeps.stagePlan`).
-/

namespace LoopToStream

namespace Pipeline

variable {α β : Type} {options : Options} {tree : Tree} {place : Span} {plan : Pipeline}
  {P : Edit → Prop}

/-- Staging that keeps a property of edits. -/
def Keeps (P : Edit → Prop) (m : Staging α) : Prop :=
  ∀ before a after, m before = .ok (a, after) → P before → P after

namespace Keeps

/-! ### Putting pieces together -/

theorem pure (a : α) : Keeps P (Pure.pure a : Staging α) := by
  intro before b after h hbefore
  cases h
  exact hbefore

theorem bind {m : Staging α} {f : α → Staging β} (hm : Keeps P m) (hf : ∀ a, Keeps P (f a)) :
    Keeps P (m >>= f) := by
  intro before b after h hbefore
  obtain ⟨a, mid, ha, hb⟩ := staging_bind_eq_ok.1 h
  exact hf a mid b after hb (hm before a mid ha hbefore)

theorem map {m : Staging α} (f : α → β) (hm : Keeps P m) : Keeps P (f <$> m) := by
  rw [map_eq_pure_bind]
  exact hm.bind fun a => pure (f a)

theorem lift (x : Attempt Failure α) : Keeps P (liftM x : Staging α) := by
  intro before b after h hbefore
  cases x with
  | error refusal => cases h
  | ok a =>
    cases h
    exact hbefore

theorem violate (violation : Violation) : Keeps P (violate violation : Staging α) :=
  fun _ _ _ h => by cases h

theorem forM {l : List α} {f : α → Staging PUnit} (hf : ∀ a, Keeps P (f a)) :
    Keeps P (l.forM f) := by
  induction l with
  | nil => exact pure _
  | cons a l ih => exact (hf a).bind fun _ => ih

theorem foldlM {l : List α} {f : β → α → Staging β} (hf : ∀ a ∈ l, ∀ b, Keeps P (f b a)) (b : β) :
    Keeps P (l.foldlM f b) := by
  induction l generalizing b with
  | nil => exact pure b
  | cons a l ih =>
    rw [List.foldlM_cons]
    exact (hf a (by simp) b).bind fun b => ih (fun x hx => hf x (by simp [hx])) b

end Keeps

/-- Staging that keeps a property of edits and hands on something that has a property as well. -/
def Yields (P : Edit → Prop) (Q : α → Prop) (m : Staging α) : Prop :=
  ∀ before a after, m before = .ok (a, after) → P before → P after ∧ Q a

namespace Yields

variable {Q : α → Prop} {R : β → Prop}

theorem pure {a : α} (h : Q a) : Yields P Q (Pure.pure a : Staging α) := by
  intro before b after hrun hbefore
  cases hrun
  exact ⟨hbefore, h⟩

/-- What is handed on may be relied on by what comes next. -/
theorem bind {m : Staging α} {f : α → Staging β} (hm : Yields P Q m)
    (hf : ∀ a, Q a → Yields P R (f a)) :
    Yields P R (m >>= f) := by
  intro before b after h hbefore
  obtain ⟨a, mid, ha, hb⟩ := staging_bind_eq_ok.1 h
  obtain ⟨hmid, hQ⟩ := hm before a mid ha hbefore
  exact hf a hQ mid b after hb hmid

theorem map {m : Staging α} {f : α → β} (hm : Yields P Q m) (hf : ∀ a, Q a → R (f a)) :
    Yields P R (f <$> m) := by
  rw [map_eq_pure_bind]
  exact hm.bind fun a ha => pure (hf a ha)

theorem foldlM {l : List α} {f : β → α → Staging β}
    (hf : ∀ a ∈ l, ∀ b, R b → Yields P R (f b a)) {b : β}
    (hb : R b) : Yields P R (l.foldlM f b) := by
  induction l generalizing b with
  | nil => exact pure hb
  | cons a l ih =>
    rw [List.foldlM_cons]
    exact (hf a (by simp) b hb).bind fun b hb => ih (fun x hx => hf x (by simp [hx])) hb

theorem mono {Q' : α → Prop} {m : Staging α} (hm : Yields P Q m) (h : ∀ a, Q a → Q' a) :
    Yields P Q' m :=
  fun before a after hrun hbefore => (hm before a after hrun hbefore).imp_right (h a)

theorem keeps {m : Staging α} (hm : Yields P Q m) : Keeps P m :=
  fun before a after hrun hbefore => (hm before a after hrun hbefore).1

/-- Where nothing comes next, nothing has to be handed on. -/
theorem bindKeeps {m : Staging α} {f : α → Staging β} (hm : Yields P Q m)
    (hf : ∀ a, Q a → Keeps P (f a)) :
    Keeps P (m >>= f) := by
  intro before b after h hbefore
  obtain ⟨a, mid, ha, hb⟩ := staging_bind_eq_ok.1 h
  obtain ⟨hmid, hQ⟩ := hm before a mid ha hbefore
  exact hf a hQ mid b after hb hmid

end Yields

namespace Keeps

/-! ### What any new node keeps -/

section

variable (hadd : ∀ edit kind place, P edit → P (Edit.add edit kind place).2)
include hadd

theorem stage (kind : Kind NodeId) : Keeps P (stage place kind) := by
  intro before id after h hbefore
  cases h
  exact hadd before kind place hbefore

theorem stageCollector (factory : String) (args : List NodeId) :
    Keeps P (stageCollector options place factory args) := by
  unfold Pipeline.stageCollector
  cases options.collectorStyle with
  | qualified => exact bind (map _ (stage hadd _)) fun _ => stage hadd _
  | staticImport => exact bind (pure _) fun _ => stage hadd _

theorem stageSource (source : NodeId) : Keeps P (stageSource tree place source) := by
  unfold Pipeline.stageSource
  split
  · exact pure _
  · exact stage hadd _

theorem stageFunction (f : StageFunction) : Keeps P (stageFunction place f) := by
  cases f with
  | methodRef q method =>
    -- a qualifier may be code that is there
    refine bind ?_ fun _ => stage hadd _
    cases q with
    | expr id => exact pure _
    | _ => exact stage hadd _
  | lambda p body =>
    -- and so may a body be
    refine bind ?_ fun _ => stage hadd _
    cases body with
    | wrapped id => exact stage hadd _
    | _ => exact pure _

theorem stageStep (method : String) (chain : NodeId) (f : StageFunction) :
    Keeps P (stageStep place method chain f) :=
  bind (stageFunction hadd f) fun _ => stage hadd _

theorem stageChain : Keeps P (stageChain tree place plan) := by
  -- a filter adds its function and its call, whatever it is put behind
  have hfiltered : ∀ stream, Keeps P
      (plan.filters.foldlM (Pipeline.stageStep place "filter") stream) :=
    foldlM fun f _ _ => stageStep hadd _ _ f
  refine bind (stageSource hadd _) fun source => ?_
  dsimp only
  -- a stream is made first where the collection cannot run the pipeline itself
  split
  case' isTrue =>
    refine bind (stage hadd _) fun stream => bind (hfiltered stream) fun filtered => ?_
  case' isFalse =>
    refine bind (pure _) fun stream => bind (hfiltered stream) fun filtered => ?_
  all_goals
    split
    · exact stageStep hadd _ _ _
    · exact pure _

theorem stageCollected (chain : NodeId) (factory : String) (args : List NodeId) :
    Keeps P (stageCollected options place chain factory args) :=
  bind (stageCollector hadd _ _) fun _ => stage hadd _

theorem stageCollection (chain : NodeId) (collector : Collector) :
    Keeps P (stageCollection options place chain collector) := by
  cases collector with
  | custom supplier => exact bind (stage hadd _) fun _ => stageCollected hadd _ _ _
  | _ => exact stageCollected hadd _ _ _

variable (hop : ∀ edit op, P edit → P (Edit.addOp edit op))
include hop

omit hadd in
theorem stageOp (op : EditOp) : Keeps P (stageOp op) := by
  intro before id after h hbefore
  cases h
  exact hop before op hbefore

theorem stageReplacement (stmt : NodeId) : Keeps P (stageReplacement tree place plan stmt) := by
  refine bind (lift _) fun inBlock => ?_
  split
  · exact bind (forM fun _ => stageOp hop _) fun _ => bind (stageOp hop _) fun _ => pure _
  · exact bind (stage hadd _) fun _ => bind (stageOp hop _) fun _ => pure _

/-- **All that a plan asks for.** -/
theorem stagePlan : Keeps P (stagePlan options tree place plan) := by
  -- step by step: all that a plan does is to add nodes and to plan edits
  refine bind (stageChain hadd) fun chain => ?_
  cases plan.terminal with
  | forEach f =>
    cases plan.fold with
    | none =>
      exact bind (stageStep hadd _ _ _) fun _ => bind (stage hadd _) fun _ =>
        bind (stageReplacement hadd hop _) fun _ => pure _
    | some fold => exact violate _
  | addAll receiver =>
    cases plan.fold with
    | none =>
      exact bind (stageCollected hadd _ _ _) fun _ => bind (stage hadd _) fun _ =>
        bind (stage hadd _) fun _ => bind (stageReplacement hadd hop _) fun _ => pure _
    | some fold => exact violate _
  | collect collector =>
    cases plan.fold with
    | none => exact violate _
    | some fold =>
      exact bind (stageCollection hadd _ _) fun _ => bind (forM fun _ => stageOp hop _) fun _ =>
        bind (stageOp hop _) fun _ => bind (stageOp hop _) fun _ => pure _

end

end Keeps

end Pipeline

end LoopToStream
