import ForgeInfer.Engine.Completion
import ForgeInfer.Scheduler.Rename

/-! # Renaming the requests of an engine

The forward passes look up the ids of the plan, and the outputs are recorded and sorted by
id. A strictly ascending renaming keeps both, so every call does the same to the renamed
engine and answers with the renamed ids.
-/

namespace ForgeInfer

def GenerationOutput.rename (f : SeqId → SeqId) (o : GenerationOutput) : GenerationOutput :=
  ⟨f o.id, o.tokens⟩

def Emission.rename (f : SeqId → SeqId) (t : Emission) : Emission := (f t.1, t.2)

def StepAnswer.rename (f : SeqId → SeqId) (r : StepAnswer) : StepAnswer :=
  r.map fun a => (a.1.rename f, a.2.map (Emission.rename f))

def EngineOp.rename (f : SeqId → SeqId) : EngineOp → EngineOp
  | .submit id prompt maxNewTokens => .submit (f id) prompt maxNewTokens
  | .step => .step

namespace Engine

variable {f : SeqId → SeqId} (hf : StrictMono f)

def rename (e : Engine) : Engine := { e with scheduler := e.scheduler.rename hf }

theorem decodeLoop_rename (m : Model) (ids : List SeqId) (s : Scheduler)
    (emitted : List Emission) :
    decodeLoop m (ids.map f) (s.rename hf) (emitted.map (Emission.rename f)) =
      (decodeLoop m ids s emitted).map fun r => (r.1.rename hf, r.2.map (Emission.rename f)) := by
  induction ids generalizing s emitted with
  | nil => rfl
  | cons id ids ih =>
    rw [List.map_cons, decodeLoop, decodeLoop, Scheduler.runningSeq_rename]
    cases s.runningSeq id with
    | none => rfl
    | some seq =>
      let token := (m.forward (seq.prompt ++ seq.output)).argmax
      have h := ih (s.pushToken id token (token == m.eosToken))
        (emitted ++ [(id, token, token == m.eosToken)])
      rw [List.map_append, ← Scheduler.pushToken_rename] at h
      exact h

theorem stepWithPlan_rename (e : Engine) :
    (e.rename hf).stepWithPlan =
      e.stepWithPlan.map fun r =>
        (r.1.rename hf, r.2.1.rename f, r.2.2.map (Emission.rename f)) := by
  rw [stepWithPlan, stepWithPlan, rename]
  simp only [Scheduler.schedule_rename]
  cases e.scheduler.schedule with
  | none => rfl
  | some r =>
    have hdecode := decodeLoop_rename hf e.model r.2.decodeBatch r.1 []
    rw [List.map_nil] at hdecode
    simp only [Option.map_some, Option.bind_eq_bind, Option.bind_some, StepPlan.rename, hdecode]
    cases decodeLoop e.model r.2.decodeBatch r.1 [] <;> rfl

theorem step_rename (e : Engine) :
    (e.rename hf).step = e.step.map fun r => (r.1.rename hf, r.2.map (Emission.rename f)) := by
  simp only [step, stepWithPlan_rename, Option.map_map, Function.comp_def]

theorem op_rename (e : Engine) (o : EngineOp) :
    (e.rename hf).op (o.rename f) =
      (e.op o).map fun r => (r.1.rename hf, StepAnswer.rename f r.2) := by
  cases o with
  | submit id prompt maxNewTokens =>
    simp only [op, EngineOp.rename, submit, rename, Scheduler.submit_rename, Option.map_some,
      StepAnswer.rename, Option.map_none]
  | step =>
    simp only [op, EngineOp.rename, stepWithPlan_rename, Option.map_map]
    rfl

theorem run_rename (e : Engine) (ops : List EngineOp) :
    Machine.run op (e.rename hf) (ops.map (EngineOp.rename f)) =
      (Machine.run op e ops).map fun r => (r.1.rename hf, r.2.map (StepAnswer.rename f)) :=
  Machine.run_map_answers (op_rename hf) e ops

theorem record_rename (outputs : Outputs) (emitted : List Emission) :
    record (Keyed.mapKeys f hf.injective outputs) (emitted.map (Emission.rename f)) =
      Keyed.mapKeys f hf.injective (record outputs emitted) := by
  simp only [record]
  induction emitted generalizing outputs with
  | nil => rfl
  | cons t emitted ih =>
    rw [List.map_cons, List.foldl_cons, List.foldl_cons, ← ih, Keyed.mapKeys_insert]
    simp only [Emission.rename, Keyed.lookup_mapKeys]

theorem completionLoop_rename (n : ℕ) (e : Engine) (outputs : Outputs) :
    completionLoop n (e.rename hf) (Keyed.mapKeys f hf.injective outputs) =
      (completionLoop n e outputs).map fun r =>
        (r.1.rename hf, Keyed.mapKeys f hf.injective r.2.1, r.2.2) := by
  have hwork : ∀ e : Engine, (e.rename hf).scheduler.hasWork = e.scheduler.hasWork := by
    intro e
    simp [Scheduler.hasWork, rename, Scheduler.rename]
  induction n generalizing e outputs with
  | zero =>
    rw [completionLoop, completionLoop, hwork, step_rename]
    split
    · cases e.step with
      | none => rfl
      | some r =>
        simp only [Option.map_some, Option.bind_eq_bind, Option.bind_some, record_rename hf]
    · rfl
  | succ n ih =>
    rw [completionLoop, completionLoop, hwork, step_rename]
    split
    · cases e.step with
      | none => rfl
      | some r =>
        simp only [Option.map_some, Option.bind_eq_bind, Option.bind_some, record_rename hf, ih]
    · rfl

theorem results_rename (order order' : IterOrder (Σ _ : SeqId, List TokenId)) (outputs : Outputs) :
    results order' (Keyed.mapKeys f hf.injective outputs) =
      (results order outputs).map (GenerationOutput.rename f) := by
  have hperm : (results order' (Keyed.mapKeys f hf.injective outputs)).Perm
      ((results order outputs).map (GenerationOutput.rename f)) := by
    have hleft := results_perm order' (Keyed.mapKeys f hf.injective outputs)
    have hright := (results_perm order outputs).map (GenerationOutput.rename f)
    rw [Keyed.mapKeys, List.map_map] at hleft
    rw [List.map_map] at hright
    exact hleft.trans hright.symm
  have hleft := ascending_results order' (Keyed.mapKeys f hf.injective outputs)
  have hright : ((results order outputs).map (GenerationOutput.rename f)).Pairwise
      fun a b => a.id < b.id :=
    List.pairwise_map.mpr ((ascending_results order outputs).imp fun h => hf h)
  exact hperm.eq_of_pairwise (fun a b _ _ hab hba => absurd (hab.trans hba) (lt_irrefl _))
    hleft hright

theorem runToCompletion_rename (order order' : IterOrder (Σ _ : SeqId, List TokenId))
    (e : Engine) :
    (e.rename hf).runToCompletion order' =
      (e.runToCompletion order).map (List.map (GenerationOutput.rename f)) := by
  have hloop := completionLoop_rename hf maxIterations e ∅
  rw [Keyed.mapKeys_empty] at hloop
  rw [runToCompletion, runToCompletion, hloop, Option.map_map, Option.map_map]
  congr 1
  funext r
  exact results_rename hf order order' r.2.1

end Engine

end ForgeInfer
