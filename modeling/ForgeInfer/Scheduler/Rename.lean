import ForgeInfer.Cache.Rename
import ForgeInfer.Foundation.Trim
import ForgeInfer.Scheduler.Basic

/-! # Renaming the requests of a scheduler

The cache tells ids apart, and preemption compares them to break ties. A strictly ascending
renaming keeps both, so every iteration does the same to the renamed sequences.
-/

namespace ForgeInfer

def Sequence.rename (f : SeqId → SeqId) (s : Sequence) : Sequence := { s with id := f s.id }

def StepPlan.rename (f : SeqId → SeqId) (p : StepPlan) : StepPlan where
  admitted := p.admitted.map f
  decodeBatch := p.decodeBatch.map f
  preempted := p.preempted.map f
  finished := p.finished.map f

namespace Scheduler

section Loops

variable {f : SeqId → SeqId} (hf : Function.Injective f)

theorem admissionLoop_rename (maxBatchSize : ℕ) (waiting : List Sequence) (c : PagedKVCache)
    (running : List Sequence) (admitted : List SeqId) :
    admissionLoop maxBatchSize (waiting.map (Sequence.rename f)) (c.rename hf)
        (running.map (Sequence.rename f)) (admitted.map f) =
      (admissionLoop maxBatchSize waiting c running admitted).map fun A =>
        ⟨A.waiting.map (Sequence.rename f), A.cache.rename hf, A.running.map (Sequence.rename f),
          A.admitted.map f⟩ := by
  induction waiting generalizing c running admitted with
  | nil => rfl
  | cons s rest ih =>
    have happend := (c.admitSeq s.id).append_rename hf s.id s.totalLen
    rw [← PagedKVCache.admitSeq_rename] at happend
    rw [List.map_cons, admissionLoop, admissionLoop, List.length_map]
    split
    · simp only [Sequence.rename, Sequence.totalLen] at happend ⊢
      rw [happend]
      cases (c.admitSeq s.id).append s.id (s.prompt.length + s.output.length) with
      | none => rfl
      | some r =>
        obtain ⟨c', result⟩ := r
        cases result with
        | ok u =>
          have h := ih c' (running ++ [{ s with state := .running }]) (admitted ++ [s.id])
          rw [List.map_append, List.map_append] at h
          exact h
        | error e =>
          simp only [Option.map_some, Option.bind_eq_bind, Option.bind_some, Except.mapError,
            PagedKVCache.free_rename]
          rfl
    · rfl

theorem decodeDemand_rename (c : PagedKVCache) (running : List Sequence) :
    decodeDemand (c.rename hf) (running.map (Sequence.rename f)) = decodeDemand c running := by
  simp only [decodeDemand, List.filter_map, List.map_map, Function.comp_def, Sequence.rename,
    PagedKVCache.blocksNeededFor_rename]
  rfl

theorem commitLoop_rename (todo : List Sequence) (c : PagedKVCache) (batch : List SeqId) :
    commitLoop (todo.map (Sequence.rename f)) (c.rename hf) (batch.map f) =
      (commitLoop todo c batch).map fun r => (r.1.rename hf, r.2.map f) := by
  induction todo generalizing c batch with
  | nil => rfl
  | cons s todo ih =>
    have hskip : ((s.rename f).state ≠ .running ∨ (s.rename f).isComplete = true) ↔
        (s.state ≠ .running ∨ s.isComplete = true) := Iff.rfl
    rw [List.map_cons, commitLoop, commitLoop]
    simp only [hskip]
    split
    · exact ih c batch
    · have happend : (c.rename hf).append (s.rename f).id 1 = _ := c.append_rename hf s.id 1
      rw [happend]
      cases c.append s.id 1 with
      | none => rfl
      | some r =>
        obtain ⟨c', result⟩ := r
        cases result with
        | ok u =>
          have h := ih c' (batch ++ [s.id])
          rw [List.map_append] at h
          exact h
        | error e => exact ih c' batch

theorem retireLoop_rename (todo : List Sequence) (r : Retirement) :
    retireLoop (todo.map (Sequence.rename f))
        ⟨r.cache.rename hf, r.stillRunning.map (Sequence.rename f), r.finished.map f⟩ =
      ⟨(retireLoop todo r).cache.rename hf,
        (retireLoop todo r).stillRunning.map (Sequence.rename f),
        (retireLoop todo r).finished.map f⟩ := by
  induction todo generalizing r with
  | nil => rfl
  | cons s todo ih =>
    have hdone : (s.rename f).isComplete = s.isComplete := rfl
    rw [List.map_cons, retireLoop, retireLoop, hdone]
    split
    · rw [← ih, ← PagedKVCache.free_rename, List.map_append]
      rfl
    · rw [← ih, List.map_append]
      rfl

end Loops

variable {f : SeqId → SeqId} (hf : StrictMono f)

def rename (s : Scheduler) : Scheduler :=
  { s with
    cache := s.cache.rename hf.injective
    waiting := s.waiting.map (Sequence.rename f)
    running := s.running.map (Sequence.rename f) }

include hf in
theorem progressKey_rename_lt (s t : Sequence) :
    progressKey (s.rename f) < progressKey (t.rename f) ↔ progressKey s < progressKey t := by
  simp [progressKey, Sequence.rename, Prod.Lex.toLex_lt_toLex, hf.lt_iff_lt]

include hf in
theorem victimIdx_rename (running : List Sequence) :
    victimIdx (running.map (Sequence.rename f)) = victimIdx running := by
  have hz : (running.map (Sequence.rename f)).zipIdx =
      running.zipIdx.map fun si => (si.1.rename f, si.2) := List.zipIdx_map
  have hargmin : ∀ l : List (Sequence × ℕ),
      l.argmin (fun si => progressKey (si.1.rename f)) = l.argmin fun si => progressKey si.1 :=
    Trim.argmin_congr fun x y => progressKey_rename_lt hf x.1 y.1
  have hstate : ∀ s : Sequence, (s.rename f).state = s.state := fun _ => rfl
  rw [victimIdx, hz, List.filter_map, Trim.argmin_map, Option.map_map]
  simp only [Function.comp_def, hstate, hargmin]
  rfl

theorem preemptionLoop_rename (n : ℕ) (p : Preemption) :
    preemptionLoop n
        ⟨p.waiting.map (Sequence.rename f), p.cache.rename hf.injective,
          p.running.map (Sequence.rename f), p.preempted.map f⟩ =
      ⟨(preemptionLoop n p).waiting.map (Sequence.rename f),
        (preemptionLoop n p).cache.rename hf.injective,
        (preemptionLoop n p).running.map (Sequence.rename f),
        (preemptionLoop n p).preempted.map f⟩ := by
  induction n generalizing p with
  | zero => rfl
  | succ n ih =>
    rw [preemptionLoop, preemptionLoop]
    simp only [decodeDemand_rename, victimIdx_rename hf, List.isEmpty_map, List.getElem?_map,
      PagedKVCache.freeBlocks_rename]
    split
    · rfl
    · cases victimIdx p.running with
      | none => rfl
      | some i =>
        cases hv : p.running[i]? with
        | none => simp [hv]
        | some victim =>
          simp only [hv, Option.map_some]
          rw [← ih, ← PagedKVCache.free_rename, List.map_append, ← List.eraseIdx_map]
          rfl

theorem schedule_rename (s : Scheduler) :
    (s.rename hf).schedule = s.schedule.map fun r => (r.1.rename hf, r.2.rename f) := by
  have hplace := admissionLoop_rename hf.injective s.config.maxBatchSize s.waiting s.cache
    s.running []
  rw [List.map_nil] at hplace
  rw [schedule, schedule, rename]
  simp only [hplace]
  cases admissionLoop s.config.maxBatchSize s.waiting s.cache s.running [] with
  | none => rfl
  | some A =>
    have hp := preemptionLoop_rename hf A.running.length ⟨A.waiting, A.cache, A.running, []⟩
    rw [List.map_nil] at hp
    simp only [Option.map_some, Option.bind_eq_bind, Option.bind_some, List.length_map, hp]
    set p := preemptionLoop A.running.length ⟨A.waiting, A.cache, A.running, []⟩
    have hcommit := commitLoop_rename hf.injective p.running p.cache []
    rw [List.map_nil] at hcommit
    rw [hcommit]
    cases commitLoop p.running p.cache [] with
    | none => rfl
    | some cb =>
      have hr := retireLoop_rename hf.injective p.running ⟨cb.1, [], []⟩
      simp only [List.map_nil] at hr
      simp only [Option.map_some, Option.bind_some, hr]
      rfl

theorem submit_rename (s : Scheduler) (id : SeqId) (prompt : List TokenId) (maxNewTokens : ℕ) :
    (s.rename hf).submit (.new (f id) prompt maxNewTokens) =
      (s.submit (.new id prompt maxNewTokens)).rename hf := by
  simp [submit, rename, Sequence.new, Sequence.rename]

theorem pushToken_rename (s : Scheduler) (id : SeqId) (token : TokenId) (isEos : Bool) :
    (s.rename hf).pushToken (f id) token isEos = (s.pushToken id token isEos).rename hf := by
  have hrun : ∀ run : List Sequence,
      (run.map (Sequence.rename f)).replaceF
          (fun seq => if seq.id = f id then some (seq.pushToken token isEos) else none) =
        (run.replaceF fun seq =>
          if seq.id = id then some (seq.pushToken token isEos) else none).map
            (Sequence.rename f) := by
    intro run
    induction run with
    | nil => rfl
    | cons x run ih =>
      by_cases hx : x.id = id
      · simp [List.replaceF, hx, Sequence.rename, Sequence.pushToken]
      · have hfx : f x.id ≠ f id := fun h => hx (hf.injective h)
        simpa [List.replaceF, hx, hfx, Sequence.rename] using ih
  simp only [pushToken, rename, hrun]

theorem runningSeq_rename (s : Scheduler) (id : SeqId) :
    (s.rename hf).runningSeq (f id) = (s.runningSeq id).map (Sequence.rename f) := by
  simp only [runningSeq, rename, List.find?_map, Function.comp_def, Sequence.rename,
    hf.injective.beq_eq]

end Scheduler

end ForgeInfer
