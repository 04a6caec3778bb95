import ForgeInfer.Foundation.Machine
import ForgeInfer.Foundation.Trim
import ForgeInfer.Scheduler.Basic

/-! # The scheduler does not look at tokens

It counts the tokens of a prompt and an output and reads none of them. Blanking all tokens
commutes with every call, so two drivers that agree on ids, lengths, limits and ends of
sequences get the same plans and leave the same cache.
-/

namespace ForgeInfer

/-- As many tokens, all alike. -/
def blankTokens (tokens : List TokenId) : List TokenId := tokens.map fun _ => 0

@[simp] theorem length_blankTokens (tokens : List TokenId) :
    (blankTokens tokens).length = tokens.length := List.length_map _

namespace Sequence

def blank (s : Sequence) : Sequence :=
  { s with prompt := blankTokens s.prompt, output := blankTokens s.output }

@[simp] theorem id_blank (s : Sequence) : s.blank.id = s.id := rfl

@[simp] theorem state_blank (s : Sequence) : s.blank.state = s.state := rfl

@[simp] theorem totalLen_blank (s : Sequence) : s.blank.totalLen = s.totalLen := by
  simp [totalLen, blank]

@[simp] theorem isComplete_blank (s : Sequence) : s.blank.isComplete = s.isComplete := by
  simp [isComplete, blank]

theorem pushToken_blank (s : Sequence) (token : TokenId) (isEos : Bool) :
    s.blank.pushToken 0 isEos = (s.pushToken token isEos).blank := by
  simp [pushToken, blank, blankTokens]

end Sequence

def SchedulerOp.blank : SchedulerOp → SchedulerOp
  | .submit id prompt maxNewTokens => .submit id (blankTokens prompt) maxNewTokens
  | .schedule => .schedule
  | .pushToken id _ isEos => .pushToken id 0 isEos

namespace Scheduler

def blank (s : Scheduler) : Scheduler :=
  { s with waiting := s.waiting.map Sequence.blank, running := s.running.map Sequence.blank }

@[simp] theorem progressKey_blank (s : Sequence) : progressKey s.blank = progressKey s := by
  simp [progressKey, Sequence.blank]

theorem admissionLoop_blank (maxBatchSize : ℕ) (waiting : List Sequence) (c : PagedKVCache)
    (running : List Sequence) (admitted : List SeqId) :
    admissionLoop maxBatchSize (waiting.map Sequence.blank) c (running.map Sequence.blank)
        admitted =
      (admissionLoop maxBatchSize waiting c running admitted).map fun A =>
        { A with
          waiting := A.waiting.map Sequence.blank
          running := A.running.map Sequence.blank } := by
  induction waiting generalizing c running admitted with
  | nil => rfl
  | cons s rest ih =>
    rw [List.map_cons, admissionLoop, admissionLoop, List.length_map, Sequence.id_blank,
      Sequence.totalLen_blank]
    split
    · cases (c.admitSeq s.id).append s.id s.totalLen with
      | none => rfl
      | some r =>
        obtain ⟨c', result⟩ := r
        cases result with
        | ok u =>
          have h := ih c' (running ++ [{ s with state := .running }]) (admitted ++ [s.id])
          rw [List.map_append] at h
          exact h
        | error e => rfl
    · rfl

theorem decodeDemand_blank (c : PagedKVCache) (running : List Sequence) :
    decodeDemand c (running.map Sequence.blank) = decodeDemand c running := by
  simp [decodeDemand, List.filter_map, Function.comp_def]

theorem victimIdx_blank (running : List Sequence) :
    victimIdx (running.map Sequence.blank) = victimIdx running := by
  have hz : (running.map Sequence.blank).zipIdx =
      running.zipIdx.map fun si => (si.1.blank, si.2) := List.zipIdx_map
  rw [victimIdx, hz, List.filter_map, Trim.argmin_map, Option.map_map]
  simp only [Function.comp_def, Sequence.state_blank, progressKey_blank]
  rfl

theorem preemptionLoop_blank (n : ℕ) (p : Preemption) :
    preemptionLoop n { p with
        waiting := p.waiting.map Sequence.blank
        running := p.running.map Sequence.blank } =
      { preemptionLoop n p with
        waiting := (preemptionLoop n p).waiting.map Sequence.blank
        running := (preemptionLoop n p).running.map Sequence.blank } := by
  induction n generalizing p with
  | zero => rfl
  | succ n ih =>
    rw [preemptionLoop, preemptionLoop]
    simp only [decodeDemand_blank, victimIdx_blank, List.isEmpty_map, List.getElem?_map]
    split
    · rfl
    · cases victimIdx p.running with
      | none => rfl
      | some i =>
        cases hv : p.running[i]? with
        | none => simp [hv]
        | some victim =>
          simp only [hv, Option.map_some]
          rw [← ih]
          simp [List.eraseIdx_map, Sequence.blank]

theorem commitLoop_blank (todo : List Sequence) (c : PagedKVCache) (batch : List SeqId) :
    commitLoop (todo.map Sequence.blank) c batch = commitLoop todo c batch := by
  induction todo generalizing c batch with
  | nil => rfl
  | cons s todo ih =>
    rw [List.map_cons, commitLoop, commitLoop]
    simp only [Sequence.state_blank, Sequence.isComplete_blank, Sequence.id_blank, ih]

theorem retireLoop_blank (todo : List Sequence) (r : Retirement) :
    retireLoop (todo.map Sequence.blank)
        { r with stillRunning := r.stillRunning.map Sequence.blank } =
      { retireLoop todo r with
        stillRunning := (retireLoop todo r).stillRunning.map Sequence.blank } := by
  induction todo generalizing r with
  | nil => rfl
  | cons s todo ih =>
    rw [List.map_cons, retireLoop, retireLoop, Sequence.isComplete_blank, Sequence.id_blank]
    split
    · exact ih { r with cache := r.cache.free s.id, finished := r.finished ++ [s.id] }
    · rw [← ih, List.map_append]
      rfl

theorem schedule_blank (s : Scheduler) :
    s.blank.schedule = s.schedule.map fun r => (r.1.blank, r.2) := by
  rw [schedule, schedule, blank]
  simp only [admissionLoop_blank]
  cases admissionLoop s.config.maxBatchSize s.waiting s.cache s.running [] with
  | none => rfl
  | some A =>
    have hp := preemptionLoop_blank A.running.length ⟨A.waiting, A.cache, A.running, []⟩
    simp only [Option.map_some, Option.bind_eq_bind, Option.bind_some, List.length_map, hp,
      commitLoop_blank]
    set p := preemptionLoop A.running.length ⟨A.waiting, A.cache, A.running, []⟩
    cases commitLoop p.running p.cache [] with
    | none => rfl
    | some cb =>
      have hr := retireLoop_blank p.running ⟨cb.1, [], []⟩
      rw [List.map_nil] at hr
      simp only [Option.bind_some, hr, Option.map_some, blank]

theorem pushToken_blank (s : Scheduler) (id : SeqId) (token : TokenId) (isEos : Bool) :
    s.blank.pushToken id 0 isEos = (s.pushToken id token isEos).blank := by
  have hrun : ∀ run : List Sequence,
      (run.map Sequence.blank).replaceF
          (fun seq => if seq.id = id then some (seq.pushToken 0 isEos) else none) =
        (run.replaceF fun seq =>
          if seq.id = id then some (seq.pushToken token isEos) else none).map Sequence.blank := by
    intro run
    induction run with
    | nil => rfl
    | cons x run ih =>
      by_cases hx : x.id = id
      · simp [List.replaceF, hx, Sequence.pushToken_blank x token isEos]
      · simp [List.replaceF, hx, ih]
  simp only [pushToken, blank, hrun]

theorem op_blank (s : Scheduler) (o : SchedulerOp) :
    s.blank.op o.blank = (s.op o).map fun r => (r.1.blank, r.2) := by
  cases o with
  | submit id prompt maxNewTokens => simp [op, SchedulerOp.blank, submit, blank, Sequence.new,
      Sequence.blank, blankTokens]
  | schedule =>
    simp only [op, SchedulerOp.blank, schedule_blank, Option.map_map]
    rfl
  | pushToken id token isEos =>
    simp only [op, SchedulerOp.blank, pushToken_blank s id token isEos, Option.map_some]

end Scheduler

/-- Two runs whose calls differ in token values only answer with the same plans and leave the
same cache and the same ids, in the same order, in queue and batch. -/
theorem plans_ignore_token_values (config : SchedulerConfig) (cache : PagedKVCache)
    (ops ops' : List SchedulerOp) (h : ops.map SchedulerOp.blank = ops'.map SchedulerOp.blank) :
    (Machine.run Scheduler.op (.new config cache) ops).map (fun r =>
        (r.2, r.1.cache, r.1.waiting.map (·.id), r.1.running.map (·.id))) =
      (Machine.run Scheduler.op (.new config cache) ops').map fun r =>
        (r.2, r.1.cache, r.1.waiting.map (·.id), r.1.running.map (·.id)) := by
  have hread : ∀ ops : List SchedulerOp,
      (Machine.run Scheduler.op (.new config cache) ops).map (fun r =>
          (r.2, r.1.cache, r.1.waiting.map (·.id), r.1.running.map (·.id))) =
        (Machine.run Scheduler.op (.new config cache) (ops.map SchedulerOp.blank)).map fun r =>
          (r.2, r.1.cache, r.1.waiting.map (·.id), r.1.running.map (·.id)) := by
    intro ops
    have hb := Machine.run_map Scheduler.op_blank (.new config cache) ops
    have hnew : (Scheduler.new config cache).blank = .new config cache := rfl
    rw [hnew] at hb
    rw [hb, Option.map_map]
    simp only [Function.comp_def, Scheduler.blank, List.map_map, Sequence.id_blank]
  rw [hread ops, hread ops', h]

theorem plans_ignore_token_values_under_pressure :
    let cache : PagedKVCache := .new 6 1 (by decide)
    let ops : List SchedulerOp :=
      [.submit 1 [1, 2] 50, .submit 2 [3, 4] 50, .schedule, .pushToken 1 5 false,
        .pushToken 2 6 false, .schedule, .pushToken 1 7 true, .schedule, .schedule]
    let ops' : List SchedulerOp :=
      [.submit 1 [9, 9] 50, .submit 2 [8, 7] 50, .schedule, .pushToken 1 6 false,
        .pushToken 2 6 false, .schedule, .pushToken 1 0 true, .schedule, .schedule]
    (Machine.run Scheduler.op (.new ⟨8⟩ cache) ops).map (fun r =>
        (r.2, r.1.cache, r.1.waiting.map (·.id), r.1.running.map (·.id))) =
      (Machine.run Scheduler.op (.new ⟨8⟩ cache) ops').map fun r =>
        (r.2, r.1.cache, r.1.waiting.map (·.id), r.1.running.map (·.id)) :=
  plans_ignore_token_values _ _ _ _ (by decide)

end ForgeInfer
