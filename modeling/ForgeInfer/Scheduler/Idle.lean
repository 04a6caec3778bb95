import ForgeInfer.Scheduler.Conservation

/-! # Idle iterations

A plan is empty only when nothing runs and admission stops at once. Such an iteration
undoes the registration of the sequence it could not place, so it changes nothing, and
without a new request neither does any later call.
-/

namespace ForgeInfer

namespace Ledger

variable {L : Limits} {a : Ledger}

theorem isIdle_plan_iff : (a.plan L).isIdle = true ↔ a.running = [] ∧ a.taken L = [] := by
  have hp := (a.placed_perm L).length_eq
  have hs := (a.survivors_perm L).length_eq
  have hl : (a.placed L).length = a.running.length + (a.taken L).length := by
    rw [placed, List.length_append, List.length_map]
  rw [List.length_append] at hp hs
  simp only [StepPlan.isIdle, plan, Bool.and_eq_true, List.isEmpty_iff,
    ← List.length_eq_zero_iff, List.length_map]
  omega

theorem taken_eq_nil_iff (hr : a.running = []) :
    a.taken L = [] ↔ a.waiting = [] ∨ L.maxBatchSize = 0 ∨
      ∃ x ∈ a.waiting.head?, L.numBlocks < L.blocks x.totalLen := by
  unfold taken
  rw [hr]
  cases a.waiting with
  | nil => exact iff_of_true rfl (Or.inl rfl)
  | cons x rest =>
    rw [Limits.taken]
    simp only [List.length_nil, Limits.used_nil, Nat.zero_add, List.head?_cons, Option.mem_def,
      Option.some.injEq, exists_eq_left', reduceCtorEq, false_or]
    split
    · next h =>
      refine iff_of_false (List.cons_ne_nil _ _) ?_
      rintro (hz | hbig)
      · omega
      · exact absurd h.2 (not_le.mpr hbig)
    · next h =>
      refine iff_of_true rfl ?_
      rw [not_and_or] at h
      omega

end Ledger

namespace Scheduler

variable {L : Limits} {s : Scheduler} {a : Ledger}

/-- Nothing runs and nothing can be admitted: the queue is empty, the batch has no place,
or the front needs more blocks than there are. -/
def Stuck (s : Scheduler) : Prop :=
  s.running = [] ∧ (s.waiting = [] ∨ s.config.maxBatchSize = 0 ∨
    ∃ x ∈ s.waiting.head?, s.cache.numBlocks < x.totalLen ⌈/⌉ s.cache.blockSize)

theorem Refines.stuck_iff (h : s.Refines L a) : s.Stuck ↔ (a.plan L).isIdle = true := by
  rw [Ledger.isIdle_plan_iff, Stuck, h.running_eq, List.map_eq_nil_iff]
  refine and_congr_right fun hr => ?_
  rw [Ledger.taken_eq_nil_iff hr, h.waiting_eq, h.maxBatchSize_eq, h.cache.numBlocks_eq,
    h.cache.blockSize_eq]
  rfl

/-- A stuck iteration changes nothing: what it registers in the cache it takes back. -/
theorem Refines.schedule_of_stuck (h : s.Refines L a) (hs : s.Stuck) :
    s.schedule = some (s, {}) := by
  obtain ⟨hr, hw⟩ := hs
  have ha : admissionLoop s.config.maxBatchSize s.waiting s.cache [] [] =
      some ⟨s.waiting, s.cache, [], []⟩ := by
    cases hq : s.waiting with
    | nil => rfl
    | cons x rest =>
      by_cases hb : s.config.maxBatchSize = 0
      · simp [admissionLoop, hb]
      · have hbig : L.numBlocks < L.blocks x.totalLen := by
          simpa [hq, hb, h.cache.numBlocks_eq, h.cache.blockSize_eq, Limits.blocks] using hw
        have hrun : a.running = [] := by simpa [hr] using h.running_eq
        have hx : x.id ∉ a.running.map (·.seq.id) := by simp [hrun]
        have hu : L.used a.running = 0 := by simp [hrun]
        obtain ⟨e, he⟩ := (h.cache.admitSeq hx).append_of_full (List.Perm.refl _)
          (Nat.zero_add x.totalLen) (by omega)
        rw [admissionLoop_of_error (Nat.pos_of_ne_zero hb) he, h.cache.free_admitSeq hx]
  obtain ⟨config, cache, waiting, running⟩ := s
  obtain rfl : running = [] := hr
  exact schedule_of_loops ha rfl rfl rfl

theorem pushToken_of_stuck (hs : s.Stuck) (id : SeqId) (token : TokenId) (isEos : Bool) :
    s.pushToken id token isEos = s := by
  obtain ⟨config, cache, waiting, running⟩ := s
  obtain ⟨rfl, -⟩ := hs
  rfl

def idleAnswer : SchedulerOp → Option StepPlan
  | .schedule => some {}
  | _ => none

theorem Refines.op_of_stuck (h : s.Refines L a) (hs : s.Stuck) {o : SchedulerOp}
    (ho : o.submitted = none) : s.op o = some (s, idleAnswer o) := by
  cases o with
  | submit id prompt maxNewTokens => cases ho
  | schedule => rw [op, h.schedule_of_stuck hs]; rfl
  | pushToken id token isEos => rw [op, pushToken_of_stuck hs]; rfl

/-- However the scheduler is driven without a new request, it stays as it is and its plans
are idle. -/
def StaysIdle (s : Scheduler) : Prop :=
  ∀ later, submittedIds later = [] → ∃ answers, Machine.run op s later = some (s, answers) ∧
    ∀ plan ∈ answers.reduceOption, plan.isIdle = true

theorem Refines.staysIdle (h : s.Refines L a) (hs : s.Stuck) : s.StaysIdle := by
  intro later hl
  have hnone : ∀ o ∈ later, o.submitted = none := List.filterMap_eq_nil_iff.mp hl
  refine ⟨later.map idleAnswer, ?_, ?_⟩
  · apply Machine.run_of_fixed
    intro o ho
    exact h.op_of_stuck hs (hnone o ho)
  · intro plan hp
    rw [List.reduceOption_mem_iff, List.mem_map] at hp
    obtain ⟨o, -, ho⟩ := hp
    cases o with
    | submit id prompt maxNewTokens => cases ho
    | schedule => cases ho; rfl
    | pushToken id token isEos => cases ho

end Scheduler

open Scheduler in
/-- After every run, an iteration is idle exactly when the scheduler is stuck; it then leaves
the scheduler and its cache as they were, and so does every later call but a submission. -/
theorem idle_iff_stuck (maxBatchSize numBlocks blockSize : ℕ) (hb : 0 < blockSize)
    (ops : List SchedulerOp) (hids : (submittedIds ops).Nodup) :
    ∃ s answers s' plan,
      Machine.run op (new ⟨maxBatchSize⟩ (.new numBlocks blockSize hb)) ops = some (s, answers) ∧
      s.schedule = some (s', plan) ∧ (plan.isIdle = true ↔ s.Stuck) ∧
      (plan.isIdle = true → s' = s ∧ s.StaysIdle) := by
  let L : Limits := ⟨maxBatchSize, numBlocks, blockSize, hb⟩
  have hv := (Ledger.accounted_exec L ops hids).valid
  obtain ⟨s, hr, hs⟩ := run_refines L ops hids
  obtain ⟨s', hsch, -⟩ := schedule_refines hv hs
  refine ⟨s, _, s', _, hr, hsch, hs.stuck_iff.symm, fun hidle => ?_⟩
  have hstuck := hs.stuck_iff.mpr hidle
  rw [hs.schedule_of_stuck hstuck, Option.some.injEq, Prod.mk.injEq] at hsch
  exact ⟨hsch.1.symm, hs.staysIdle hstuck⟩

/-- The head of the queue does not fit in the cache, and the request behind it would. -/
theorem idle_iff_stuck_behind_a_long_prompt :
    let ops : List SchedulerOp := [.submit 1 [5, 6, 7] 3, .submit 2 [7] 3, .schedule]
    (submittedIds ops).Nodup ∧ ∃ s answers s' plan,
      Machine.run Scheduler.op (.new ⟨2⟩ (.new 1 2 (by decide))) ops = some (s, answers) ∧
      s.schedule = some (s', plan) ∧ (plan.isIdle = true ↔ s.Stuck) ∧
      (plan.isIdle = true → s' = s ∧ s.StaysIdle) :=
  ⟨by decide, idle_iff_stuck 2 1 2 (by decide) _ (by decide)⟩

end ForgeInfer
