import ForgeInfer.Engine.Refinement
import ForgeInfer.Scheduler.Frame

/-! # The decode reservation

The demand is summed once for the whole batch, and the blocks are then taken one sequence
at a time. An append changes no other sequence's demand, so every token that the preemption
loop has made room for is reserved, and the engine finds all the sequences of the batch.
-/

namespace ForgeInfer

namespace Scheduler

variable {L : Limits} {s s' : Scheduler} {a : Ledger} {A : Admission} {P : Preemption}
  {C : PagedKVCache}

namespace Iteration

theorem demand_le_free (h : s.Iteration L a A P C s') (hv : a.Valid L) :
    decodeDemand P.cache P.running ≤ P.cache.freeBlocks := by
  have hst : ∀ x ∈ a.survivors L, x.seq.state = .running := fun x hx =>
    hv.placed_state x ((a.survivors_sublist L).subset hx)
  have hd := decodeDemand_add_used h.survivors_held hst fun _ hx => hx
  have hfit := a.demand_survivors_le L
  rw [h.survivors_eq, h.survivors_held.freeBlocks_eq]
  omega

theorem decodeBatch_eq (h : s.Iteration L a A P C s') :
    (a.plan L).decodeBatch = s'.running.map (·.id) := by
  rw [h.refines.running_eq]
  simp [Ledger.plan, Ledger.scheduled, Function.comp_def]

theorem decodeBatch_nodup (h : s.Iteration L a A P C s') : (a.plan L).decodeBatch.Nodup := by
  have hn : ((a.scheduled L).running.map (·.seq.id)).Nodup := h.refines.cache.nodup
  rw [h.decodeBatch_eq, h.refines.running_eq, List.map_map]
  exact hn

end Iteration

/-- An iteration reserves a token for each sequence that is to decode: there are blocks
enough once the preemption loop ends, and no append of the commit loop is refused. -/
structure Reserves (A : Admission) (P : Preemption) : Prop where
  preemption : preemptionLoop A.running.length ⟨A.waiting, A.cache, A.running, []⟩ = P
  demand_le : decodeDemand P.cache P.running ≤ P.cache.freeBlocks
  append_ok : ∀ done x todo, P.running = done ++ x :: todo → x.isComplete = false →
    ∃ c batch c', commitLoop done P.cache [] = some (c, batch) ∧
      c.append x.id 1 = some (c', .ok ())

theorem Iteration.reserves (h : s.Iteration L a A P C s') (hv : a.Valid L) : Reserves A P where
  preemption := h.preemption
  demand_le := h.demand_le_free hv
  append_ok := by
    intro done x todo hP hc
    have hx : x ∈ P.running := by rw [hP]; exact List.mem_append_right _ List.mem_cons_self
    obtain ⟨c, batch, c', hd, ha, -⟩ :=
      commitLoop_split h.commit h.length_batch hP (h.running_state hv x hx) hc
    exact ⟨c, batch, c', hd, ha⟩

end Scheduler

open Scheduler in
/-- After every run, an iteration completes: every reservation succeeds, the batch lists the
running sequences in order and once, and an engine finds each of them for its token. -/
theorem reservation_never_fails (maxBatchSize numBlocks blockSize : ℕ) (hb : 0 < blockSize)
    (ops : List SchedulerOp) (hids : (submittedIds ops).Nodup) :
    ∃ s answers A P s' plan,
      Machine.run op (new ⟨maxBatchSize⟩ (.new numBlocks blockSize hb)) ops = some (s, answers) ∧
      admissionLoop s.config.maxBatchSize s.waiting s.cache s.running [] = some A ∧
      Reserves A P ∧ s.schedule = some (s', plan) ∧
      plan.decodeBatch = s'.running.map (·.id) ∧ plan.decodeBatch.Nodup ∧
      ∀ m, ∃ e emitted, (Engine.mk s m).stepWithPlan = some (e, plan, emitted) := by
  let L : Limits := ⟨maxBatchSize, numBlocks, blockSize, hb⟩
  have hv := (Ledger.accounted_exec L ops hids).valid
  obtain ⟨s, hr, hs⟩ := run_refines L ops hids
  obtain ⟨A, P, C, s', hi⟩ := schedule_iteration hv hs
  refine ⟨s, _, A, P, s', _, hr, hi.admission, hi.reserves hv, hi.schedule, hi.decodeBatch_eq,
    hi.decodeBatch_nodup, fun m => ?_⟩
  obtain ⟨e, he, -⟩ := Engine.stepWithPlan_refines hv (e := ⟨s, m⟩) ⟨rfl, hs⟩
  exact ⟨e, _, he⟩

theorem reservation_never_fails_under_pressure :
    let ops : List SchedulerOp := [.submit 1 [5, 6] 3, .submit 2 [7] 3]
    (submittedIds ops).Nodup ∧ ∃ s answers A P s' plan,
      Machine.run Scheduler.op (.new ⟨2⟩ (.new 2 2 (by decide))) ops = some (s, answers) ∧
      Scheduler.admissionLoop s.config.maxBatchSize s.waiting s.cache s.running [] = some A ∧
      Scheduler.Reserves A P ∧ s.schedule = some (s', plan) ∧
      plan.decodeBatch = s'.running.map (·.id) ∧ plan.decodeBatch.Nodup ∧
      ∀ m, ∃ e emitted, (Engine.mk s m).stepWithPlan = some (e, plan, emitted) :=
  ⟨by decide, reservation_never_fails 2 2 2 (by decide) _ (by decide)⟩

end ForgeInfer
