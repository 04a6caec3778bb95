import ForgeInfer.Scheduler.Victims

/-! # Completed sequences

Retirement comes last, so a completed sequence still stands in the line of victims. It gets
through the preemption loop exactly when the running sequences from it upwards in progress
fit in the cache with one more token for each that still decodes: nothing that admission
places is as progressed as it is.
-/

namespace ForgeInfer

open Scheduler (progressKey)

namespace Ledger

variable {L : Limits} {a : Ledger} {P F : List Sequence}

def CompleteWorked (a : Ledger) : Prop :=
  ∀ x ∈ a.running, x.seq.isComplete = true → x.seq.output ≠ []

theorem completeWorked_scheduled (L : Limits) (a : Ledger) : (a.scheduled L).CompleteWorked := by
  intro x hx hc
  rw [incomplete_of_mem_scheduled hx] at hc
  cases hc

theorem CompleteWorked.pushToken (h : a.CompleteWorked) (id : SeqId) (token : TokenId)
    (isEos : Bool) : (a.pushToken id token isEos).CompleteWorked := by
  intro x hx hc
  obtain ⟨y, hy, rfl⟩ := List.mem_map.mp hx
  by_cases hid : y.seq.id = id
  · rw [Slot.pushToken_of_eq hid]
    simp [Sequence.pushToken]
  · rw [Slot.pushToken_of_ne hid] at hc ⊢
    exact h y hy hc

theorem completeWorked_exec (L : Limits) (ops : List SchedulerOp) (h : (submittedIds ops).Nodup) :
    (Machine.exec (op L) empty ops).1.CompleteWorked := by
  refine Machine.exec_invariant distinct_prefixClosed
    (P := fun _ (a : Ledger) _ => a.CompleteWorked) ?_ ?_ ops h
  · rintro x ⟨⟩
  · rintro ops (⟨id, prompt, maxNewTokens⟩ | ⟨⟩ | ⟨id, token, isEos⟩) - ih
    · exact ih
    · exact completeWorked_scheduled L _
    · exact ih.pushToken id token isEos

/-- What admission places is less progressed than a running sequence with output. -/
theorem Queued.placed_lt (h : a.Queued P F) {x : Slot} (hx : x ∈ a.running)
    (ho : x.seq.output ≠ []) {s : Sequence} (hs : s ∈ a.waiting) :
    progressKey s < progressKey x.seq := by
  rw [h.waiting_eq] at hs
  rcases List.mem_append.mp hs with hs | hs
  · exact h.below_running x hx s hs
  · apply Slot.progressKey_lt_of_output
    rw [h.fresh_output s hs]
    exact List.length_pos_iff.mpr ho

theorem Queued.placed_above (h : a.Queued P F) (L : Limits) {x : Slot} (hx : x ∈ a.running)
    (ho : x.seq.output ≠ []) :
    ((a.placed L).filter fun y => progressKey x.seq ≤ progressKey y.seq) =
      a.running.filter fun y => progressKey x.seq ≤ progressKey y.seq := by
  have hnone : ((a.taken L).map Slot.place).filter
      (fun y => progressKey x.seq ≤ progressKey y.seq) = [] := by
    apply List.filter_eq_nil_iff.mpr
    intro y hy
    obtain ⟨s, hs, rfl⟩ := List.mem_map.mp hy
    have hlt := h.placed_lt hx ho ((Limits.taken_initial _ _).subset hs)
    rw [decide_eq_true_eq, Slot.seq_place, Sequence.progressKey_withState]
    exact not_le.mpr hlt
  rw [placed, List.filter_append, hnone, List.append_nil]

theorem Valid.mem_survivors_iff (hv : a.Valid L) {x : Slot} (hx : x ∈ a.placed L) :
    x ∈ a.survivors L ↔
      L.Fits ((a.placed L).filter fun y => progressKey x.seq ≤ progressKey y.seq) := by
  unfold survivors
  rw [Limits.evict_eq_trim]
  exact Trim.mem_rest_iff (Limits.nodup_map_key hv.placed_nodup) Limits.Fits.sublist le_rfl hx

end Ledger

namespace Scheduler

variable {L : Limits} {s s' : Scheduler} {a : Ledger} {P F : List Sequence}

/-- Blocks that the running sequences from `x` upwards in progress hold and ask for. -/
def demandFrom (s : Scheduler) (x : Sequence) : ℕ :=
  let above := s.running.filter fun y => progressKey x ≤ progressKey y
  s.cache.heldBlocks above + decodeDemand s.cache above

/-- A sequence retired by a plan: listed as finished only, its table gone, in no queue. -/
structure RetiredBy (x : Sequence) (plan : StepPlan) (s' : Scheduler) : Prop where
  finished : x.id ∈ plan.finished
  spared : x.id ∉ plan.preempted
  freed : s'.cache.blockTable x.id = none
  notMem_waiting : x.id ∉ s'.waiting.map (·.id)
  notMem_running : x.id ∉ s'.running.map (·.id)

theorem Refines.demandFrom_eq (h : s.Refines L a) (hv : a.Valid L) (x : Sequence) :
    s.demandFrom x = L.demand (a.running.filter fun y => progressKey x ≤ progressKey y.seq) := by
  have hsub : ∀ y ∈ a.running.filter (fun y => progressKey x ≤ progressKey y.seq),
      y ∈ a.running := fun y hy => List.mem_of_mem_filter hy
  have hd := decodeDemand_add_used h.cache hv.running_state hsub
  have hheld := heldBlocks_eq h.cache hsub
  unfold demandFrom
  rw [h.running_eq, List.filter_map]
  simp only [Function.comp_def]
  rw [hheld]
  omega

theorem Refines.retiredBy_iff (h' : s'.Refines L (a.scheduled L)) (hv : a.Valid L) {x : Slot}
    (hx : x ∈ a.placed L) (hc : x.seq.isComplete = true) :
    RetiredBy x.seq (a.plan L) s' ↔ x ∈ a.survivors L := by
  constructor
  · intro hr
    obtain ⟨y, hy, he⟩ := List.mem_map.mp hr.finished
    have hys := List.mem_of_mem_filter hy
    have hyp := (a.survivors_sublist L).subset hys
    obtain rfl := List.inj_on_of_nodup_map hv.placed_nodup hyp hx he
    exact hys
  · intro hs
    have hfin : x.seq.id ∈ (a.plan L).finished :=
      List.mem_map.mpr ⟨x, List.mem_filter.mpr ⟨hs, hc⟩, rfl⟩
    have hn := (a.ids_scheduled L).nodup_iff.mp hv.nodup
    have hlive : x.seq.id ∉ (a.scheduled L).live.map (·.id) := fun hmem =>
      (List.nodup_append.mp hn).2.2 _ hmem _ hfin rfl
    rw [Ledger.live, List.map_append, List.map_map, List.mem_append, not_or] at hlive
    refine ⟨hfin, ?_, h'.cache.blockTable_eq_none hlive.2, ?_, ?_⟩
    · intro hmem
      obtain ⟨y, hy, he⟩ := List.mem_map.mp hmem
      exact Iteration.victim_notMem hv hy (List.mem_map.mpr ⟨x, hs, he.symm⟩)
    · rw [h'.waiting_eq]
      exact hlive.1
    · rw [h'.running_eq, List.map_map]
      exact hlive.2

end Scheduler

open Scheduler in
/-- After every run, an iteration retires a completed running sequence if and only if the
running sequences from it upwards in progress fit in the cache with the tokens they ask for. -/
theorem retires_complete_iff (maxBatchSize numBlocks blockSize : ℕ) (hb : 0 < blockSize)
    (ops : List SchedulerOp) (hids : (submittedIds ops).Nodup) :
    ∃ s answers s' plan,
      Machine.run op (new ⟨maxBatchSize⟩ (.new numBlocks blockSize hb)) ops = some (s, answers) ∧
      s.schedule = some (s', plan) ∧
      ∀ x ∈ s.running, x.isComplete = true →
        (RetiredBy x plan s' ↔ s.demandFrom x ≤ s.cache.numBlocks) := by
  let L : Limits := ⟨maxBatchSize, numBlocks, blockSize, hb⟩
  have hv := (Ledger.accounted_exec L ops hids).valid
  obtain ⟨P, F, ho⟩ := Ledger.inOrder_exec L ops hids
  obtain ⟨s, hr, hs⟩ := run_refines L ops hids
  obtain ⟨s', hsch, hs'⟩ := schedule_refines hv hs
  refine ⟨s, _, s', _, hr, hsch, fun x hx hc => ?_⟩
  rw [hs.running_eq] at hx
  obtain ⟨y, hy, rfl⟩ := List.mem_map.mp hx
  have hplaced : y ∈ (Machine.exec (Ledger.op L) .empty ops).1.placed L := List.mem_append_left _ hy
  have hout := Ledger.completeWorked_exec L ops hids y hy hc
  rw [hs'.retiredBy_iff hv hplaced hc, hv.mem_survivors_iff hplaced,
    ho.queued.placed_above L hy hout, hs.demandFrom_eq hv, hs.cache.numBlocks_eq]
  rfl

/-- Two requests on a cache with a block to spare: the second is complete at the last call. -/
theorem retires_complete_iff_with_room :
    let ops : List SchedulerOp :=
      [.submit 1 [6] 5, .submit 2 [5] 1, .schedule, .pushToken 1 9 false, .pushToken 2 9 false]
    (submittedIds ops).Nodup ∧ ∃ s answers s' plan,
      Machine.run Scheduler.op (.new ⟨2⟩ (.new 5 1 (by decide))) ops = some (s, answers) ∧
      s.schedule = some (s', plan) ∧
      ∀ x ∈ s.running, x.isComplete = true →
        (Scheduler.RetiredBy x plan s' ↔ s.demandFrom x ≤ s.cache.numBlocks) :=
  ⟨by decide, retires_complete_iff 2 5 1 (by decide) _ (by decide)⟩

/-- With one block less the second request, which has all its tokens, is preempted for the
next token of the first. -/
theorem complete_sequence_is_preempted :
    let ops : List SchedulerOp :=
      [.submit 1 [6] 5, .submit 2 [5] 1, .schedule, .pushToken 1 9 false, .pushToken 2 9 false]
    (submittedIds ops).Nodup ∧ ∃ s answers s' plan,
      Machine.run Scheduler.op (.new ⟨2⟩ (.new 4 1 (by decide))) ops = some (s, answers) ∧
      s.schedule = some (s', plan) ∧
      ∃ x ∈ s.running, x.isComplete = true ∧ ¬Scheduler.RetiredBy x plan s' ∧
        x.id ∈ plan.preempted ∧ x.id ∈ s'.waiting.map (·.id) := by
  intro ops
  refine ⟨by decide, _, _, _, _, rfl, rfl, _, List.mem_cons_of_mem _ List.mem_cons_self,
    by decide, fun h => ?_, by decide, by decide⟩
  exact absurd h.finished (by decide)

end ForgeInfer
