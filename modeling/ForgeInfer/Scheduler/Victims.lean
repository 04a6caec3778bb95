import ForgeInfer.Scheduler.Frame
import ForgeInfer.Scheduler.Order

/-! # Who is preempted

The preemption loop recomputes demand and supply after each removal. What it removes in the
end is the shortest initial segment, in progress order, of what admission left running,
such that the rest can decode on the free blocks and those of the segment. Nothing else
loses its table to it.
-/

namespace ForgeInfer

open Scheduler (progressKey)

namespace Limits

variable {L : Limits} {run run' : List Slot}

def byProgress (run : List Slot) : List Slot := Trim.byKey (fun x => progressKey x.seq) run

theorem byProgress_perm (run : List Slot) : (byProgress run).Perm run := Trim.byKey_perm _ run

theorem map_seq_byProgress (run : List Slot) :
    (byProgress run).map Slot.seq = Trim.byKey progressKey (run.map Slot.seq) := by
  unfold byProgress Trim.byKey
  exact List.map_insertionSort _ _ Slot.seq run fun _ _ _ _ => Iff.rfl

end Limits

namespace Ledger

variable {L : Limits} {a : Ledger}

theorem Valid.byProgress_placed (hv : a.Valid L) :
    Limits.byProgress (a.placed L) = a.victims L ++ Limits.byProgress (a.survivors L) := by
  unfold victims survivors
  rw [Limits.evict_eq_trim]
  exact Trim.byKey_eq_append L.Fits (Limits.nodup_map_key hv.placed_nodup) _

theorem Valid.victims_eq_take (hv : a.Valid L) :
    a.victims L = (Limits.byProgress (a.placed L)).take (a.victims L).length := by
  rw [hv.byProgress_placed, List.take_left]

theorem Valid.isLeast_victims (hv : a.Valid L) :
    IsLeast {k | L.Fits ((Limits.byProgress (a.placed L)).drop k)} (a.victims L).length := by
  unfold victims
  rw [Limits.evict_eq_trim]
  exact Trim.isLeast_removed (Limits.nodup_map_key hv.placed_nodup) (Nat.zero_le _)
    Limits.Fits.perm le_rfl

end Ledger

namespace PagedKVCache

def heldBlocks (c : PagedKVCache) (run : List Sequence) : ℕ :=
  (run.map fun s => ((c.blockTable s.id).map fun t => t.blocks.length).getD 0).sum

end PagedKVCache

namespace Scheduler

variable {L : Limits} {s s' : Scheduler} {a : Ledger} {A : Admission} {P : Preemption}
  {C : PagedKVCache} {c : PagedKVCache} {run : List Slot} {peak : ℕ}

theorem heldBlocks_eq (h : c.Holds L run peak) {l : List Slot} (hl : ∀ x ∈ l, x ∈ run) :
    c.heldBlocks (l.map Slot.seq) = L.used l := by
  unfold PagedKVCache.heldBlocks Limits.used
  rw [List.map_map]
  refine congrArg List.sum (List.map_congr_left fun x hx => ?_)
  obtain ⟨t, ht, -, hlen⟩ := h.blockTable_eq (hl x hx)
  simp [ht, hlen]

/-- The loop's test for a segment of the running sequences is the ledger's. -/
theorem demand_drop_le_iff (h : c.Holds L run peak) (hst : ∀ x ∈ run, x.seq.state = .running)
    {l : List Slot} (hp : l.Perm run) (k : ℕ) :
    decodeDemand c ((l.map Slot.seq).drop k) ≤
        c.freeBlocks + c.heldBlocks ((l.map Slot.seq).take k) ↔
      L.Fits (l.drop k) := by
  have hdrop : ∀ x ∈ l.drop k, x ∈ run := fun x hx =>
    hp.mem_iff.mp (List.mem_of_mem_drop hx)
  have htake : ∀ x ∈ l.take k, x ∈ run := fun x hx =>
    hp.mem_iff.mp (List.mem_of_mem_take hx)
  have hd := decodeDemand_add_used h hst hdrop
  have hheld := heldBlocks_eq h htake
  have hsum : L.used (l.take k) + L.used (l.drop k) = L.used run := by
    rw [← Limits.used_append, List.take_append_drop, Limits.used_perm hp]
  have hu := h.used_le
  rw [← List.map_drop, ← List.map_take, hheld, h.freeBlocks_eq]
  unfold Limits.Fits
  omega

/-- An iteration preempts the first `k` of the sequences `R` that run after admission: the
fewest whose blocks let the rest decode. They lose their tables; the rest keep theirs, but
for the token of an iteration or their retirement. -/
structure Evicts (A : Admission) (P : Preemption) (s' : Scheduler) (plan : StepPlan)
    (R : List Sequence) (k : ℕ) : Prop where
  preempted : plan.preempted = (R.take k).map (·.id)
  shortest : IsLeast {j | decodeDemand A.cache (R.drop j) ≤
    A.cache.freeBlocks + A.cache.heldBlocks (R.take j)} k
  victims : ∀ x ∈ R.take k, x.withState .preempted ∈ s'.waiting ∧
    s'.cache.blockTable x.id = none
  spared : ∀ x ∈ R.drop k, ∃ t, A.cache.blockTable x.id = some t ∧
    P.cache.blockTable x.id = some t ∧
    (x.isComplete = true → x.id ∈ plan.finished ∧ s'.cache.blockTable x.id = none) ∧
    (x.isComplete = false → ∃ blocks,
      s'.cache.blockTable x.id = some ⟨t.blocks ++ blocks, t.numTokens + 1⟩)

namespace Iteration

theorem byKey_running (h : s.Iteration L a A P C s') :
    Trim.byKey progressKey A.running = (Limits.byProgress (a.placed L)).map Slot.seq := by
  rw [h.placed_eq, Limits.map_seq_byProgress]

theorem take_byKey (h : s.Iteration L a A P C s') (hv : a.Valid L) :
    (Trim.byKey progressKey A.running).take (a.victims L).length =
      (a.victims L).map Slot.seq := by
  rw [h.byKey_running, ← List.map_take, ← hv.victims_eq_take]

theorem mem_drop_byKey (h : s.Iteration L a A P C s') (hv : a.Valid L) {x : Sequence}
    (hx : x ∈ (Trim.byKey progressKey A.running).drop (a.victims L).length) :
    ∃ y ∈ a.survivors L, y.seq = x := by
  rw [h.byKey_running, ← List.map_drop, hv.byProgress_placed, List.drop_left] at hx
  obtain ⟨y, hy, rfl⟩ := List.mem_map.mp hx
  exact ⟨y, (Limits.byProgress_perm _).mem_iff.mp hy, rfl⟩

theorem victim_notMem (hv : a.Valid L) {x : Slot} (hx : x ∈ a.victims L) :
    x.seq.id ∉ (a.survivors L).map (·.seq.id) := by
  have hn := ((a.placed_perm L).map (·.seq.id)).nodup_iff.mp hv.placed_nodup
  rw [List.map_append, List.nodup_append] at hn
  intro hmem
  exact hn.2.2 _ (List.mem_map_of_mem hx) _ hmem rfl

theorem running_subset : ((a.scheduled L).running.map (·.seq.id)).Sublist
    ((a.survivors L).map (·.seq.id)) := by
  have hs : (a.batch L).Sublist (a.survivors L) := List.filter_sublist
  rw [Ledger.scheduled, List.map_map]
  simp only [Function.comp_def, Slot.seq_grow]
  exact hs.map _

theorem blockTable_survivor (h : s.Iteration L a A P C s') (hv : a.Valid L) {x : Slot}
    (hx : x ∈ a.survivors L) : P.cache.blockTable x.seq.id = A.cache.blockTable x.seq.id := by
  have hid : x.seq.id ∉ P.preempted := by
    rw [h.preempted_eq]
    intro hmem
    obtain ⟨y, hy, he⟩ := List.mem_map.mp hmem
    exact victim_notMem hv hy (List.mem_map.mpr ⟨x, hx, he.symm⟩)
  have hp := h.preemption
  rw [← hp] at hid ⊢
  exact (blockTable_preemptionLoop _ _ hid).1

theorem running_nodup (h : s.Iteration L a A P C s') : (P.running.map (·.id)).Nodup := by
  rw [h.survivors_eq, List.map_map]
  exact h.survivors_held.nodup

theorem spared (h : s.Iteration L a A P C s') (hv : a.Valid L) {x : Slot}
    (hx : x ∈ a.survivors L) : ∃ t, A.cache.blockTable x.seq.id = some t ∧
    P.cache.blockTable x.seq.id = some t ∧
    (x.seq.isComplete = true → x.seq.id ∈ (a.plan L).finished ∧
      s'.cache.blockTable x.seq.id = none) ∧
    (x.seq.isComplete = false → ∃ blocks,
      s'.cache.blockTable x.seq.id = some ⟨t.blocks ++ blocks, t.numTokens + 1⟩) := by
  obtain ⟨t, ht, -⟩ := h.survivors_held.blockTable_eq hx
  have hxP : x.seq ∈ P.running := by rw [h.survivors_eq]; exact List.mem_map_of_mem hx
  have hid : ∀ y ∈ P.running, y.id = x.seq.id → y = x.seq := fun y hy he =>
    List.inj_on_of_nodup_map h.running_nodup hy hxP he
  refine ⟨t, (h.blockTable_survivor hv hx).symm.trans ht, ht, ?_, ?_⟩
  · intro hc
    refine ⟨List.mem_map.mpr ⟨x, List.mem_filter.mpr ⟨hx, hc⟩, rfl⟩, ?_⟩
    apply h.refines.cache.blockTable_eq_none
    intro hmem
    obtain ⟨y, hy, he⟩ := List.mem_map.mp hmem
    obtain ⟨z, hz, rfl⟩ := List.mem_map.mp hy
    rw [Slot.seq_grow] at he
    have hzP : z.seq ∈ P.running := by
      rw [h.survivors_eq]; exact List.mem_map_of_mem (List.mem_of_mem_filter hz)
    have hzc := Ledger.incomplete_of_mem_batch hz
    rw [hid _ hzP he, hc] at hzc
    cases hzc
  · intro hc
    obtain ⟨blocks, hb⟩ := blockTable_commitLoop_of_incomplete h.commit h.length_batch
      h.running_nodup hxP (h.running_state hv _ hxP) hc ht
    refine ⟨blocks, ?_⟩
    have hkept := blockTable_retireLoop P.running ⟨C, [], []⟩ fun y hy he => by
      rw [hid y hy he, hc]
    rw [h.retirement] at hkept
    exact hkept.trans hb

theorem evicts (h : s.Iteration L a A P C s') (hv : a.Valid L) :
    Evicts A P s' (a.plan L) (Trim.byKey progressKey A.running) (a.plan L).preempted.length := by
  have hk : (a.plan L).preempted.length = (a.victims L).length := List.length_map _
  rw [hk]
  constructor
  · rw [h.take_byKey hv, List.map_map]
    rfl
  · have hset : {j | decodeDemand A.cache ((Trim.byKey progressKey A.running).drop j) ≤
        A.cache.freeBlocks + A.cache.heldBlocks ((Trim.byKey progressKey A.running).take j)} =
        {j | L.Fits ((Limits.byProgress (a.placed L)).drop j)} := by
      ext j
      rw [h.byKey_running]
      exact demand_drop_le_iff h.placed_held hv.placed_state (Limits.byProgress_perm _) j
    rw [hset]
    exact hv.isLeast_victims
  · intro x hx
    rw [h.take_byKey hv] at hx
    obtain ⟨y, hy, rfl⟩ := List.mem_map.mp hx
    constructor
    · rw [h.refines.waiting_eq]
      apply List.mem_append_left
      rw [List.mem_reverse]
      exact List.mem_map_of_mem hy
    · apply h.refines.cache.blockTable_eq_none
      intro hmem
      exact victim_notMem hv hy (running_subset.subset hmem)
  · intro x hx
    obtain ⟨y, hy, rfl⟩ := h.mem_drop_byKey hv hx
    exact h.spared hv hy

end Iteration

end Scheduler

open Scheduler in
/-- After every run, an iteration preempts exactly the shortest initial segment of the
running sequences in progress order that lets the others decode. -/
theorem preempts_shortest_segment (maxBatchSize numBlocks blockSize : ℕ) (hb : 0 < blockSize)
    (ops : List SchedulerOp) (hids : (submittedIds ops).Nodup) :
    ∃ s answers A P s' plan,
      Machine.run op (new ⟨maxBatchSize⟩ (.new numBlocks blockSize hb)) ops = some (s, answers) ∧
      admissionLoop s.config.maxBatchSize s.waiting s.cache s.running [] = some A ∧
      preemptionLoop A.running.length ⟨A.waiting, A.cache, A.running, []⟩ = P ∧
      s.schedule = some (s', plan) ∧
      Evicts A P s' plan (Trim.byKey progressKey A.running) plan.preempted.length := by
  let L : Limits := ⟨maxBatchSize, numBlocks, blockSize, hb⟩
  have hv := (Ledger.accounted_exec L ops hids).valid
  obtain ⟨s, hr, hs⟩ := run_refines L ops hids
  obtain ⟨A, P, C, s', hi⟩ := schedule_iteration hv hs
  exact ⟨s, _, A, P, s', _, hr, hi.admission, hi.preemption, hi.schedule, hi.evicts hv⟩

theorem preempts_shortest_segment_under_pressure :
    let ops : List SchedulerOp := [.submit 1 [5, 6] 3, .submit 2 [7, 8] 3, .submit 3 [9, 4] 1]
    (submittedIds ops).Nodup ∧ ∃ s answers A P s' plan,
      Machine.run Scheduler.op (.new ⟨3⟩ (.new 3 2 (by decide))) ops = some (s, answers) ∧
      Scheduler.admissionLoop s.config.maxBatchSize s.waiting s.cache s.running [] = some A ∧
      Scheduler.preemptionLoop A.running.length ⟨A.waiting, A.cache, A.running, []⟩ = P ∧
      s.schedule = some (s', plan) ∧
      Scheduler.Evicts A P s' plan (Trim.byKey progressKey A.running) plan.preempted.length :=
  ⟨by decide, preempts_shortest_segment 3 3 2 (by decide) _ (by decide)⟩

end ForgeInfer
