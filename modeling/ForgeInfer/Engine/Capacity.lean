import ForgeInfer.Engine.Agreement
import ForgeInfer.Foundation.Largest

/-! # A cache for the worst case

A request never holds more than its prompt and its limit, not even while an iteration asks
for one more token of each sequence. A cache that fits the largest such needs of a full
batch is therefore never under pressure: nothing is preempted, and admission stops only at
a full batch or an empty queue.
-/

namespace ForgeInfer

def EngineOp.need (blockSize : ℕ) : EngineOp → Option ℕ
  | .submit _ prompt maxNewTokens => some ((prompt.length + maxNewTokens) ⌈/⌉ blockSize)
  | .step => none

def needs (blockSize : ℕ) (ops : List EngineOp) : List ℕ := ops.filterMap (EngineOp.need blockSize)

/-- The needs of the most demanding full batch. -/
def worstCase (maxBatchSize blockSize : ℕ) (ops : List EngineOp) : ℕ :=
  Largest.sum maxBatchSize (needs blockSize ops)

def needOf (blockSize : ℕ) (ops : List EngineOp) (id : SeqId) : ℕ :=
  ((ops.find? fun o => o.submitted == some id).bind (EngineOp.need blockSize)).getD 0

theorem needOf_eq (blockSize : ℕ) {ops : List EngineOp} (hn : (submittedTo ops).Nodup)
    {o : EngineOp} (ho : o ∈ ops) {id : SeqId} (hid : o.submitted = some id) :
    o.need blockSize = some (needOf blockSize ops id) := by
  induction ops with
  | nil => cases ho
  | cons o' ops ih =>
    by_cases hs : o'.submitted = some id
    · have hnot : o ∉ ops := by
        intro hmem
        have hin : id ∈ submittedTo ops := List.mem_filterMap.mpr ⟨o, hmem, hid⟩
        rw [submittedTo, List.filterMap_cons_some hs, List.nodup_cons] at hn
        exact hn.1 hin
      obtain rfl : o = o' := (List.mem_cons.mp ho).resolve_right hnot
      have hneed : ∃ n, o.need blockSize = some n := by
        cases o with
        | submit id prompt maxNewTokens => exact ⟨_, rfl⟩
        | step => cases hid
      obtain ⟨n, hneed⟩ := hneed
      simp [needOf, hs, hneed]
    · have hmem : o ∈ ops := by
        rcases List.mem_cons.mp ho with rfl | hmem
        · exact absurd hid hs
        · exact hmem
      have hn' : (submittedTo ops).Nodup :=
        hn.sublist ((List.sublist_cons_self o' ops).filterMap _)
      rw [ih hn' hmem]
      simp [needOf, hs]

theorem needs_eq_map {blockSize : ℕ} {ops : List EngineOp} (hn : (submittedTo ops).Nodup) :
    needs blockSize ops = (submittedTo ops).map (needOf blockSize ops) := by
  unfold needs submittedTo
  rw [List.map_filterMap]
  refine List.filterMap_congr fun o ho => ?_
  cases o with
  | submit id prompt maxNewTokens => exact needOf_eq blockSize hn ho rfl
  | step => rfl

theorem worstCase_mono (maxBatchSize blockSize : ℕ) {past ops : List EngineOp} (h : past <+: ops) :
    worstCase maxBatchSize blockSize past ≤ worstCase maxBatchSize blockSize ops := by
  apply Largest.sum_mono
  exact (h.sublist.filterMap _).subperm

namespace Ledger

variable {L : Limits} {m : Model} {a : Ledger} {ops : List EngineOp}

/-- A live sequence is a submitted request that keeps to its limit. -/
def WithinRequests (ops : List EngineOp) (a : Ledger) : Prop :=
  ∀ x ∈ a.live, ∃ maxNewTokens, .submit x.id x.prompt maxNewTokens ∈ ops ∧
    x.output.length ≤ x.maxNewTokens ∧ x.maxNewTokens ≤ maxNewTokens

theorem withinRequests_submit (h : a.WithinRequests ops) (id : SeqId) (prompt : List TokenId)
    (maxNewTokens : ℕ) :
    (a.submit (.new id prompt maxNewTokens)).WithinRequests
      (ops ++ [.submit id prompt maxNewTokens]) := by
  intro x hx
  rcases List.mem_cons.mp ((a.live_submit _).mem_iff.mp hx) with rfl | hx
  · exact ⟨maxNewTokens, by simp [Sequence.new], Nat.zero_le _, le_rfl⟩
  · obtain ⟨n, hmem, ho, hn⟩ := h x hx
    exact ⟨n, List.mem_append_left _ hmem, ho, hn⟩

theorem WithinRequests.of_bare {x y : Sequence} (hb : x.bare = y.bare)
    (hx : ∃ maxNewTokens, .submit x.id x.prompt maxNewTokens ∈ ops ∧
      x.output.length ≤ x.maxNewTokens ∧ x.maxNewTokens ≤ maxNewTokens) :
    ∃ maxNewTokens, .submit y.id y.prompt maxNewTokens ∈ ops ∧
      y.output.length ≤ y.maxNewTokens ∧ y.maxNewTokens ≤ maxNewTokens := by
  obtain ⟨hid, hp, ho, hm⟩ := Sequence.fields_of_bare hb
  rwa [← hid, ← hp, ← ho, ← hm]

theorem WithinRequests.step (h : a.WithinRequests ops) (L : Limits) (m : Model) :
    (a.step L m).1.WithinRequests ops := by
  refine live_step_preserves WithinRequests.of_bare ?_ h
  rintro x hc ⟨n, hmem, -, hn⟩
  obtain ⟨hlen, hmax⟩ := Slot.limit_decode m hc
  exact ⟨n, hmem, hlen, hmax.trans hn⟩

theorem withinRequests_exec (L : Limits) (m : Model) (ops : List EngineOp) :
    (Machine.exec (engineOp L m) .empty ops).1.WithinRequests ops := by
  have hok : Machine.PrefixClosed fun _ : List EngineOp => True := fun _ _ _ => trivial
  refine Machine.exec_invariant hok (P := fun ops (a : Ledger) _ => a.WithinRequests ops) ?_ ?_ ops
    trivial
  · rintro x ⟨⟩
  · rintro ops (⟨id, prompt, maxNewTokens⟩ | ⟨⟩) - ih
    · exact withinRequests_submit ih id prompt maxNewTokens
    · intro x hx
      obtain ⟨n, hmem, ho, hn⟩ := ih.step L m x hx
      exact ⟨n, List.mem_append_left _ hmem, ho, hn⟩

/-- Distinct live sequences that fill no more than a batch, each within its request, use no
more blocks than the worst case. -/
theorem used_le_worstCase (hn : (submittedTo ops).Nodup) {l : List Slot}
    (hids : (l.map (·.seq.id)).Nodup) (hlen : l.length ≤ L.maxBatchSize)
    (hl : ∀ x ∈ l, ∃ maxNewTokens, .submit x.seq.id x.seq.prompt maxNewTokens ∈ ops ∧
      x.held ≤ x.seq.prompt.length + maxNewTokens) :
    L.used l ≤ worstCase L.maxBatchSize L.blockSize ops := by
  have hle : L.used l ≤ ((l.map (·.seq.id)).map (needOf L.blockSize ops)).sum := by
    rw [List.map_map, Limits.used]
    refine List.sum_le_sum fun x hx => ?_
    obtain ⟨n, hmem, hheld⟩ := hl x hx
    have hneed := Option.some.inj (needOf_eq L.blockSize hn hmem rfl)
    rw [Function.comp_apply, ← hneed]
    exact L.blocks_mono hheld
  have hsub : l.map (·.seq.id) ⊆ submittedTo ops := by
    intro id hid
    obtain ⟨x, hx, rfl⟩ := List.mem_map.mp hid
    obtain ⟨n, hmem, -⟩ := hl x hx
    exact List.mem_filterMap.mpr ⟨_, hmem, rfl⟩
  have hperm :
      ((l.map (·.seq.id)).map (needOf L.blockSize ops)).Subperm (needs L.blockSize ops) := by
    obtain ⟨ids, hp, hs⟩ := List.subperm_of_subset hids hsub
    rw [needs_eq_map hn]
    exact ⟨ids.map _, hp.map _, hs.map _⟩
  refine hle.trans (Largest.sum_le_sum hperm ?_)
  rwa [List.length_map, List.length_map]

theorem WithinRequests.placed (h : a.WithinRequests ops) {x : Slot} (hx : x ∈ a.placed L) :
    ∃ maxNewTokens, .submit x.seq.id x.seq.prompt maxNewTokens ∈ ops ∧
      x.seq.output.length ≤ x.seq.maxNewTokens ∧ x.seq.maxNewTokens ≤ maxNewTokens := by
  obtain ⟨y, hy, hb⟩ := bare_of_mem_placed hx
  exact WithinRequests.of_bare hb (h y hy)

theorem WithinRequests.demand_placed_le (h : a.WithinRequests ops) (hn : (submittedTo ops).Nodup)
    (hv : a.Valid L) (hs : a.Synced) :
    L.demand (a.placed L) ≤ worstCase L.maxBatchSize L.blockSize ops := by
  apply used_le_worstCase hn
  · rw [List.map_map]
    simp only [Function.comp_def, Slot.seq_grow]
    exact hv.placed_nodup
  · rw [List.length_map]
    exact Limits.length_taken_le hv.length_le _
  · intro y hy
    obtain ⟨x, hx, rfl⟩ := List.mem_map.mp hy
    obtain ⟨n, hmem, ho, hm⟩ := h.placed hx
    refine ⟨n, by rwa [Slot.seq_grow], ?_⟩
    have hheld := hs.placed L x hx
    rw [Slot.seq_grow]
    unfold Sequence.totalLen at hheld
    cases hc : x.seq.isComplete with
    | true => rw [Slot.grow_of_complete hc]; omega
    | false =>
      rw [Slot.held_grow_of_incomplete hc]
      rw [Sequence.isComplete, decide_eq_false_iff_not, not_le] at hc
      omega

theorem WithinRequests.victims_eq_nil (h : a.WithinRequests ops) (hn : (submittedTo ops).Nodup)
    (hv : a.Valid L) (hs : a.Synced)
    (hcap : worstCase L.maxBatchSize L.blockSize ops ≤ L.numBlocks) : a.victims L = [] := by
  have hd := (h.demand_placed_le hn hv hs).trans hcap
  unfold victims
  cases (a.placed L).length with
  | zero => rfl
  | succ n => rw [Limits.evict, if_pos hd]

theorem WithinRequests.admission_full (h : a.WithinRequests ops) (hn : (submittedTo ops).Nodup)
    (hv : a.Valid L) (hs : a.Synced)
    (hcap : worstCase L.maxBatchSize L.blockSize ops ≤ L.numBlocks) :
    a.left L = [] ∨ (a.placed L).length = L.maxBatchSize := by
  cases hl : a.left L with
  | nil => exact Or.inl rfl
  | cons s rest =>
    right
    have hle : (a.placed L).length ≤ L.maxBatchSize := Limits.length_taken_le hv.length_le _
    by_contra hne
    have hlt := lt_of_le_of_ne hle hne
    have hstop := Limits.taken_stop hl hlt
    have hfit : L.used (a.placed L ++ [.place s]) ≤ worstCase L.maxBatchSize L.blockSize ops := by
      apply used_le_worstCase hn
      · have hids := (a.ids_placed L).nodup_iff.mp hv.nodup
        rw [hl, List.map_cons, List.append_cons] at hids
        rw [List.map_append]
        exact (List.nodup_append.mp hids).1
      · rw [List.length_append]
        exact hlt
      · intro x hx
        rcases List.mem_append.mp hx with hx | hx
        · obtain ⟨n, hmem, ho, hm⟩ := h.placed hx
          have hheld := hs.placed L x hx
          unfold Sequence.totalLen at hheld
          exact ⟨n, hmem, by omega⟩
        · obtain rfl := List.mem_singleton.mp hx
          have hw : s ∈ a.waiting := List.mem_of_mem_drop (hl ▸ List.mem_cons_self)
          obtain ⟨n, hmem, ho, hm⟩ := h s (List.mem_append_left _ hw)
          refine ⟨n, hmem, ?_⟩
          rw [Slot.held_place, Slot.seq_place]
          exact Nat.add_le_add_left (ho.trans hm) _
    have hu : L.used (a.placed L ++ [.place s]) = L.used (a.placed L) + L.blocks s.totalLen :=
      Limits.used_append _ _
    rw [hu] at hfit
    exact absurd (hfit.trans hcap) (not_le.mpr hstop)

/-- A run without pressure: nothing preempted, and the peak within the worst case. -/
structure Calm (L : Limits) (ops : List EngineOp) (a : Ledger) (answers : List StepAnswer) :
    Prop where
  preempted : ∀ plan ∈ plansOf answers, plan.preempted = []
  peak_le : a.peak ≤ worstCase L.maxBatchSize L.blockSize ops

theorem calm_exec (L : Limits) (m : Model) (ops : List EngineOp) (hn : (submittedTo ops).Nodup)
    (hcap : worstCase L.maxBatchSize L.blockSize ops ≤ L.numBlocks) :
    Calm L ops (Machine.exec (engineOp L m) .empty ops).1
      (Machine.exec (engineOp L m) .empty ops).2 := by
  have hok : Machine.PrefixClosed fun ops : List EngineOp => (submittedTo ops).Nodup ∧
      worstCase L.maxBatchSize L.blockSize ops ≤ L.numBlocks := by
    rintro ops o ⟨hn, hcap⟩
    have hmono := worstCase_mono L.maxBatchSize L.blockSize (List.prefix_append ops [o])
    exact ⟨submittedTo_prefixClosed ops o hn, hmono.trans hcap⟩
  refine Machine.exec_invariant hok (P := Calm L) ?_ ?_ ops ⟨hn, hcap⟩
  · exact ⟨by simp [plansOf], Nat.zero_le _⟩
  · rintro ops o hop ih
    obtain ⟨hpast, hroom⟩ := hok ops o hop
    have hmono := worstCase_mono L.maxBatchSize L.blockSize (List.prefix_append ops [o])
    set a := (Machine.exec (engineOp L m) .empty ops).1
    have hv : a.Valid L := (serves_exec L m ops hpast).valid
    have hs : a.Synced := synced_exec L m ops
    have hw : a.WithinRequests ops := withinRequests_exec L m ops
    cases o with
    | submit id prompt maxNewTokens =>
      refine ⟨?_, ih.peak_le.trans hmono⟩
      rw [engineOp, plansOf_concat_none]
      exact ih.preempted
    | step =>
      constructor
      · rw [engineOp, plansOf_step]
        intro plan hp
        rcases List.mem_append.mp hp with hp | hp
        · exact ih.preempted plan hp
        · rw [List.mem_singleton.mp hp, Ledger.plan, hw.victims_eq_nil hpast hv hs hroom]
          rfl
      · have hd := hw.demand_placed_le hpast hv hs
        have hu := L.used_le_demand (a.placed L)
        have hsurv : L.demand (a.survivors L) ≤ L.demand (a.placed L) :=
          Limits.used_sublist_le ((a.survivors_sublist L).map _)
        have hpeak := ih.peak_le
        refine le_trans ?_ hmono
        simp only [engineOp, Ledger.step, Ledger.decoded, Ledger.scheduled]
        omega

end Ledger

/-- If the cache holds the largest needs of a full batch, no plan of the run preempts, the
peak stays within those needs, and every next call of `schedule` preempts nothing and ends
its admission with a full batch or an empty queue. -/
theorem worst_case_never_preempts (m : Model) (maxBatchSize numBlocks blockSize : ℕ)
    (hb : 0 < blockSize) (ops : List EngineOp) (hids : (submittedTo ops).Nodup)
    (hcap : worstCase maxBatchSize blockSize ops ≤ numBlocks) (past : List EngineOp)
    (hpast : past <+: ops) :
    ∃ e answers s' plan,
      Machine.run Engine.op (.new m ⟨maxBatchSize⟩ (.new numBlocks blockSize hb)) past =
        some (e, answers) ∧
      (∀ plan ∈ plansOf answers, plan.preempted = []) ∧
      e.scheduler.cache.peakBlocks ≤ worstCase maxBatchSize blockSize ops ∧
      e.scheduler.schedule = some (s', plan) ∧ plan.preempted = [] ∧
      (e.scheduler.running.length + plan.admitted.length = maxBatchSize ∨ s'.waiting = []) := by
  let L : Limits := ⟨maxBatchSize, numBlocks, blockSize, hb⟩
  have hn : (submittedTo past).Nodup := hids.sublist (hpast.sublist.filterMap _)
  have hmono := worstCase_mono maxBatchSize blockSize hpast
  have hcalm := Ledger.calm_exec L m past hn (hmono.trans hcap)
  have hv := (Ledger.serves_exec L m past hn).valid
  have hs := Ledger.synced_exec L m past
  have hw := Ledger.withinRequests_exec L m past
  obtain ⟨e, hr, he⟩ := Engine.run_refines L m past hn
  obtain ⟨s', hsched, hs'⟩ := Scheduler.schedule_refines hv he.scheduler
  have hnil := hw.victims_eq_nil hn hv hs (hmono.trans hcap)
  refine ⟨e, _, s', _, hr, hcalm.preempted, ?_, hsched, ?_, ?_⟩
  · rw [he.scheduler.cache.peak_eq]
    exact hcalm.peak_le.trans hmono
  · rw [Ledger.plan, hnil]
    rfl
  · rcases hw.admission_full hn hv hs (hmono.trans hcap) with hleft | hfull
    · right
      rw [hs'.waiting_eq, Ledger.scheduled, hnil, hleft]
      rfl
    · left
      rw [he.scheduler.running_eq, List.length_map, Ledger.plan, List.length_map]
      rwa [Ledger.placed, List.length_append, List.length_map] at hfull

theorem worst_case_never_preempts_of_three :
    let m : Model := ⟨2, 1, 0, fun _ => ⟨[0, 1]⟩⟩
    let ops : List EngineOp :=
      [.submit 1 [5, 6] 3, .submit 2 [7] 2, .submit 3 [7, 8, 9] 4, .step, .step, .step]
    ∃ e answers s' plan,
      Machine.run Engine.op (.new m ⟨2⟩ (.new 7 2 (by decide))) ops = some (e, answers) ∧
      (∀ plan ∈ plansOf answers, plan.preempted = []) ∧
      e.scheduler.cache.peakBlocks ≤ worstCase 2 2 ops ∧
      e.scheduler.schedule = some (s', plan) ∧ plan.preempted = [] ∧
      (e.scheduler.running.length + plan.admitted.length = 2 ∨ s'.waiting = []) :=
  worst_case_never_preempts _ 2 7 2 (by decide) _ (by decide) (by decide) _ List.prefix_rfl

end ForgeInfer
