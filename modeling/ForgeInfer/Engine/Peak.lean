import ForgeInfer.Engine.Refinement

/-! # The peak is the capacity a run needs

A decision compares a number of blocks with the capacity. What it accepts is recorded in
the peak, so any capacity from the peak up accepts it too; what it rejects, a smaller
capacity rejects as well. Below the peak some decision has to change, and a plan shows it.
-/

namespace ForgeInfer

namespace Limits

def withBlocks (L : Limits) (M : ℕ) : Limits := { L with numBlocks := M }

variable {L : Limits} {M : ℕ} {run : List Slot}

@[simp] theorem used_withBlocks (run : List Slot) : (L.withBlocks M).used run = L.used run := rfl

@[simp] theorem demand_withBlocks (run : List Slot) :
    (L.withBlocks M).demand run = L.demand run := rfl

theorem taken_withBlocks (hM : M ≤ L.numBlocks) (waiting : List Sequence)
    (h : L.used (run ++ (L.taken run waiting).map .place) ≤ M) :
    (L.withBlocks M).taken run waiting = L.taken run waiting := by
  induction waiting generalizing run with
  | nil => rfl
  | cons s rest ih =>
    rw [taken] at h
    rw [taken, taken]
    by_cases hc : run.length < L.maxBatchSize ∧ L.used run + L.blocks s.totalLen ≤ L.numBlocks
    · rw [if_pos hc, List.map_cons, List.append_cons] at h
      have hle : L.used run + L.blocks s.totalLen ≤
          L.used (run ++ [.place s] ++ (L.taken (run ++ [.place s]) rest).map .place) := by
        simp only [used_append, used_cons, used_nil, Slot.held_place]
        omega
      have hc' : run.length < (L.withBlocks M).maxBatchSize ∧
          (L.withBlocks M).used run + (L.withBlocks M).blocks s.totalLen ≤
            (L.withBlocks M).numBlocks :=
        ⟨hc.1, hle.trans h⟩
      rw [if_pos hc, if_pos hc', ih h]
    · have hc' : ¬(run.length < (L.withBlocks M).maxBatchSize ∧
          (L.withBlocks M).used run + (L.withBlocks M).blocks s.totalLen ≤
            (L.withBlocks M).numBlocks) := by
        rintro ⟨hb, hle⟩
        exact hc ⟨hb, hle.trans hM⟩
      rw [if_neg hc, if_neg hc']

theorem evict_withBlocks (hM : M ≤ L.numBlocks) {n : ℕ} (h : L.demand (L.evict n run).2 ≤ M) :
    (L.withBlocks M).evict n run = L.evict n run := by
  induction n generalizing run with
  | zero => rfl
  | succ n ih =>
    rcases evict_cases L n run with ⟨he, hd⟩ | ⟨x, hx, hd, he⟩
    · rw [he] at h ⊢
      exact if_pos h
    · rw [he] at h
      have hd' : ¬(L.withBlocks M).demand run ≤ (L.withBlocks M).numBlocks :=
        not_le.mpr (hM.trans_lt hd)
      rw [he, evict, if_neg hd', hx, ← ih h]

theorem evict_eq_of_length (L L' : Limits) {n : ℕ}
    (h : (L'.evict n run).1.length = (L.evict n run).1.length) :
    L'.evict n run = L.evict n run := by
  induction n generalizing run with
  | zero => rfl
  | succ n ih =>
    rcases evict_cases L n run with ⟨he, -⟩ | ⟨x, hx, -, he⟩ <;>
      rcases evict_cases L' n run with ⟨he', -⟩ | ⟨x', hx', -, he'⟩ <;>
      rw [he, he'] at h ⊢
    · cases h
    · cases h
    · obtain rfl : x' = x := Option.some.inj (hx'.symm.trans hx)
      rw [ih (Nat.succ.inj h)]

end Limits

namespace Ledger

variable {L : Limits} {M : ℕ} {m : Model} {a : Ledger}

theorem scheduled_congr (ht : a.taken (L.withBlocks M) = a.taken L)
    (he : (L.withBlocks M).evict (a.placed L).length (a.placed L) =
      L.evict (a.placed L).length (a.placed L)) :
    a.scheduled (L.withBlocks M) = a.scheduled L ∧ a.plan (L.withBlocks M) = a.plan L := by
  have hp : a.placed (L.withBlocks M) = a.placed L := by rw [placed, ht, placed]
  constructor
  · simp only [scheduled, victims, survivors, left, batch, hp, ht, he, Limits.used_withBlocks,
      Limits.demand_withBlocks]
  · simp only [plan, victims, survivors, batch, retired, hp, ht, he]

theorem scheduled_withBlocks (hM : M ≤ L.numBlocks) (h : (a.scheduled L).peak ≤ M) :
    a.scheduled (L.withBlocks M) = a.scheduled L ∧ a.plan (L.withBlocks M) = a.plan L := by
  have hplaced : L.used (a.placed L) ≤ M :=
    ((le_max_right _ _).trans (le_max_left _ _)).trans h
  have hdemand : L.demand (a.survivors L) ≤ M := (le_max_right _ _).trans h
  exact scheduled_congr (Limits.taken_withBlocks hM _ hplaced)
    (Limits.evict_withBlocks hM hdemand)

theorem scheduled_eq_of_plan (h : a.plan (L.withBlocks M) = a.plan L) :
    a.scheduled (L.withBlocks M) = a.scheduled L := by
  have hadm := congrArg (fun p => p.admitted.length) h
  have hpre := congrArg (fun p => p.preempted.length) h
  simp only [plan, List.length_map] at hadm hpre
  have ht : a.taken (L.withBlocks M) = a.taken L :=
    (List.prefix_of_prefix_length_le (Limits.taken_initial _ _) (Limits.taken_initial _ _)
      hadm.le).eq_of_length hadm
  have hp : a.placed (L.withBlocks M) = a.placed L := by rw [placed, ht, placed]
  rw [victims, victims, hp] at hpre
  exact (scheduled_congr ht (Limits.evict_eq_of_length L (L.withBlocks M) hpre)).1

theorem peak_le_engineOp (L : Limits) (m : Model) (a : Ledger) (o : EngineOp) :
    a.peak ≤ (a.engineOp L m o).1.peak := by
  cases o with
  | submit id prompt maxNewTokens => exact le_rfl
  | step => exact (le_max_left _ _).trans (le_max_left _ _)

theorem engineOp_withBlocks (hM : M ≤ L.numBlocks) {o : EngineOp}
    (h : (a.engineOp L m o).1.peak ≤ M) :
    a.engineOp (L.withBlocks M) m o = a.engineOp L m o := by
  cases o with
  | submit id prompt maxNewTokens => rfl
  | step =>
    obtain ⟨hs, hp⟩ := scheduled_withBlocks hM h
    simp only [engineOp, step, hs, hp]

theorem engineOp_eq_of_plan {o : EngineOp}
    (h : ((a.engineOp (L.withBlocks M) m o).2.map Prod.fst).toList =
      ((a.engineOp L m o).2.map Prod.fst).toList) :
    a.engineOp (L.withBlocks M) m o = a.engineOp L m o := by
  cases o with
  | submit id prompt maxNewTokens => rfl
  | step =>
    have hp : a.plan (L.withBlocks M) = a.plan L := List.singleton_inj.mp h
    have hs := scheduled_eq_of_plan hp
    simp only [engineOp, step, hs, hp]

/-- A capacity that the run never exceeds runs the script the same way. -/
theorem exec_withBlocks (hM : M ≤ L.numBlocks) (m : Model) (ops : List EngineOp)
    (h : (Machine.exec (engineOp L m) .empty ops).1.peak ≤ M) :
    Machine.exec (engineOp (L.withBlocks M) m) .empty ops =
      Machine.exec (engineOp L m) .empty ops := by
  induction ops using List.reverseRecOn with
  | nil => rfl
  | append_singleton ops o ih =>
    rw [Machine.exec_concat] at h
    have hpast := (peak_le_engineOp L m _ o).trans h
    rw [Machine.exec_concat, Machine.exec_concat, ih hpast, engineOp_withBlocks hM h]

theorem exec_eq_of_plans (L : Limits) (M : ℕ) (m : Model) (ops : List EngineOp)
    (h : plansOf (Machine.exec (engineOp (L.withBlocks M) m) .empty ops).2 =
      plansOf (Machine.exec (engineOp L m) .empty ops).2) :
    Machine.exec (engineOp (L.withBlocks M) m) .empty ops =
      Machine.exec (engineOp L m) .empty ops := by
  induction ops using List.reverseRecOn with
  | nil => rfl
  | append_singleton ops o ih =>
    rw [Machine.exec_concat, Machine.exec_concat, plansOf_concat, plansOf_concat] at h
    obtain ⟨hpast, hlast⟩ := List.append_inj' h (by cases o <;> rfl)
    have hsame := ih hpast
    rw [hsame] at hlast
    have hop := engineOp_eq_of_plan hlast
    rw [Machine.exec_concat, Machine.exec_concat, hsame, hop]

end Ledger

/-- Every capacity from the peak up to the one used gives the same plans, the same tokens
and the same peak; every capacity below the peak gives another sequence of plans. -/
theorem peak_is_capacity_needed (m : Model) (maxBatchSize numBlocks blockSize : ℕ)
    (hb : 0 < blockSize) (ops : List EngineOp) (hids : (submittedTo ops).Nodup) :
    ∃ e answers,
      Machine.run Engine.op (.new m ⟨maxBatchSize⟩ (.new numBlocks blockSize hb)) ops =
        some (e, answers) ∧
      ∀ M ≤ numBlocks, ∃ e' answers',
        Machine.run Engine.op (.new m ⟨maxBatchSize⟩ (.new M blockSize hb)) ops =
          some (e', answers') ∧
        (e.scheduler.cache.peakBlocks ≤ M → answers' = answers ∧
          e'.scheduler.cache.peakBlocks = e.scheduler.cache.peakBlocks) ∧
        (M < e.scheduler.cache.peakBlocks → plansOf answers' ≠ plansOf answers) := by
  let L : Limits := ⟨maxBatchSize, numBlocks, blockSize, hb⟩
  obtain ⟨e, hr, he⟩ := Engine.run_refines L m ops hids
  have hpeak := he.scheduler.cache.peak_eq
  refine ⟨e, _, hr, fun M hM => ?_⟩
  obtain ⟨e', hr', he'⟩ := Engine.run_refines (L.withBlocks M) m ops hids
  have hpeak' := he'.scheduler.cache.peak_eq
  refine ⟨e', _, hr', ?_, ?_⟩
  · intro hP
    rw [hpeak] at hP
    have hsame := Ledger.exec_withBlocks (L := L) hM m ops hP
    rw [hpeak, hpeak', hsame]
    exact ⟨rfl, rfl⟩
  · intro hlt hplans
    have hsame := Ledger.exec_eq_of_plans L M m ops hplans
    have hle := (Ledger.serves_exec (L.withBlocks M) m ops hids).valid.peak_le
    rw [hsame, ← hpeak] at hle
    exact absurd hlt (not_lt.mpr hle)

theorem peak_is_capacity_needed_under_pressure :
    let m : Model := ⟨2, 1, 0, fun _ => ⟨[0, 1]⟩⟩
    let ops : List EngineOp :=
      [.submit 1 [5, 6] 5, .submit 2 [7, 8] 2, .step, .submit 3 [9, 9, 9] 1, .step, .step]
    ∃ e answers,
      Machine.run Engine.op (.new m ⟨2⟩ (.new 3 2 (by decide))) ops = some (e, answers) ∧
      ∀ M ≤ 3, ∃ e' answers',
        Machine.run Engine.op (.new m ⟨2⟩ (.new M 2 (by decide))) ops = some (e', answers') ∧
        (e.scheduler.cache.peakBlocks ≤ M → answers' = answers ∧
          e'.scheduler.cache.peakBlocks = e.scheduler.cache.peakBlocks) ∧
        (M < e.scheduler.cache.peakBlocks → plansOf answers' ≠ plansOf answers) :=
  peak_is_capacity_needed _ 2 3 2 (by decide) _ (by decide)

end ForgeInfer
