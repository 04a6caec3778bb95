import ForgeInfer.Bench.Basic
import ForgeInfer.Engine.Capacity
import ForgeInfer.Engine.Completion
import ForgeInfer.Speculative.Rounds

/-! # The strategies are compared like for like

Sequential serving and continuous batching count the same tokens, so the two differ in time
alone, and the peak that the latter reports is bounded by the largest needs of a full batch.
Speculation counts them too where the draft agrees with the model.
-/

namespace ForgeInfer

open Binary32
open SpeculativeDecoder (accepts)

def greedyTotal (m : Model) (reqs : List Request) : ℕ :=
  (reqs.map fun r => (m.greedy r.prompt r.maxNewTokens).length).sum

@[simp] theorem greedyTotal_nil (m : Model) : greedyTotal m [] = 0 := rfl

@[simp] theorem greedyTotal_cons (m : Model) (r : Request) (reqs : List Request) :
    greedyTotal m (r :: reqs) =
      (m.greedy r.prompt r.maxNewTokens).length + greedyTotal m reqs := by
  simp [greedyTotal]

theorem greedyTotal_filter (m : Model) (reqs : List Request) :
    greedyTotal m (reqs.filter fun r => 1 ≤ r.maxNewTokens) = greedyTotal m reqs := by
  induction reqs with
  | nil => rfl
  | cons r reqs ih =>
    by_cases h : 1 ≤ r.maxNewTokens
    · simp [h, ih]
    · have hnil : m.greedy r.prompt r.maxNewTokens = [] := by
        rw [Nat.lt_one_iff.mp (not_le.mp h)]
        rfl
      simp [h, ih, hnil]

namespace Engine

theorem completionLoop_eq_drive (n : ℕ) (e : Engine) (outputs : Outputs) :
    (completionLoop n e outputs).map (fun r => (r.1, r.2.1)) =
      (drive (n + 1) e).map fun r => (r.1, record outputs (r.2.flatMap Prod.snd)) := by
  induction n generalizing e outputs with
  | zero =>
    rw [completionLoop, drive]
    split
    · cases hs : e.stepWithPlan <;> simp [step, hs, drive]
    · rfl
  | succ n ih =>
    rw [completionLoop, drive]
    split
    · cases hs : e.stepWithPlan with
      | none => simp [step, hs]
      | some r =>
        have hrest := ih r.1 (record outputs r.2.2)
        simp only [step, hs, Option.map_some, Option.bind_eq_bind, Option.bind_some]
        rw [hrest]
        cases hd : drive (n + 1) r.1 <;> simp [record_append]
    · rfl

end Engine

namespace Ledger

variable {L : Limits} {m : Model}

theorem peak_exec_le (L : Limits) (m : Model) (ops : List EngineOp) (hn : (submittedTo ops).Nodup) :
    (Machine.exec (engineOp L m) .empty ops).1.peak ≤
      worstCase L.maxBatchSize L.blockSize ops := by
  refine Machine.exec_invariant submittedTo_prefixClosed
    (P := fun ops (a : Ledger) _ => a.peak ≤ worstCase L.maxBatchSize L.blockSize ops) ?_ ?_ ops hn
  · exact Nat.zero_le _
  · intro ops o hop ih
    have hpast := submittedTo_prefixClosed ops o hop
    have hmono := worstCase_mono L.maxBatchSize L.blockSize (List.prefix_append ops [o])
    refine le_trans ?_ hmono
    set a := (Machine.exec (engineOp L m) .empty ops).1
    cases o with
    | submit id prompt maxNewTokens => exact ih
    | step =>
      have hv : a.Valid L := (serves_exec L m ops hpast).valid
      have hw : a.WithinRequests ops := withinRequests_exec L m ops
      have hd := hw.demand_placed_le hpast hv (synced_exec L m ops)
      have hu := L.used_le_demand (a.placed L)
      have hsurv : L.demand (a.survivors L) ≤ L.demand (a.placed L) :=
        Limits.used_sublist_le ((a.survivors_sublist L).map _)
      simp only [engineOp, Ledger.step, Ledger.decoded, Ledger.scheduled]
      omega

end Ledger

namespace Bench

theorem addTokens_eq (total : ℕ) (outputs : List GenerationOutput) :
    addTokens total outputs = total + (outputs.map (·.tokens.length)).sum := by
  induction outputs generalizing total with
  | nil => rfl
  | cons o outputs ih =>
    change addTokens (total + o.tokens.length) outputs = _
    rw [ih, List.map_cons, List.sum_cons, Nat.add_assoc]

theorem addTokens_results {L : Limits} {m : Model} {reqs : List Request} {n : ℕ}
    (hids : (reqs.map (·.id)).Nodup) (hl : (Ledger.drive L m n (.loaded reqs)).1.live = [])
    (order : OutputOrder) (total : ℕ) :
    addTokens total (Engine.results order (Engine.record ∅ (Ledger.emittedBy L m n reqs))) =
      total + greedyTotal m reqs := by
  have hsum := ((Ledger.results_drained hids hl order).map fun o => o.tokens.length).sum_eq
  rw [List.map_map] at hsum
  rw [addTokens_eq, hsum, ← greedyTotal_filter]
  rfl

variable {m : Model} {reqs : List Request}

theorem totalWork_le_of_mem {r : Request} (hr : r ∈ reqs) : totalWork [r] ≤ totalWork reqs := by
  have hle := List.single_le_sum (fun n _ => Nat.zero_le n) _
    (List.mem_map_of_mem (f := fun r : Request => r.maxNewTokens + 1) hr)
  simpa [totalWork] using hle

theorem sequential_step (m : Model) (order : OutputOrder) {r : Request} (hfit : r.Fits 256 16)
    (hwork : totalWork [r] ≤ Engine.maxIterations) (total : ℕ) :
    (do
      let eng := (Engine.new m ⟨1⟩ (.new 256 16 (by decide))).submit r.id r.prompt r.maxNewTokens
      let outputs ← eng.runToCompletion order
      some (addTokens total outputs)) =
        some (total + (m.greedy r.prompt r.maxNewTokens).length) := by
  let L : Limits := ⟨1, 256, 16, by decide⟩
  have hids : ([r].map (·.id)).Nodup := List.nodup_singleton _
  have hv := Ledger.valid_loaded L hids
  have hl : (Ledger.drive L m (Engine.maxIterations + 1) (.loaded [r])).1.live = [] :=
    Ledger.drive_loaded_drains le_rfl m hids (by simpa using hfit) (Nat.le_succ_of_le hwork)
  have hrun := Engine.runToCompletion_refines hv (Engine.loaded_refines L m [r]) order
  change (Engine.runToCompletion _ order).bind (fun outputs => some (addTokens total outputs)) = _
  change (((Engine.loaded L m [r]).runToCompletion order).bind _) = _
  rw [hrun, Option.bind_some]
  exact congrArg some ((addTokens_results hids hl order total).trans (by simp))

theorem foldlM_some_add {α : Type*} {f : ℕ → α → Option ℕ} {g : α → ℕ} {l : List α}
    (h : ∀ x ∈ l, ∀ total, f total x = some (total + g x)) (total : ℕ) :
    l.foldlM f total = some (total + (l.map g).sum) := by
  induction l generalizing total with
  | nil => rfl
  | cons x l ih =>
    rw [List.foldlM_cons, h x List.mem_cons_self, Option.bind_eq_bind, Option.bind_some,
      ih (fun y hy => h y (List.mem_cons_of_mem x hy)), List.map_cons, List.sum_cons, Nat.add_assoc]

theorem runSequential_eq (m : Model) (order : SeqId → OutputOrder)
    (hfit : ∀ r ∈ reqs, r.Fits 256 16) (hwork : totalWork reqs ≤ Engine.maxIterations) :
    runSequential m order reqs = some (greedyTotal m reqs) := by
  have hfold := foldlM_some_add (fun r hr total => sequential_step m (order r.id) (hfit r hr)
    ((totalWork_le_of_mem hr).trans hwork) total) 0
  rw [Nat.zero_add] at hfold
  exact hfold

/-- The completion loop leaves the engine of a drive that may be one step longer. -/
theorem runContinuous_eq (m : Model) (order : OutputOrder) (hids : (reqs.map (·.id)).Nodup)
    (hfit : ∀ r ∈ reqs, r.Fits 2048 16) (hwork : totalWork reqs ≤ Engine.maxIterations) :
    ∃ peak, runContinuous m order reqs = some (greedyTotal m reqs, peak) ∧
      peak ≤ worstCase 16 16 (reqs.map Request.op) := by
  let L : Limits := ⟨16, 2048, 16, by decide⟩
  have hv := Ledger.valid_loaded L hids
  have hl : (Ledger.drive L m (Engine.maxIterations + 1) (.loaded reqs)).1.live = [] :=
    Ledger.drive_loaded_drains (by decide) m hids hfit (Nat.le_succ_of_le hwork)
  obtain ⟨e, hd, he⟩ := Engine.drive_refines hv (Engine.loaded_refines L m reqs)
    (Engine.maxIterations + 1)
  have hloop := Engine.completionLoop_eq_drive Engine.maxIterations (Engine.loaded L m reqs) ∅
  rw [hd, Option.map_some, Option.map_eq_some_iff] at hloop
  obtain ⟨⟨e', outputs, exit⟩, hc, hsame⟩ := hloop
  obtain ⟨rfl, hout⟩ := Prod.mk.inj hsame
  refine ⟨e'.scheduler.cache.peakBlocks, ?_, ?_⟩
  · have htotal := addTokens_results hids hl order 0
    rw [Nat.zero_add] at htotal
    rw [runContinuous]
    change (Engine.completionLoop Engine.maxIterations (Engine.loaded L m reqs) ∅).bind _ = _
    rw [hc, Option.bind_some, ← htotal]
    exact congrArg (fun o => some (addTokens 0 (Engine.results order o), _)) hout
  · have hpeak := Ledger.peak_exec_le L m (Ledger.driveOps L m (Engine.maxIterations + 1) reqs)
      (by rwa [Ledger.submittedTo_driveOps])
    have hneeds : needs 16 (Ledger.driveOps L m (Engine.maxIterations + 1) reqs) =
        needs 16 (reqs.map Request.op) := by
      have hsteps : ∀ k, needs 16 (List.replicate k .step) = [] := fun k =>
        List.filterMap_replicate_of_none rfl
      rw [Ledger.driveOps, needs, List.filterMap_append]
      exact (congrArg (_ ++ ·) (hsteps _)).trans (List.append_nil _)
    rw [Ledger.exec_driveOps, worstCase, hneeds] at hpeak
    rw [he.scheduler.cache.peak_eq]
    exact hpeak

variable {d : SpeculativeDecoder} {prob : ProbOf}

def addStream (d : SpeculativeDecoder) (prob : ProbOf) (sums : ℕ × F32) (r : Request) : ℕ × F32 :=
  (sums.1 + (d.generate prob r.prompt r.maxNewTokens).1.length,
    sums.2 + (d.generate prob r.prompt r.maxNewTokens).2)

theorem runSpeculative_eq (d : SpeculativeDecoder) (prob : ProbOf) (reqs : List Request) :
    runSpeculative d prob reqs =
      ((reqs.foldl (addStream d prob) (0, 0)).1,
        (reqs.foldl (addStream d prob) (0, 0)).2 / F32.round reqs.length) := rfl

theorem foldl_addStream_fst (sums : ℕ × F32) :
    (reqs.foldl (addStream d prob) sums).1 =
      sums.1 + (reqs.map fun r => (d.generate prob r.prompt r.maxNewTokens).1.length).sum := by
  induction reqs generalizing sums with
  | nil => rfl
  | cons r reqs ih =>
    rw [List.foldl_cons, ih, List.map_cons, List.sum_cons, ← Nat.add_assoc]
    rfl

theorem foldl_addStream_snd (d : SpeculativeDecoder) (prob : ProbOf)
    (hbig : ∀ r ∈ reqs,
      (d.generateWith (accepts prob) r.prompt r.maxNewTokens).totalDrafted < 2 ^ 64) {n : ℕ}
    (hn : n + reqs.length ≤ 2 ^ 24) {sums : ℕ × F32} (hsums : sums.2.Within 0 n) :
    (reqs.foldl (addStream d prob) sums).2.Within 0 (n + reqs.length : ℕ) := by
  induction reqs generalizing sums n with
  | nil => exact hsums
  | cons r reqs ih =>
    rw [List.length_cons] at hn ⊢
    have hrate := (d.isFraction_generate prob _ _ (hbig r List.mem_cons_self)).within
    have hnext : (addStream d prob sums r).2.Within 0 (n + 1 : ℕ) := by
      rw [Nat.cast_succ]
      exact hsums.add_natCast hrate (by omega)
    have hlast := ih (fun r' hr' => hbig r' (List.mem_cons_of_mem r hr')) (by omega) hnext
    rwa [Nat.add_assoc, Nat.add_comm 1] at hlast

/-- Sequential serving and continuous batching complete and count the tokens of greedy
decoding, whatever the hash maps list first; the peak that is reported stays within the
largest needs of a full batch. Speculation counts the same tokens with an agreeing draft. -/
theorem strategies_count_same_tokens (d : SpeculativeDecoder) (prob : ProbOf)
    (order : SeqId → OutputOrder) (order' : OutputOrder) (reqs : List Request)
    (hids : (reqs.map (·.id)).Nodup) (hfit : ∀ r ∈ reqs, r.Fits 256 16)
    (hwork : totalWork reqs ≤ Engine.maxIterations) :
    runSequential d.target order reqs = some (greedyTotal d.target reqs) ∧
      (∃ peak, runContinuous d.target order' reqs = some (greedyTotal d.target reqs, peak) ∧
        peak ≤ worstCase 16 16 (reqs.map Request.op)) ∧
      ((∀ ctx, (d.draft.forward ctx).argmax = (d.target.forward ctx).argmax) →
        (runSpeculative d prob reqs).1 = greedyTotal d.target reqs) := by
  refine ⟨runSequential_eq _ order hfit hwork, ?_, ?_⟩
  · apply runContinuous_eq _ order' hids ?_ hwork
    intro r hr
    exact (hfit r hr).trans (by norm_num)
  · intro hagree
    rw [runSpeculative_eq, foldl_addStream_fst, greedyTotal, Nat.zero_add]
    congr 1
    apply List.map_congr_left
    intro r _
    exact congrArg List.length (d.generateWith_of_agreement (fun i _ => hagree _) (accepts prob))

theorem ids_requests : requests.map (·.id) = List.range numRequests := by
  simp [requests, Function.comp_def]

theorem fits_requests : ∀ r ∈ requests, r.Fits 256 16 := by
  intro r hr
  obtain ⟨i, -, rfl⟩ := List.mem_map.mp hr
  simp [Request.Fits, prompt, promptLen, maxNew]

theorem totalWork_requests : totalWork requests = 4160 := by
  simp [totalWork, requests, Function.comp_def, numRequests, maxNew]

theorem strategies_count_same_tokens_of_requests :
    let prob : ProbOf := fun _ _ => 1
    let order : OutputOrder := ⟨List.reverse, List.reverse_perm⟩
    runSequential decoder.target (fun _ => order) requests =
        some (greedyTotal decoder.target requests) ∧
      (∃ peak, runContinuous decoder.target order requests =
          some (greedyTotal decoder.target requests, peak) ∧
        peak ≤ worstCase 16 16 (requests.map Request.op)) ∧
      ((∀ ctx, (decoder.draft.forward ctx).argmax = (decoder.target.forward ctx).argmax) →
        (runSpeculative decoder prob requests).1 = greedyTotal decoder.target requests) := by
  intro prob order
  apply strategies_count_same_tokens decoder prob _ order requests
  · rw [ids_requests]
    exact List.nodup_range
  · exact fits_requests
  · rw [totalWork_requests]
    decide

/-- The average acceptance rate that is reported is a fraction. -/
theorem average_rate_is_fraction (d : SpeculativeDecoder) (prob : ProbOf) (reqs : List Request)
    (hbig : ∀ r ∈ reqs,
      (d.generateWith (accepts prob) r.prompt r.maxNewTokens).totalDrafted < 2 ^ 64)
    (hne : reqs ≠ []) (hlen : reqs.length ≤ 2 ^ 24) :
    (runSpeculative d prob reqs).2.Within 0 1 := by
  have hstart : ((0, 0) : ℕ × F32).2.Within 0 (0 : ℕ) := by
    simpa using F32.within_zero
  have hsum := foldl_addStream_snd d prob hbig (by omega) hstart
  rw [Nat.zero_add] at hsum
  exact hsum.div_natCast (List.length_pos_of_ne_nil hne) hlen

theorem average_rate_is_fraction_of_requests :
    let prob : ProbOf := fun _ _ => 1
    (runSpeculative decoder prob requests).2.Within 0 1 := by
  intro prob
  have hlen : requests.length = 64 := by simp [requests, numRequests]
  apply average_rate_is_fraction decoder prob requests
  · intro r hr
    obtain ⟨i, -, rfl⟩ := List.mem_map.mp hr
    refine (decoder.totalDrafted_le _ _ _).trans_lt ?_
    change maxNew * 4 < 2 ^ 64
    decide
  · intro hnil
    simp [hnil] at hlen
  · rw [hlen]
    norm_num

end Bench

end ForgeInfer
