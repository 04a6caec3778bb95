import ForgeInfer.Engine.Arrival
import ForgeInfer.Engine.Completion

/-! # Streaming first, completing later

`step` hands out tokens as they are produced and `run_to_completion` collects those that are
still to come. Used on one engine, the second goes on where the first stopped: what was
streamed for a request and what is returned for it make up its greedy decoding.
-/

namespace ForgeInfer

/-- The tokens that a list of results has for an id, none if it is not listed. -/
def tokensIn (id : SeqId) (result : List GenerationOutput) : List TokenId :=
  ((result.find? fun o => o.id == id).map (·.tokens)).getD []

namespace Engine

theorem tokensIn_results (order : IterOrder (Σ _ : SeqId, List TokenId)) (id : SeqId)
    (emitted : List Emission) :
    tokensIn id (results order (record ∅ emitted)) = tokensOf id emitted := by
  rw [tokensIn]
  cases hf : (results order (record ∅ emitted)).find? fun o => o.id == id with
  | none =>
    by_contra hne
    have hmem := (mem_results_record order).mpr ⟨Ne.symm hne, rfl⟩
    exact absurd (beq_self_eq_true id) (List.find?_eq_none.mp hf _ hmem)
  | some o =>
    have hid : o.id = id := by simpa using List.find?_some hf
    obtain ⟨-, ht⟩ := (mem_results_record order).mp (List.mem_of_find?_eq_some hf)
    rw [← hid]
    exact ht.symm

end Engine

namespace Ledger

variable {L : Limits} {m : Model}

theorem exec_append_drive (L : Limits) (m : Model) (ops : List EngineOp) (n : ℕ) :
    let a := (Machine.exec (engineOp L m) .empty ops).1
    Machine.exec (engineOp L m) .empty (ops ++ List.replicate (drive L m n a).2.length .step) =
      ((drive L m n a).1,
        (Machine.exec (engineOp L m) .empty ops).2 ++ (drive L m n a).2.map some) := by
  intro a
  rw [Machine.exec_append, exec_drive]

theorem submittedTo_append_steps (ops : List EngineOp) (n : ℕ) :
    submittedTo (ops ++ List.replicate n .step) = submittedTo ops := by
  have hsteps : submittedTo (List.replicate n .step) = [] := List.filterMap_replicate_of_none rfl
  rw [submittedTo, List.filterMap_append]
  exact (congrArg (_ ++ ·) hsteps).trans (List.append_nil _)

theorem emissionsOf_append_steps (answers : List StepAnswer)
    (steps : List (StepPlan × List Emission)) :
    emissionsOf (answers ++ steps.map some) = emissionsOf answers ++ steps.flatMap Prod.snd := by
  rw [emissionsOf, List.reduceOption_append, List.flatMap_append]
  have hsome : (steps.map some).reduceOption = steps := by simp [List.reduceOption]
  rw [hsome]
  rfl

end Ledger

/-- Whatever calls came before, completing an engine whose requests fit returns, by ascending id,
exactly what is still to come: with what was streamed before it makes up the greedy decoding
of every request. -/
theorem completion_resumes_streams (m : Model) (maxBatchSize numBlocks blockSize : ℕ)
    (hb : 0 < blockSize) (hbatch : 1 ≤ maxBatchSize) (ops : List EngineOp)
    (hids : (submittedTo ops).Nodup) (hfit : ∀ o ∈ ops, o.Fits numBlocks blockSize)
    (hwork : workOf ops ≤ Engine.maxIterations)
    (order : IterOrder (Σ _ : SeqId, List TokenId)) :
    ∃ e answers result,
      Machine.run Engine.op (.new m ⟨maxBatchSize⟩ (.new numBlocks blockSize hb)) ops =
        some (e, answers) ∧
      e.runToCompletion order = some result ∧
      result.Pairwise (fun a b => a.id < b.id) ∧
      (∀ o ∈ result, o.id ∈ submittedTo ops ∧ o.tokens ≠ []) ∧
      ∀ id prompt maxNewTokens, .submit id prompt maxNewTokens ∈ ops →
        tokensOf id (emissionsOf answers) ++ tokensIn id result = m.greedy prompt maxNewTokens := by
  let L : Limits := ⟨maxBatchSize, numBlocks, blockSize, hb⟩
  obtain ⟨e, hr, he⟩ := Engine.run_refines L m ops hids
  have hv := (Ledger.serves_exec L m ops hids).valid
  have hs := Ledger.synced_exec L m ops
  have hlive := Ledger.fits_of_withinRequests (L := L) (Ledger.withinRequests_exec L m ops) hfit
  have hn := (Ledger.remaining_exec_le L m ops hids).trans hwork
  set a := (Machine.exec (Ledger.engineOp L m) .empty ops).1 with ha
  have hnil : (Ledger.drive L m (Engine.maxIterations + 1) a).1.live = [] :=
    Ledger.drive_drains hbatch m hv hs hlive (Nat.le_succ_of_le hn)
  have hx := Ledger.exact_exec L m
    (ops ++ List.replicate (Ledger.drive L m (Engine.maxIterations + 1) a).2.length .step)
    (by rwa [Ledger.submittedTo_append_steps])
  rw [Ledger.exec_append_drive] at hx
  have hsub := hx.emitted
  rw [Ledger.submittedTo_append_steps, Ledger.emissionsOf_append_steps] at hsub
  refine ⟨e, _, _, hr, Engine.runToCompletion_refines hv he order,
    Engine.ascending_results order _, ?_, ?_⟩
  · intro o ho
    obtain ⟨hne, ht⟩ := (Engine.mem_results_record order).mp ho
    refine ⟨?_, hne⟩
    by_contra hid
    refine hne (ht.symm.trans (tokensOf_of_notMem fun hmem => ?_))
    obtain ⟨t, htm, htid⟩ := List.mem_map.mp hmem
    exact hid (htid ▸ hsub t (List.mem_append_right _ htm))
  · intro id prompt maxNewTokens hmem
    rw [Engine.tokensIn_results]
    cases hx.served id prompt maxNewTokens (List.mem_append_left _ hmem) with
    | live s hs' hid hout hsplit =>
      rw [hnil] at hs'
      cases hs'
    | retired hid hall =>
      rw [Ledger.emissionsOf_append_steps, tokensOf_append] at hall
      exact hall

theorem completion_resumes_streams_under_pressure :
    let m : Model := ⟨2, 1, 0, fun _ => ⟨[0, 1]⟩⟩
    let ops : List EngineOp :=
      [.submit 2 [5, 6] 3, .step, .submit 1 [7, 8] 3, .step, .submit 3 [9] 0]
    ∃ e answers result,
      Machine.run Engine.op (.new m ⟨2⟩ (.new 3 2 (by decide))) ops = some (e, answers) ∧
      e.runToCompletion ⟨List.reverse, List.reverse_perm⟩ = some result ∧
      result.Pairwise (fun a b => a.id < b.id) ∧
      (∀ o ∈ result, o.id ∈ submittedTo ops ∧ o.tokens ≠ []) ∧
      ∀ id prompt maxNewTokens, .submit id prompt maxNewTokens ∈ ops →
        tokensOf id (emissionsOf answers) ++ tokensIn id result = m.greedy prompt maxNewTokens :=
  completion_resumes_streams _ 2 3 2 (by decide) (by decide) _ (by decide) (by decide)
    (by decide) _

end ForgeInfer
