import ForgeInfer.Engine.Refinement
import ForgeInfer.Scheduler.Sound

/-! # Any run of the engine

The tokens of a step go to the sequences that the plan decodes, and those still run. So no run
of calls panics, also when ids are submitted more than once.
-/

namespace ForgeInfer

namespace Scheduler

variable {s : Scheduler}

theorem runningSeq_of_mem {id : SeqId} (h : id ∈ s.running.map (·.id)) :
    ∃ seq, s.runningSeq id = some seq := by
  obtain ⟨seq, hseq, hid⟩ := List.mem_map.mp h
  have hsome : (s.running.find? fun t => t.id == id).isSome :=
    List.find?_isSome.mpr ⟨seq, hseq, by simpa using hid⟩
  exact Option.isSome_iff_exists.mp hsome

end Scheduler

namespace Engine

variable {e : Engine} {maxBatchSize numBlocks : ℕ}

theorem decodeLoop_sound (m : Model) (ids : List SeqId) {s : Scheduler}
    (h : s.Sound maxBatchSize numBlocks) (hids : ∀ id ∈ ids, id ∈ s.running.map (·.id))
    (emitted : List Emission) :
    ∃ s' emitted', decodeLoop m ids s emitted = some (s', emitted ++ emitted') ∧
      s'.Sound maxBatchSize numBlocks ∧ s'.waiting = s.waiting ∧
      s'.running.map (·.id) = s.running.map (·.id) ∧ emitted'.map Prod.fst = ids := by
  induction ids generalizing s emitted with
  | nil => exact ⟨s, [], by simp [decodeLoop], h, rfl, rfl, rfl⟩
  | cons id ids ih =>
    obtain ⟨seq, hseq⟩ := Scheduler.runningSeq_of_mem (hids id List.mem_cons_self)
    set token := (m.forward (seq.prompt ++ seq.output)).argmax with htoken
    have hpush := Scheduler.map_id_pushToken s id token (token == m.eosToken)
    obtain ⟨s', emitted', hl, hs', hw, hrun, hfst⟩ :=
      ih (h.pushToken id token (token == m.eosToken))
        (fun j hj => hpush ▸ hids j (List.mem_cons_of_mem id hj))
        (emitted ++ [(id, token, token == m.eosToken)])
    refine ⟨s', (id, token, token == m.eosToken) :: emitted', ?_, hs', hw, hrun.trans hpush, ?_⟩
    · rw [List.append_assoc, List.singleton_append] at hl
      rw [decodeLoop, hseq]
      exact hl
    · rw [List.map_cons, hfst]

theorem stepWithPlan_sound (h : e.scheduler.Sound maxBatchSize numBlocks) :
    ∃ e' plan emitted, e.stepWithPlan = some (e', plan, emitted) ∧
      e'.scheduler.Sound maxBatchSize numBlocks ∧
      (e'.scheduler.live.map (·.id) ++ plan.finished).Perm (e.scheduler.live.map (·.id)) ∧
      emitted.map Prod.fst = plan.decodeBatch := by
  obtain ⟨s₁, plan, hplan, h₁, hids, hbatch⟩ := h.schedule
  obtain ⟨s₂, emitted, hloop, h₂, hw, hrun, hfst⟩ :=
    decodeLoop_sound e.model plan.decodeBatch h₁ hbatch []
  refine ⟨{ e with scheduler := s₂ }, plan, emitted, ?_, h₂, ?_, hfst⟩
  · simp [stepWithPlan, hplan, hloop]
  · have hlive : s₂.live.map (·.id) = s₁.live.map (·.id) := by
      rw [Scheduler.live, Scheduler.live, List.map_append, List.map_append, hw, hrun]
    change (s₂.live.map (·.id) ++ plan.finished).Perm _
    rw [hlive]
    exact hids

/-- What holds after any calls: the invariant, each submitted id in one place, and one token
for each id that the plans decode. -/
structure Accounts (maxBatchSize numBlocks : ℕ) (ops : List EngineOp) (e : Engine)
    (answers : List StepAnswer) : Prop where
  sound : e.scheduler.Sound maxBatchSize numBlocks
  places : (e.scheduler.live.map (·.id) ++ finishedIds (plansOf answers)).Perm (submittedTo ops)
  decoded : (emissionsOf answers).map Prod.fst = (plansOf answers).flatMap (·.decodeBatch)

theorem Accounts.submit {ops : List EngineOp} {answers : List StepAnswer}
    (h : Accounts maxBatchSize numBlocks ops e answers) (id : SeqId) (prompt : List TokenId)
    (maxNewTokens : ℕ) :
    Accounts maxBatchSize numBlocks (ops ++ [.submit id prompt maxNewTokens])
      (e.submit id prompt maxNewTokens) (answers ++ [none]) := by
  refine ⟨⟨h.sound.maxBatchSize_eq, h.sound.backs, h.sound.length_le⟩, ?_, ?_⟩
  · rw [plansOf_concat_none, submittedTo_concat]
    have hp := h.places
    simp only [Scheduler.live, Engine.submit, Scheduler.submit, List.map_append, List.map_singleton,
      Sequence.new, EngineOp.submitted, Option.toList_some, List.perm_iff_count, List.count_append]
      at hp ⊢
    intro i
    have := hp i
    omega
  · rw [plansOf_concat_none, emissionsOf_concat_none]
    exact h.decoded

theorem Accounts.op {ops : List EngineOp} {answers : List StepAnswer}
    (h : Accounts maxBatchSize numBlocks ops e answers) (o : EngineOp) :
    ∃ e' answer, e.op o = some (e', answer) ∧
      Accounts maxBatchSize numBlocks (ops ++ [o]) e' (answers ++ [answer]) := by
  cases o with
  | submit id prompt maxNewTokens => exact ⟨_, none, rfl, h.submit id prompt maxNewTokens⟩
  | step =>
    obtain ⟨e', plan, emitted, hstep, hsound, hids, hfst⟩ := stepWithPlan_sound h.sound
    refine ⟨e', some (plan, emitted), by simp [Engine.op, hstep], hsound, ?_, ?_⟩
    · have hp := h.places
      rw [plansOf_concat, finishedIds_append, submittedTo_concat]
      simp only [Option.map_some, Option.toList_some, finishedIds, List.flatMap_singleton,
        EngineOp.submitted, Option.toList_none, List.append_nil, List.perm_iff_count,
        List.count_append] at hp hids ⊢
      intro i
      have := hp i
      have := hids i
      omega
    · rw [plansOf_concat, emissionsOf_concat, List.map_append, h.decoded, List.flatMap_append]
      simp [hfst]

theorem accounts_run (m : Model) (maxBatchSize numBlocks blockSize : ℕ) (hb : 0 < blockSize)
    (ops : List EngineOp) :
    ∃ e answers,
      Machine.run op (new m ⟨maxBatchSize⟩ (.new numBlocks blockSize hb)) ops = some (e, answers) ∧
      Accounts maxBatchSize numBlocks ops e answers := by
  induction ops using List.reverseRecOn with
  | nil => exact ⟨_, [], rfl, Scheduler.sound_new _ _ _ hb, .refl _, rfl⟩
  | append_singleton ops o ih =>
    obtain ⟨e, answers, hr, h⟩ := ih
    obtain ⟨e', answer, ho, h'⟩ := h.op o
    exact ⟨e', _, Machine.run_concat hr ho, h'⟩

theorem completionLoop_sound (n : ℕ) (h : e.scheduler.Sound maxBatchSize numBlocks)
    (outputs : Outputs) : ∃ r, completionLoop n e outputs = some r := by
  induction n generalizing e outputs with
  | zero =>
    rw [completionLoop]
    split
    · obtain ⟨e', plan, emitted, hstep, -⟩ := stepWithPlan_sound h
      exact ⟨_, by simp [step, hstep]; rfl⟩
    · exact ⟨_, rfl⟩
  | succ n ih =>
    rw [completionLoop]
    split
    · obtain ⟨e', plan, emitted, hstep, h', -⟩ := stepWithPlan_sound h
      obtain ⟨r, hr⟩ := ih h' (record outputs emitted)
      exact ⟨r, by simp [step, hstep, hr]⟩
    · exact ⟨_, rfl⟩

theorem runToCompletion_sound (h : e.scheduler.Sound maxBatchSize numBlocks)
    (order : IterOrder (Σ _ : SeqId, List TokenId)) :
    ∃ result, e.runToCompletion order = some result := by
  obtain ⟨r, hr⟩ := completionLoop_sound maxIterations h ∅
  exact ⟨_, by rw [runToCompletion, hr]; rfl⟩

end Engine

/-- Any calls, also with ids submitted again and again, complete without a panic: the blocks of
the cache stay partitioned, every block table belongs to a running sequence, the batch keeps
its bound, each submission is live or retired once, and each step has a token for each id that
its plan decodes. -/
theorem any_calls_are_safe (m : Model) (maxBatchSize numBlocks blockSize : ℕ) (hb : 0 < blockSize)
    (ops : List EngineOp) :
    ∃ e answers,
      Machine.run Engine.op (.new m ⟨maxBatchSize⟩ (.new numBlocks blockSize hb)) ops =
        some (e, answers) ∧
      (e.scheduler.cache.freeList ++ e.scheduler.cache.owned).Perm (List.range numBlocks) ∧
      (∀ id ∈ e.scheduler.cache.tables, id ∈ e.scheduler.running.map (·.id)) ∧
      e.scheduler.running.length ≤ maxBatchSize ∧
      (e.scheduler.live.map (·.id) ++ finishedIds (plansOf answers)).Perm (submittedTo ops) ∧
      (emissionsOf answers).map Prod.fst = (plansOf answers).flatMap (·.decodeBatch) := by
  obtain ⟨e, answers, hr, h⟩ := Engine.accounts_run m maxBatchSize numBlocks blockSize hb ops
  have hback := h.sound.backs
  exact ⟨e, answers, hr, hback.numBlocks_eq ▸ hback.valid.partition, hback.owners,
    h.sound.length_le, h.places, h.decoded⟩

/-- One id three times: two of its sequences share a table, and the third one frees it. -/
theorem any_calls_are_safe_with_one_id :
    let m : Model := ⟨2, 1, 0, fun _ => ⟨[0, 1]⟩⟩
    let ops : List EngineOp :=
      [.submit 1 [5] 3, .submit 1 [6] 2, .submit 1 [7, 8, 9] 2, .step, .step, .step]
    ∃ e answers,
      Machine.run Engine.op (.new m ⟨3⟩ (.new 2 2 (by decide))) ops = some (e, answers) ∧
      (e.scheduler.cache.freeList ++ e.scheduler.cache.owned).Perm (List.range 2) ∧
      (∀ id ∈ e.scheduler.cache.tables, id ∈ e.scheduler.running.map (·.id)) ∧
      e.scheduler.running.length ≤ 3 ∧
      (e.scheduler.live.map (·.id) ++ finishedIds (plansOf answers)).Perm (submittedTo ops) ∧
      (emissionsOf answers).map Prod.fst = (plansOf answers).flatMap (·.decodeBatch) :=
  any_calls_are_safe _ 3 2 2 (by decide) _

end ForgeInfer
