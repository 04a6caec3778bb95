import ForgeInfer.Engine.Refinement

/-! # Batching does not change tokens

A live sequence splits greedy decoding of its request: its output is what has been
produced, and greedy decoding of the longer context is what remains. Moving a sequence
between queue and batch keeps the split, a forward pass moves one token across it, and
a complete sequence has nothing left to produce.
-/

namespace ForgeInfer

def tokensOf (id : SeqId) (emitted : List Emission) : List TokenId :=
  (emitted.filter fun t => t.1 == id).map fun t => t.2.1

theorem tokensOf_append (id : SeqId) (emitted emitted' : List Emission) :
    tokensOf id (emitted ++ emitted') = tokensOf id emitted ++ tokensOf id emitted' := by
  simp [tokensOf]

theorem tokensOf_of_notMem {id : SeqId} {emitted : List Emission}
    (h : id ∉ emitted.map Prod.fst) : tokensOf id emitted = [] := by
  rw [tokensOf, List.map_eq_nil_iff, List.filter_eq_nil_iff]
  intro t ht he
  exact h (List.mem_map.mpr ⟨t, ht, by simpa using he⟩)

theorem tokensOf_of_mem {emitted : List Emission} {t : Emission}
    (hn : (emitted.map Prod.fst).Nodup) (ht : t ∈ emitted) : tokensOf t.1 emitted = [t.2.1] := by
  obtain ⟨l, r, rfl⟩ := List.append_of_mem ht
  rw [List.map_append, List.map_cons, List.nodup_middle, List.nodup_cons, List.mem_append,
    not_or] at hn
  obtain ⟨⟨hl, hr⟩, -⟩ := hn
  have hone : tokensOf t.1 [t] = [t.2.1] := by simp [tokensOf]
  rw [tokensOf_append, ← List.singleton_append, tokensOf_append, tokensOf_of_notMem hl,
    tokensOf_of_notMem hr, hone]
  rfl

namespace Sequence

/-- The tokens that greedy decoding still owes a sequence. -/
def owed (m : Model) (s : Sequence) : List TokenId :=
  m.greedy (s.prompt ++ s.output) (s.maxNewTokens - s.output.length)

theorem owed_of_bare_eq {s s' : Sequence} (h : s.bare = s'.bare) (m : Model) :
    s.owed m = s'.owed m := by
  change s.bare.owed m = s'.bare.owed m
  rw [h]

theorem owed_of_complete {s : Sequence} (h : s.isComplete = true) (m : Model) : s.owed m = [] := by
  have hle : s.maxNewTokens ≤ s.output.length := by simpa [isComplete] using h
  rw [owed, Nat.sub_eq_zero_of_le hle]
  rfl

end Sequence

theorem Slot.owed_decode (m : Model) {x : Slot} (h : x.seq.isComplete = false) :
    x.seq.owed m = [x.token m] ++ (x.decode m).seq.owed m := by
  have hlt : 0 < x.seq.maxNewTokens - x.seq.output.length := by
    simp only [Sequence.isComplete, decide_eq_false_iff_not] at h
    omega
  rw [Sequence.owed, Model.greedy, Greedy.decode_split _ hlt]
  simp only [Sequence.owed, Slot.decode, Sequence.pushToken, Model.greedy, List.append_assoc,
    List.length_append, List.length_singleton]
  change [x.token m] ++ _ = [x.token m] ++ _
  congr 2
  have heos : m.next (x.seq.prompt ++ x.seq.output) = x.token m := rfl
  rw [heos]
  by_cases he : x.token m = m.eosToken
  · simp [he]
  · simp only [he, if_false, beq_iff_eq]
    omega

namespace Ledger

variable {L : Limits} {m : Model} {a : Ledger}

theorem Valid.notMem_running_of_finished (h : a.Valid L) {id : SeqId}
    (hid : id ∈ (a.plan L).finished) : id ∉ (a.scheduled L).running.map (·.seq.id) := by
  intro hrun
  have hd := (a.ids_scheduled L).nodup_iff.mp h.nodup
  exact (List.nodup_append.mp hd).2.2 id ((a.scheduled L).running_subset_live id hrun) id hid rfl

/-- What an engine step does to a live sequence: it waits, it is decoded, or it is complete
and retires. -/
theorem step_cases (h : a.Valid L) {s : Sequence} (hs : s ∈ a.live) :
    (∃ s' ∈ (a.scheduled L).waiting, s'.bare = s.bare ∧
      s.id ∉ (a.scheduled L).running.map (·.seq.id)) ∨
    (∃ x ∈ (a.scheduled L).running, x.seq.bare = s.bare ∧ x.seq.isComplete = false) ∨
    (s.isComplete = true ∧ s.id ∈ (a.plan L).finished ∧
      s.id ∉ (a.scheduled L).running.map (·.seq.id)) := by
  have hmem := (a.live_scheduled L).mem_iff.mp (List.mem_map_of_mem hs)
  rcases List.mem_append.mp hmem with hl | hr
  · obtain ⟨s', hs', hb⟩ := List.mem_map.mp hl
    rcases List.mem_append.mp hs' with hw | hrun
    · have hid := (Sequence.fields_of_bare hb).1
      exact Or.inl ⟨s', hw, hb, hid ▸ h.scheduled.notMem_running hw⟩
    · obtain ⟨x, hx, rfl⟩ := List.mem_map.mp hrun
      exact Or.inr (Or.inl ⟨x, hx, hb, incomplete_of_mem_scheduled hx⟩)
  · obtain ⟨x, hx, hb⟩ := List.mem_map.mp hr
    have hc := Sequence.isComplete_of_bare hb
    have hf : s.id ∈ (a.plan L).finished :=
      (Sequence.fields_of_bare hb).1 ▸ List.mem_map_of_mem hx
    exact Or.inr (Or.inr ⟨hc ▸ complete_of_mem_retired hx, hf, h.notMem_running_of_finished hf⟩)

theorem map_fst_emission (m : Model) (run : List Slot) :
    (run.map (Slot.emission m)).map Prod.fst = run.map (·.seq.id) := by
  rw [List.map_map]; rfl

/-- A request is live with what was emitted for it, or retired with all it asked for. -/
inductive Served (m : Model) (a : Ledger) (answers : List StepAnswer) (id : SeqId)
    (prompt : List TokenId) (maxNewTokens : ℕ) : Prop where
  | live (s : Sequence) (hs : s ∈ a.live) (hid : s.id = id)
      (hout : s.output = tokensOf id (emissionsOf answers))
      (hsplit : m.greedy prompt maxNewTokens = s.output ++ s.owed m)
  | retired (hid : id ∈ finishedIds (plansOf answers))
      (hall : tokensOf id (emissionsOf answers) = m.greedy prompt maxNewTokens)

variable {answers : List StepAnswer} {id : SeqId} {prompt : List TokenId} {maxNewTokens : ℕ}

theorem Served.submit (h : Served m a answers id prompt maxNewTokens) (s : Sequence) :
    Served m (a.submit s) (answers ++ [none]) id prompt maxNewTokens := by
  cases h with
  | live s' hs hid hout hsplit =>
    have hs' := (a.live_submit s).mem_iff.mpr (List.mem_cons_of_mem s hs)
    exact .live s' hs' hid (by rw [emissionsOf_concat_none]; exact hout) hsplit
  | retired hid hall =>
    apply Served.retired
    · rw [plansOf_concat_none]; exact hid
    · rw [emissionsOf_concat_none]; exact hall

theorem Served.new (m : Model) (a : Ledger) (hnone : tokensOf id (emissionsOf answers) = []) :
    Served m (a.submit (.new id prompt maxNewTokens)) (answers ++ [none]) id prompt
      maxNewTokens := by
  have hs := (a.live_submit (.new id prompt maxNewTokens)).mem_iff.mpr List.mem_cons_self
  refine .live _ hs rfl (by rw [emissionsOf_concat_none, hnone]; rfl) ?_
  simp [Sequence.new, Sequence.owed]

theorem tokensOf_step_of_notMem (h : id ∉ (a.scheduled L).running.map (·.seq.id)) (m : Model)
    (answers : List StepAnswer) :
    tokensOf id (emissionsOf (answers ++ [some (a.step L m).2])) =
      tokensOf id (emissionsOf answers) := by
  have hnone : tokensOf id ((a.scheduled L).running.map (Slot.emission m)) = [] :=
    tokensOf_of_notMem (by rwa [map_fst_emission])
  rw [emissionsOf_step, tokensOf_append, hnone, List.append_nil]

theorem tokensOf_step_of_mem (hv : a.Valid L) {x : Slot} (hx : x ∈ (a.scheduled L).running)
    (m : Model) (answers : List StepAnswer) :
    tokensOf x.seq.id (emissionsOf (answers ++ [some (a.step L m).2])) =
      tokensOf x.seq.id (emissionsOf answers) ++ [x.token m] := by
  have hnd : (((a.scheduled L).running.map (Slot.emission m)).map Prod.fst).Nodup := by
    rw [map_fst_emission]
    exact hv.scheduled.running_nodup
  rw [emissionsOf_step, tokensOf_append]
  exact congrArg _ (tokensOf_of_mem hnd (List.mem_map_of_mem hx))

theorem mem_finishedIds_step :
    id ∈ finishedIds (plansOf (answers ++ [some (a.step L m).2])) ↔
      id ∈ finishedIds (plansOf answers) ∨ id ∈ (a.plan L).finished := by
  rw [plansOf_step, finishedIds_append, List.mem_append]
  simp [finishedIds]

theorem Served.step (hv : a.Valid L) (h : Served m a answers id prompt maxNewTokens)
    (hout : id ∈ finishedIds (plansOf answers) → id ∉ a.live.map (·.id)) :
    Served m (a.step L m).1 (answers ++ [some (a.step L m).2]) id prompt maxNewTokens := by
  cases h with
  | live s hs hid hemit hsplit =>
    subst hid
    rcases step_cases hv hs with ⟨s', hs', hb, hn⟩ | ⟨x, hx, hb, hc⟩ | ⟨hc, hf, hn⟩
    · obtain ⟨hid, -, houts, -⟩ := Sequence.fields_of_bare hb
      have hsl : s' ∈ (a.step L m).1.live := List.mem_append_left _ hs'
      apply Served.live s' hsl hid
      · rw [tokensOf_step_of_notMem hn, houts, hemit]
      · rw [houts, Sequence.owed_of_bare_eq hb, hsplit]
    · obtain ⟨hid, -, houts, -⟩ := Sequence.fields_of_bare hb
      have hxl : (x.decode m).seq ∈ (a.step L m).1.live :=
        List.mem_append_right _ (List.mem_map_of_mem (List.mem_map_of_mem hx))
      have hpush : (x.decode m).seq.output = s.output ++ [x.token m] := by
        rw [← houts]
        rfl
      apply Served.live _ hxl hid
      · rw [hpush, ← hid, tokensOf_step_of_mem hv hx, hid, hemit]
      · rw [hpush, hsplit, ← Sequence.owed_of_bare_eq hb, Slot.owed_decode m hc,
          List.append_assoc]
    · apply Served.retired
      · exact mem_finishedIds_step.mpr (Or.inr hf)
      · rw [tokensOf_step_of_notMem hn, hsplit, Sequence.owed_of_complete hc, List.append_nil,
          hemit]
  | retired hid hall =>
    have hn : id ∉ (a.scheduled L).running.map (·.seq.id) := by
      intro hrun
      exact hout hid (a.decoded_subset_live L id hrun)
    apply Served.retired
    · exact mem_finishedIds_step.mpr (Or.inl hid)
    · rw [tokensOf_step_of_notMem hn, hall]

/-- Every submitted request is served, and nothing is emitted for any other id. -/
structure Exact (L : Limits) (m : Model) (ops : List EngineOp) (a : Ledger)
    (answers : List StepAnswer) : Prop where
  serves : Serves L ops a answers
  emitted : ∀ t ∈ emissionsOf answers, t.1 ∈ submittedTo ops
  served : ∀ id prompt maxNewTokens, .submit id prompt maxNewTokens ∈ ops →
    Served m a answers id prompt maxNewTokens

theorem Exact.engineOp {ops : List EngineOp} (h : Exact L m ops a answers) {o : EngineOp}
    (hn : (submittedTo (ops ++ [o])).Nodup) :
    Exact L m (ops ++ [o]) (a.engineOp L m o).1 (answers ++ [(a.engineOp L m o).2]) := by
  have hpast := submittedTo_prefixClosed ops o hn
  refine ⟨h.serves.engineOp m hn, ?_, ?_⟩
  · intro t ht
    rw [submittedTo_concat, List.mem_append]
    left
    cases o with
    | submit id' prompt' max' =>
      have ht' : t ∈ emissionsOf (answers ++ [none]) := ht
      rw [emissionsOf_concat_none] at ht'
      exact h.emitted t ht'
    | step =>
      have ht' : t ∈ emissionsOf (answers ++ [some (a.step L m).2]) := ht
      rw [emissionsOf_step, List.mem_append] at ht'
      rcases ht' with ht' | ht'
      · exact h.emitted t ht'
      · obtain ⟨x, hx, rfl⟩ := List.mem_map.mp ht'
        have hl := a.decoded_subset_live L _ (List.mem_map_of_mem hx)
        exact h.serves.places.mem_iff.mp (List.mem_append_left _ hl)
  · intro id prompt maxNewTokens hmem
    cases o with
    | submit id' prompt' max' =>
      rcases List.mem_append.mp hmem with hmem | hmem
      · exact (h.served id prompt maxNewTokens hmem).submit _
      · obtain ⟨rfl, rfl, rfl⟩ : id = id' ∧ prompt = prompt' ∧ maxNewTokens = max' := by
          simpa using hmem
        refine Served.new m a (tokensOf_of_notMem fun hid => ?_)
        obtain ⟨t, ht, rfl⟩ := List.mem_map.mp hid
        rw [submittedTo_concat, List.nodup_append] at hn
        exact hn.2.2 t.1 (h.emitted t ht) t.1 (by simp [EngineOp.submitted]) rfl
    | step =>
      have hmem' : .submit id prompt maxNewTokens ∈ ops := by simpa using hmem
      exact (h.served id prompt maxNewTokens hmem').step h.serves.valid
        (h.serves.notMem_live_of_finished hpast)

theorem exact_exec (L : Limits) (m : Model) (ops : List EngineOp) (h : (submittedTo ops).Nodup) :
    Exact L m ops (Machine.exec (Ledger.engineOp L m) .empty ops).1
      (Machine.exec (Ledger.engineOp L m) .empty ops).2 := by
  refine Machine.exec_invariant submittedTo_prefixClosed (P := Exact L m) ?_ ?_ ops h
  · constructor
    · exact Serves.empty L
    · rintro t ⟨⟩
    · rintro id prompt maxNewTokens ⟨⟩
  · intro ops o hn ih
    exact ih.engineOp hn

end Ledger

/-- In every run the tokens emitted for a request are its stored output and begin its
isolated greedy decoding; once it has retired they are all of it. -/
theorem engine_refines_greedy (m : Model) (maxBatchSize numBlocks blockSize : ℕ)
    (hb : 0 < blockSize) (ops : List EngineOp) (hids : (submittedTo ops).Nodup) :
    ∃ e answers,
      Machine.run Engine.op (.new m ⟨maxBatchSize⟩ (.new numBlocks blockSize hb)) ops =
        some (e, answers) ∧
      ∀ id prompt maxNewTokens, .submit id prompt maxNewTokens ∈ ops →
        tokensOf id (emissionsOf answers) <+: m.greedy prompt maxNewTokens ∧
        (∀ s ∈ e.scheduler.live, s.id = id → s.output = tokensOf id (emissionsOf answers)) ∧
        (id ∈ finishedIds (plansOf answers) →
          tokensOf id (emissionsOf answers) = m.greedy prompt maxNewTokens) ∧
        (id ∈ e.scheduler.live.map (·.id) ∨ id ∈ finishedIds (plansOf answers)) := by
  obtain ⟨e, hr, he⟩ := Engine.run_refines ⟨maxBatchSize, numBlocks, blockSize, hb⟩ m ops hids
  have hx := Ledger.exact_exec ⟨maxBatchSize, numBlocks, blockSize, hb⟩ m ops hids
  refine ⟨e, _, hr, fun id prompt maxNewTokens hmem => ?_⟩
  have hfin : id ∈ finishedIds _ → _ := hx.serves.notMem_live_of_finished hids
  rw [he.scheduler.live_eq]
  cases hx.served id prompt maxNewTokens hmem with
  | live s hs hid hout hsplit =>
    have hsid := List.mem_map.mpr ⟨s, hs, hid⟩
    refine ⟨?_, ?_, ?_, ?_⟩
    · rw [hsplit, ← hout]; exact List.prefix_append _ _
    · intro s' hs' hid'
      rw [Ledger.eq_of_mem_live hx.serves.valid hs' hs (hid'.trans hid.symm), hout]
    · intro hf
      exact absurd hsid (hfin hf)
    · exact Or.inl hsid
  | retired hid hall =>
    refine ⟨?_, ?_, ?_, ?_⟩
    · rw [hall]
    · intro s' hs' hid'
      exact absurd (List.mem_map.mpr ⟨s', hs', hid'⟩) (hfin hid)
    · exact fun _ => hall
    · exact Or.inr hid

theorem engine_refines_greedy_under_pressure :
    let m : Model := ⟨2, 1, 0, fun _ => ⟨[0, 1]⟩⟩
    let ops : List EngineOp :=
      [.submit 1 [5, 6] 2, .submit 2 [7, 8] 3, .step, .submit 3 [9] 1, .step, .step, .step]
    ∃ e answers,
      Machine.run Engine.op (.new m ⟨2⟩ (.new 3 2 (by decide))) ops = some (e, answers) ∧
      ∀ id prompt maxNewTokens, .submit id prompt maxNewTokens ∈ ops →
        tokensOf id (emissionsOf answers) <+: m.greedy prompt maxNewTokens ∧
        (∀ s ∈ e.scheduler.live, s.id = id → s.output = tokensOf id (emissionsOf answers)) ∧
        (id ∈ finishedIds (plansOf answers) →
          tokensOf id (emissionsOf answers) = m.greedy prompt maxNewTokens) ∧
        (id ∈ e.scheduler.live.map (·.id) ∨ id ∈ finishedIds (plansOf answers)) :=
  engine_refines_greedy _ 2 3 2 (by decide) _ (by decide)

end ForgeInfer
