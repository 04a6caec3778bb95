import ForgeInfer.Engine.Latency

/-! # A roomy engine is never behind

Two engines get the same calls. The one has a cache for the worst case of its batch, the other
a batch that is no larger and any cache. The first has then always admitted at least as much of
the queue, and owes every request no more tokens than the other: with fewer or as many live
requests and no smaller a batch it leaves no more of them waiting.
-/

namespace ForgeInfer

namespace Ledger

/-- The ledger `a'` is not behind `a`: its queue is an end of the other, and its running
sequences take no more places of the batch than they do in `a`. -/
structure Outpaces (m : Model) (a' a : Ledger) : Prop where
  waiting : a'.waiting <:+ a.waiting
  running : ∀ x ∈ a'.running, ∃ s ∈ a.live, s.id = x.seq.id ∧ x.seq.cost m ≤ s.cost m

variable {L L' : Limits} {m : Model} {a a' : Ledger}

theorem outpaces_empty (m : Model) : empty.Outpaces m empty where
  waiting := List.suffix_rfl
  running := by rintro x ⟨⟩

namespace Outpaces

theorem live (h : a'.Outpaces m a) {s' : Sequence} (hs' : s' ∈ a'.live) :
    ∃ s ∈ a.live, s.id = s'.id ∧ s'.cost m ≤ s.cost m := by
  rcases List.mem_append.mp hs' with hw | hr
  · exact ⟨s', List.mem_append_left _ (h.waiting.subset hw), rfl, le_rfl⟩
  · obtain ⟨x, hx, rfl⟩ := List.mem_map.mp hr
    exact h.running x hx

theorem placed (h : a'.Outpaces m a) {x : Slot} (hx : x ∈ a'.placed L') :
    ∃ s ∈ a.live, s.id = x.seq.id ∧ x.seq.cost m ≤ s.cost m := by
  obtain ⟨s', hs', hb⟩ := bare_of_mem_placed hx
  obtain ⟨s, hs, hid, hcost⟩ := h.live hs'
  obtain ⟨hid', -⟩ := Sequence.fields_of_bare hb
  exact ⟨s, hs, hid.trans hid', (Sequence.cost_of_bare_eq hb m) ▸ hcost⟩

theorem length_live_le (h : a'.Outpaces m a) (hv' : a'.Valid L') :
    a'.live.length ≤ a.live.length := by
  have hsub : a'.live.map (·.id) ⊆ a.live.map (·.id) := by
    intro id hid
    obtain ⟨s', hs', rfl⟩ := List.mem_map.mp hid
    obtain ⟨s, hs, hid, -⟩ := h.live hs'
    exact List.mem_map.mpr ⟨s, hs, hid⟩
  simpa using (List.subperm_of_subset hv'.nodup hsub).length_le

theorem submit (h : a'.Outpaces m a) (s : Sequence) : (a'.submit s).Outpaces m (a.submit s) where
  waiting := by
    obtain ⟨front, hfront⟩ := h.waiting
    exact ⟨front, by rw [Ledger.submit, Ledger.submit, ← hfront, List.append_assoc]⟩
  running x hx := by
    obtain ⟨s', hs', hrest⟩ := h.running x hx
    exact ⟨s', (a.live_submit s).mem_iff.mpr (List.mem_cons_of_mem s hs'), hrest⟩

/-- The larger batch leaves no more of the queue: either nothing, or it is full, and then the
places and what is left of the queue sum up to no more than on the other side. -/
theorem left (h : a'.Outpaces m a) (hv : a.Valid L) (hv' : a'.Valid L')
    (hle : L.maxBatchSize ≤ L'.maxBatchSize)
    (hfull : a'.left L' = [] ∨ (a'.placed L').length = L'.maxBatchSize) :
    a'.left L' <:+ a.left L := by
  rcases hfull with hnil | hfull
  · rw [hnil]
    exact List.nil_suffix
  · have hlive := h.length_live_le hv'
    have hplaced : (a.placed L).length ≤ L.maxBatchSize := Limits.length_taken_le hv.length_le _
    have hids := (a.ids_placed L).length_eq
    have hids' := (a'.ids_placed L').length_eq
    simp only [List.length_map, List.length_append] at hids hids'
    apply List.suffix_of_suffix_length_le ((List.drop_suffix _ _).trans h.waiting)
      (List.drop_suffix _ _)
    change (a'.left L').length ≤ (a.left L).length
    omega

theorem decoded (hv : a.Valid L) {x : Slot} (hc : x.seq.isComplete = false) {s : Sequence}
    (hs : s ∈ a.live) (hid : s.id = x.seq.id) (hcost : x.seq.cost m ≤ s.cost m) :
    ∃ t ∈ (a.step L m).1.live, t.id = x.seq.id ∧ (x.decode m).seq.cost m ≤ t.cost m := by
  have hless := Slot.cost_decode m hc
  rcases step_cases hv hs with ⟨t, ht, hb, -⟩ | ⟨y, hy, hb, hyc⟩ | ⟨hsc, -, -⟩
  · obtain ⟨htid, -⟩ := Sequence.fields_of_bare hb
    have htcost := Sequence.cost_of_bare_eq hb m
    exact ⟨t, List.mem_append_left _ ht, htid.trans hid, by omega⟩
  · obtain ⟨hyid, -⟩ := Sequence.fields_of_bare hb
    have hycost := Sequence.cost_of_bare_eq hb m
    have hyless := Slot.cost_decode m hyc
    refine ⟨(y.decode m).seq, ?_, hyid.trans hid, by omega⟩
    exact List.mem_append_right _ (List.mem_map_of_mem (List.mem_map_of_mem hy))
  · -- a complete sequence only takes its retirement, and the other takes a token more
    have hone := Sequence.cost_of_complete hsc m
    have hpos : 1 ≤ (x.decode m).seq.cost m := Nat.le_add_left _ _
    omega

theorem step (h : a'.Outpaces m a) (hv : a.Valid L) (hv' : a'.Valid L')
    (hle : L.maxBatchSize ≤ L'.maxBatchSize) (hnone : a'.victims L' = [])
    (hfull : a'.left L' = [] ∨ (a'.placed L').length = L'.maxBatchSize) :
    (a'.step L' m).1.Outpaces m (a.step L m).1 where
  waiting := by
    change ((a'.victims L').map Slot.preempt).reverse ++ a'.left L' <:+
      ((a.victims L).map Slot.preempt).reverse ++ a.left L
    rw [hnone]
    exact (h.left hv hv' hle hfull).trans (List.suffix_append _ _)
  running := by
    intro y hy
    obtain ⟨x, hx, rfl⟩ := List.mem_map.mp hy
    have hc := incomplete_of_mem_scheduled hx
    obtain ⟨z, hz, rfl⟩ := List.mem_map.mp hx
    have hplaced := (a'.survivors_sublist L').subset (List.mem_of_mem_filter hz)
    obtain ⟨s, hs, hid, hcost⟩ := h.placed hplaced
    rw [← Slot.seq_grow z] at hid hcost
    exact decoded hv hc hs hid hcost

end Outpaces

theorem outpaces_exec (m : Model) (hle : L.maxBatchSize ≤ L'.maxBatchSize) (ops : List EngineOp)
    (hn : (submittedTo ops).Nodup)
    (hcap : worstCase L'.maxBatchSize L'.blockSize ops ≤ L'.numBlocks) :
    (Machine.exec (engineOp L' m) .empty ops).1.Outpaces m
      (Machine.exec (engineOp L m) .empty ops).1 := by
  refine Machine.exec_invariant (roomy_prefixClosed L') (P := fun ops (a' : Ledger) _ =>
    a'.Outpaces m (Machine.exec (engineOp L m) .empty ops).1) ?_ ?_ ops ⟨hn, hcap⟩
  · exact outpaces_empty m
  · intro ops o hop ih
    obtain ⟨hpast, hroom⟩ := roomy_prefixClosed L' ops o hop
    rw [Machine.exec_concat]
    cases o with
    | submit id prompt maxNewTokens => exact ih.submit _
    | step =>
      have hv := (serves_exec L m ops hpast).valid
      have hv' := (serves_exec L' m ops hpast).valid
      have hs' := synced_exec L' m ops
      have hwithin := withinRequests_exec L' m ops
      exact ih.step hv hv' hle (hwithin.victims_eq_nil hpast hv' hs' hroom)
        (hwithin.admission_full hpast hv' hs' hroom)

theorem Outpaces.tokens_prefix {ops : List EngineOp} {answers answers' : List StepAnswer}
    {id : SeqId} {prompt : List TokenId} {maxNewTokens : ℕ} (h : a'.Outpaces m a)
    (hx : Exact L m ops a answers) (hn : (submittedTo ops).Nodup)
    (hserved : Served m a answers id prompt maxNewTokens)
    (hserved' : Served m a' answers' id prompt maxNewTokens) :
    tokensOf id (emissionsOf answers) <+: tokensOf id (emissionsOf answers') := by
  cases hserved' with
  | retired hid' hall' =>
    rw [hall']
    cases hserved with
    | retired hid hall => rw [hall]
    | live s hs hid hout hsplit =>
      rw [← hout, hsplit]
      exact List.prefix_append _ _
  | live s' hs' hid' hout' hsplit' =>
    obtain ⟨s, hs, hid, hcost⟩ := h.live hs'
    rw [hid'] at hid
    cases hserved with
    | retired hfin hall =>
      exact absurd (List.mem_map.mpr ⟨s, hs, hid⟩) (hx.serves.notMem_live_of_finished hn hfin)
    | live t ht htid hout hsplit =>
      obtain rfl : t = s := eq_of_mem_live hx.serves.valid ht hs (htid.trans hid.symm)
      have hlen := congrArg List.length (hsplit.symm.trans hsplit')
      rw [List.length_append, List.length_append] at hlen
      simp only [Sequence.cost] at hcost
      rw [← hout, ← hout']
      exact List.prefix_of_prefix_length_le (hsplit ▸ List.prefix_append _ _)
        (hsplit' ▸ List.prefix_append _ _) (by omega)

end Ledger

/-- An engine with a cache for the worst case of its batch is never behind one with no larger
a batch, whatever cache that has: after the same calls every request has at least its tokens,
and is retired if it is there. -/
theorem roomy_engine_is_never_behind (m : Model) {maxBatchSize maxBatchSize' : ℕ}
    (hle : maxBatchSize ≤ maxBatchSize') (numBlocks blockSize numBlocks' blockSize' : ℕ)
    (hb : 0 < blockSize) (hb' : 0 < blockSize') (ops : List EngineOp)
    (hids : (submittedTo ops).Nodup) (hcap : worstCase maxBatchSize' blockSize' ops ≤ numBlocks') :
    ∃ e answers e' answers',
      Machine.run Engine.op (.new m ⟨maxBatchSize⟩ (.new numBlocks blockSize hb)) ops =
        some (e, answers) ∧
      Machine.run Engine.op (.new m ⟨maxBatchSize'⟩ (.new numBlocks' blockSize' hb')) ops =
        some (e', answers') ∧
      ∀ id, tokensOf id (emissionsOf answers) <+: tokensOf id (emissionsOf answers') ∧
        (id ∈ finishedIds (plansOf answers) → id ∈ finishedIds (plansOf answers')) := by
  let L : Limits := ⟨maxBatchSize, numBlocks, blockSize, hb⟩
  let L' : Limits := ⟨maxBatchSize', numBlocks', blockSize', hb'⟩
  obtain ⟨e, hr, -⟩ := Engine.run_refines L m ops hids
  obtain ⟨e', hr', -⟩ := Engine.run_refines L' m ops hids
  have hx := Ledger.exact_exec L m ops hids
  have hx' := Ledger.exact_exec L' m ops hids
  have h : (Machine.exec (Ledger.engineOp L' m) .empty ops).1.Outpaces m
      (Machine.exec (Ledger.engineOp L m) .empty ops).1 :=
    Ledger.outpaces_exec m hle ops hids hcap
  refine ⟨e, _, e', _, hr, hr', fun id => ⟨?_, ?_⟩⟩
  · by_cases hid : id ∈ submittedTo ops
    · obtain ⟨o, ho, hsub⟩ := List.mem_filterMap.mp hid
      cases o with
      | submit id' prompt maxNewTokens =>
        obtain rfl : id' = id := Option.some.inj hsub
        exact h.tokens_prefix hx hids (hx.served _ _ _ ho) (hx'.served _ _ _ ho)
      | step => cases hsub
    · have hnone : tokensOf id
          (emissionsOf (Machine.exec (Ledger.engineOp L m) .empty ops).2) = [] := by
        apply tokensOf_of_notMem
        intro hmem
        obtain ⟨t, ht, rfl⟩ := List.mem_map.mp hmem
        exact hid (hx.emitted t ht)
      rw [hnone]
      exact List.nil_prefix
  · intro hfin
    have hsub := hx.serves.places.mem_iff.mp (List.mem_append_right _ hfin)
    rcases List.mem_append.mp (hx'.serves.places.mem_iff.mpr hsub) with hlive | hfin'
    · obtain ⟨s', hs', rfl⟩ := List.mem_map.mp hlive
      obtain ⟨s, hs, hid, -⟩ := h.live hs'
      exact absurd (List.mem_map.mpr ⟨s, hs, hid⟩) (hx.serves.notMem_live_of_finished hids hfin)
    · exact hfin'

/-- A batch of three next to a batch of two whose cache holds one request at a time. -/
theorem roomy_engine_is_never_behind_under_pressure :
    let m : Model := ⟨2, 1, 0, fun _ => ⟨[0, 1]⟩⟩
    let ops : List EngineOp :=
      [.submit 4 [5, 6] 3, .submit 1 [7, 8] 3, .step, .submit 3 [9] 1, .step, .step, .step]
    ∃ e answers e' answers',
      Machine.run Engine.op (.new m ⟨2⟩ (.new 3 2 (by decide))) ops = some (e, answers) ∧
      Machine.run Engine.op (.new m ⟨3⟩ (.new 12 1 (by decide))) ops = some (e', answers') ∧
      ∀ id, tokensOf id (emissionsOf answers) <+: tokensOf id (emissionsOf answers') ∧
        (id ∈ finishedIds (plansOf answers) → id ∈ finishedIds (plansOf answers')) :=
  roomy_engine_is_never_behind _ (by decide) 3 2 12 1 (by decide) (by decide) _ (by decide)
    (by decide)

end ForgeInfer
