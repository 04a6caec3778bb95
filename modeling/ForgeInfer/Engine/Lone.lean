import ForgeInfer.Engine.Completion

/-! # A request served alone

An engine with one request decodes it token by token until it is complete, the cache is
full or the guard stops the loop. What it returns is therefore a front of greedy decoding
whose length is known before the run.
-/

namespace ForgeInfer

/-- Tokens that one sequence of `n` tokens can still take: none in a batch of no places. -/
def Limits.headroom (L : Limits) (n : ℕ) : ℕ :=
  if L.maxBatchSize = 0 then 0 else L.numBlocks * L.blockSize - n

theorem Limits.headroom_pos_iff {L : Limits} {n : ℕ} :
    0 < L.headroom n ↔ 1 ≤ L.maxBatchSize ∧ n < L.numBlocks * L.blockSize := by
  unfold headroom
  split <;> omega

namespace Ledger

variable {L : Limits} {m : Model} {a : Ledger} {s : Sequence}

/-- The sequence is all that is live, but for its lifecycle state, unless it has retired. -/
def Lone (s : Sequence) (a : Ledger) : Prop :=
  a.live.map Sequence.bare = [s.bare] ∨ a.live = [] ∧ s.isComplete = true

theorem Lone.bare_eq (h : Lone s a) {s' : Sequence} (hs : s' ∈ a.live) : s'.bare = s.bare := by
  rcases h with h | ⟨h, -⟩
  · exact List.mem_singleton.mp (h ▸ List.mem_map_of_mem hs)
  · rw [h] at hs; cases hs

/-- An iteration leaves a lone sequence in the queue, running by itself, or retired. -/
theorem Lone.scheduled (h : Lone s a) (L : Limits) :
    ((a.scheduled L).running = [] ∧ Lone s (a.scheduled L)) ∨
      ∃ x, (a.scheduled L).running = [x] ∧ (a.scheduled L).waiting = [] ∧ x.seq.bare = s.bare := by
  have hp := a.live_scheduled L
  rcases h with h | ⟨h, hc⟩
  · rw [h] at hp
    rcases List.append_eq_singleton_iff.mp (List.singleton_perm.mp hp).symm with
      ⟨hl, hr⟩ | ⟨hl, -⟩
    · left
      have hnil := List.map_eq_nil_iff.mp hl
      obtain ⟨x, hx, hb⟩ := List.map_eq_singleton_iff.mp hr
      have hcx := complete_of_mem_retired (L := L) (a := a) (hx ▸ List.mem_singleton_self x)
      refine ⟨List.map_eq_nil_iff.mp (List.append_eq_nil_iff.mp hnil).2, Or.inr ⟨hnil, ?_⟩⟩
      rw [← Sequence.isComplete_of_bare hb]
      exact hcx
    · rw [live, List.map_append] at hl
      rcases List.append_eq_singleton_iff.mp hl with ⟨hw, hr⟩ | ⟨hw, hr⟩
      · right
        rw [List.map_map] at hr
        obtain ⟨x, hx, hb⟩ := List.map_eq_singleton_iff.mp hr
        exact ⟨x, hx, List.map_eq_nil_iff.mp hw, hb⟩
      · left
        have hnil := List.map_eq_nil_iff.mp (List.map_eq_nil_iff.mp hr)
        refine ⟨hnil, Or.inl ?_⟩
        rw [live, List.map_append, hw, hr, List.append_nil]
  · left
    rw [h, List.map_nil] at hp
    have hnil := List.map_eq_nil_iff.mp (List.append_eq_nil_iff.mp (List.nil_perm.mp hp)).1
    exact ⟨List.map_eq_nil_iff.mp (List.append_eq_nil_iff.mp hnil).2, Or.inr ⟨hnil, hc⟩⟩

theorem Lone.running_ne_nil (h : Lone s a) (hv : a.Valid L) (hs : a.Synced)
    (hc : s.isComplete = false) (hroom : 0 < L.headroom s.totalLen) :
    (a.scheduled L).running ≠ [] := by
  obtain ⟨hb, hlt⟩ := Limits.headroom_pos_iff.mp hroom
  have hbare : ∀ s' ∈ a.live, s'.isComplete = false ∧ s'.HasRoom L := by
    rintro s' hs'
    have hle : L.blocks (s'.totalLen + 1) ≤ L.numBlocks := by
      rw [Sequence.totalLen_of_bare (h.bare_eq hs'), Limits.blocks,
        Blocks.ceilDiv_le_iff L.blockSize_pos]
      exact hlt
    exact ⟨(Sequence.isComplete_of_bare (h.bare_eq hs')).trans hc,
      (L.blocks_mono (Nat.le_succ _)).trans hle, fun _ => hle⟩
  have hl : a.live ≠ [] := by
    rintro hnil
    rcases h with h | ⟨-, h⟩
    · rw [hnil] at h
      cases h
    · rw [h] at hc
      cases hc
  obtain ⟨x, hx⟩ := List.exists_mem_of_ne_nil _
    (survivors_ne_nil hv hs hb hl fun s' hs' => (hbare s' hs').2)
  obtain ⟨s', hs', hxb⟩ := bare_of_mem_placed ((a.survivors_sublist L).subset hx)
  have hxc := (Sequence.isComplete_of_bare hxb).symm.trans (hbare s' hs').1
  have hbatch : x ∈ a.batch L := List.mem_filter.mpr ⟨hx, by rw [hxc]; rfl⟩
  exact List.ne_nil_of_mem (List.mem_map_of_mem hbatch)

theorem headroom_of_running (hv : a.Valid L) (hs : a.Synced) {x : Slot}
    (hx : x ∈ (a.scheduled L).running) :
    x.seq.isComplete = false ∧ 0 < L.headroom x.seq.totalLen := by
  obtain ⟨hc, hle⟩ := room_of_mem_scheduled hv hs hx
  have hb := (List.length_pos_of_mem hx).trans_le hv.length_scheduled_le
  exact ⟨hc, Limits.headroom_pos_iff.mpr ⟨hb, hle⟩⟩

def next (m : Model) (s : Sequence) : Sequence := ((Slot.place s).decode m).seq

theorem bare_decode {x : Slot} (h : x.seq.bare = s.bare) (m : Model) :
    (x.decode m).seq.bare = (next m s).bare := by
  change ((⟨x.seq.bare, 0⟩ : Slot).decode m).seq.bare = ((⟨s.bare, 0⟩ : Slot).decode m).seq.bare
  rw [h]

theorem Lone.step (h : Lone s a) (hv : a.Valid L) (hs : a.Synced) (m : Model) :
    if s.isComplete = false ∧ 0 < L.headroom s.totalLen then
      tokensOf s.id (a.step L m).2.2 = [m.next (s.prompt ++ s.output)] ∧
        Lone (next m s) (a.step L m).1
    else (a.step L m).2.2 = [] ∧ Lone s (a.step L m).1 := by
  rcases h.scheduled L with ⟨hrun, hl⟩ | ⟨x, hrun, hwait, hb⟩
  · rw [if_neg fun hc => h.running_ne_nil hv hs hc.1 hc.2 hrun]
    have hstep : (a.step L m).1 = a.scheduled L := by
      rw [Ledger.step, decoded, hrun, List.map_nil, ← hrun]
    refine ⟨?_, hstep ▸ hl⟩
    rw [Ledger.step, hrun]
    rfl
  · have hx : x ∈ (a.scheduled L).running := hrun ▸ List.mem_singleton_self x
    obtain ⟨hc, hroom⟩ := headroom_of_running hv hs hx
    rw [Sequence.isComplete_of_bare hb] at hc
    rw [Sequence.totalLen_of_bare hb] at hroom
    obtain ⟨hid, hp, ho, -⟩ := Sequence.fields_of_bare hb
    rw [if_pos ⟨hc, hroom⟩]
    constructor
    · rw [Ledger.step, hrun, ← hid, ← hp, ← ho]
      simp [tokensOf, Slot.emission, Slot.token]
    · left
      rw [Ledger.step, decoded, live, hrun, hwait]
      exact congrArg (fun y => [y]) (bare_decode hb m)

theorem owed_next (m : Model) (h : s.isComplete = false) :
    s.owed m = m.next (s.prompt ++ s.output) :: (next m s).owed m :=
  Slot.owed_decode (x := .place s) m h

theorem headroom_next (L : Limits) (m : Model) (s : Sequence) :
    L.headroom (next m s).totalLen = L.headroom s.totalLen - 1 := by
  have hlen : (next m s).totalLen = s.totalLen + 1 := by
    simp only [next, Slot.place, Slot.decode, Sequence.pushToken, Sequence.withState,
      Sequence.totalLen, List.length_append, List.length_singleton]
    omega
  rw [Limits.headroom, Limits.headroom, hlen]
  split <;> omega

theorem Lone.tokensOf_drive (h : Lone s a) (hv : a.Valid L) (hs : a.Synced) (m : Model) (n : ℕ) :
    tokensOf s.id ((Ledger.drive L m n a).2.flatMap Prod.snd) =
      (s.owed m).take (min n (L.headroom s.totalLen)) := by
  induction n generalizing a s with
  | zero => rw [Nat.zero_min, List.take_zero]; rfl
  | succ n ih =>
    have hstep := h.step hv hs m
    by_cases hl : a.live = []
    · rcases h with h | ⟨-, h⟩
      · rw [hl] at h
        cases h
      · rw [drive_of_nil hl, Sequence.owed_of_complete h, List.take_nil]
        rfl
    · rw [drive_succ hl, List.flatMap_cons, tokensOf_append]
      split at hstep
      · next hc =>
        obtain ⟨hemit, hnext⟩ := hstep
        have hrest := ih hnext (hv.step m) (hs.step L m)
        obtain ⟨k, hk⟩ := Nat.exists_eq_succ_of_ne_zero hc.2.ne'
        rw [headroom_next, hk, Nat.succ_sub_one] at hrest
        rw [hemit, owed_next m hc.1, hk, Nat.succ_min_succ, List.take_succ_cons, ← hrest]
        rfl
      · next hc =>
        obtain ⟨hemit, hnext⟩ := hstep
        rw [hemit, ih hnext (hv.step m) (hs.step L m)]
        -- nothing more is owed, or there is no room for it
        rcases Bool.eq_false_or_eq_true s.isComplete with hd | hd
        · rw [Sequence.owed_of_complete hd, List.take_nil, List.take_nil]
          rfl
        · have hz : L.headroom s.totalLen = 0 := by
            rw [not_and, not_lt, Nat.le_zero] at hc
            exact hc hd
          rw [hz, Nat.min_zero, Nat.min_zero]
          rfl

end Ledger

namespace Engine

variable {L : Limits} {m : Model}

/-- `run_one` over an engine of one request returns the front of greedy decoding that the
guard and the cache leave room for. -/
theorem runOne_loaded (L : Limits) (m : Model) (r : Request)
    (order : IterOrder (Σ _ : SeqId, List TokenId)) :
    (loaded L m [r]).runOne order = some ((m.greedy r.prompt r.maxNewTokens).take
      (min (maxIterations + 1) (L.headroom r.prompt.length))) := by
  have hids : ([r].map (·.id)).Nodup := List.nodup_singleton _
  have hv := Ledger.valid_loaded L hids
  have hlone : Ledger.Lone r.sequence (Ledger.loaded [r]) := Or.inl rfl
  have htok := hlone.tokensOf_drive hv (Ledger.synced_loaded [r]) m (maxIterations + 1)
  have howed : r.sequence.owed m = m.greedy r.prompt r.maxNewTokens := by
    simp [Sequence.owed, Request.sequence, Sequence.new]
  have hlen : r.sequence.totalLen = r.prompt.length := rfl
  rw [howed, hlen] at htok
  change tokensOf r.id (Ledger.emittedBy L m (maxIterations + 1) [r]) = _ at htok
  rw [runOne, runToCompletion_refines hv (loaded_refines L m [r]), Option.map_some, ← htok]
  congr 1
  change ((results order (record ∅ (Ledger.emittedBy L m (maxIterations + 1) [r]))).head?.map
    (·.tokens)).getD [] = _
  cases hr : results order (record ∅ (Ledger.emittedBy L m (maxIterations + 1) [r])) with
  | nil =>
    by_contra hne
    have hmem := (mem_results_record order).mpr ⟨Ne.symm hne, rfl⟩
    rw [hr] at hmem
    cases hmem
  | cons o os =>
    obtain ⟨hne, hid⟩ := (mem_results_record order).mp (hr ▸ List.mem_cons_self)
    by_cases ho : o.id = r.id
    · exact hid.symm.trans (by rw [ho])
    · refine absurd ?_ hne
      rw [← hid, Ledger.tokensOf_unknown hids (by simpa using ho)]

end Engine

end ForgeInfer
