import ForgeInfer.Engine.Completion

/-! # Starvation behind the head of the queue

Admission stops at the first sequence that does not fit. When nothing runs and the head of
the queue cannot decode even on its own, every iteration gives it the cache back and takes
it away again, and nothing behind it moves. Every iteration without a survivor ends there,
so a drive either drains its workload or starves.
-/

namespace ForgeInfer

namespace Limits

/-- The head of the queue cannot decode on its own. If it can still be placed, the empty
sequences that fit beside it are no more progressed, so they are evicted before it. -/
inductive Blocked (L : Limits) : List Sequence → Prop where
  | unplaceable (s : Sequence) (rest : List Sequence)
      (hbig : L.numBlocks < L.blocks s.totalLen) : Blocked L (s :: rest)
  | outgrown (s : Sequence) (rest : List Sequence) (hc : s.isComplete = false)
      (hbig : L.numBlocks < L.blocks (s.totalLen + 1))
      (hle : ∀ y ∈ (rest.takeWhile fun y => y.totalLen = 0).take (L.maxBatchSize - 1),
        Scheduler.progressKey y ≤ Scheduler.progressKey s) : Blocked L (s :: rest)

variable {L : Limits} {run : List Slot}

theorem blocks_zero (L : Limits) : L.blocks 0 = 0 :=
  (Blocks.ceilDiv_eq_zero_iff L.blockSize_pos).mpr rfl

theorem blocks_pos {n : ℕ} (h : n ≠ 0) : 0 < L.blocks n :=
  Nat.pos_of_ne_zero fun hz => h ((Blocks.ceilDiv_eq_zero_iff L.blockSize_pos).mp hz)

theorem taken_of_full (hu : L.used run = L.numBlocks) (waiting : List Sequence) :
    L.taken run waiting =
      (waiting.takeWhile fun y => y.totalLen = 0).take (L.maxBatchSize - run.length) := by
  induction waiting generalizing run with
  | nil => rw [List.takeWhile_nil, List.take_nil, taken]
  | cons s rest ih =>
    by_cases hz : s.totalLen = 0
    · rw [taken, List.takeWhile_cons_of_pos (by simpa using hz), hz, blocks_zero, hu]
      by_cases hb : run.length < L.maxBatchSize
      · have hu' : L.used (run ++ [.place s]) = L.numBlocks := by
          simp [hu, hz, blocks_zero]
        obtain ⟨k, hk⟩ := Nat.exists_eq_succ_of_ne_zero (Nat.sub_ne_zero_of_lt hb)
        have hk' : L.maxBatchSize - (run ++ [Slot.place s]).length = k := by
          rw [List.length_append, List.length_singleton]; omega
        rw [if_pos ⟨hb, le_rfl⟩, ih hu', hk', hk, List.take_succ_cons]
      · rw [if_neg fun h => hb h.1, Nat.sub_eq_zero_of_le (not_lt.mp hb), List.take_zero]
    · have hpos := blocks_pos (L := L) hz
      rw [taken, List.takeWhile_cons_of_neg (by simpa using hz), List.take_nil, hu]
      exact if_neg fun h => absurd h.2 (by omega)

/-- What a queue of evicted sequences and the rest of the queue let admission see: only
evicted sequences, if those fill the batch or the rest starts with a sequence of tokens. -/
theorem mem_of_mem_admissible {evicted rest : List Sequence} {n : ℕ}
    (h : n ≤ evicted.length ∨ ∀ s ∈ rest.head?, s.totalLen ≠ 0) {y : Sequence}
    (hy : y ∈ ((evicted ++ rest).takeWhile fun y => y.totalLen = 0).take n) : y ∈ evicted := by
  rcases h with hlen | hhead
  · have hpre : ((evicted ++ rest).takeWhile fun y => y.totalLen = 0) <+: evicted ++ rest :=
      ⟨_, List.takeWhile_append_dropWhile⟩
    have hmem := (hpre.take n).subset hy
    rw [List.take_append_of_le_length hlen] at hmem
    exact List.mem_of_mem_take hmem
  · have hy' := List.mem_of_mem_take hy
    have hstop : (rest.takeWhile fun y => y.totalLen = 0) = [] := by
      cases rest with
      | nil => rfl
      | cons s rest => exact List.takeWhile_cons_of_neg (by simpa using hhead)
    rw [List.takeWhile_append, hstop, List.append_nil] at hy'
    split at hy'
    · exact hy'
    · exact (List.takeWhile_sublist _).subset hy'

theorem Blocked.not_hasRoom {s : Sequence} {rest : List Sequence} (h : L.Blocked (s :: rest)) :
    ¬s.HasRoom L := by
  rintro ⟨hlen, hnext⟩
  cases h with
  | unplaceable _ _ hbig => exact absurd hlen (not_le.mpr hbig)
  | outgrown _ _ hc hbig => exact absurd (hnext hc) (not_le.mpr hbig)

theorem taken_of_unplaceable {x : Sequence} (hbig : L.numBlocks < L.blocks x.totalLen)
    (run : List Slot) (front after : List Sequence) :
    L.taken run (front ++ x :: after) <+: front := by
  induction front generalizing run with
  | nil =>
    rw [List.nil_append, taken, if_neg]
    rintro ⟨-, hle⟩
    omega
  | cons s front ih =>
    rw [List.cons_append, taken]
    split
    · exact List.cons_prefix_cons.mpr ⟨rfl, ih _⟩
    · exact List.nil_prefix

end Limits

namespace Ledger

variable {L : Limits} {m : Model} {a : Ledger}

/-- Nothing runs, and nothing in the queue can. -/
def Starved (L : Limits) (a : Ledger) : Prop := a.running = [] ∧ L.Blocked a.waiting

theorem Starved.live_ne_nil (h : a.Starved L) : a.live ≠ [] := by
  obtain ⟨-, hb⟩ := h
  intro hl
  have hw := (List.append_eq_nil_iff.mp hl).1
  rw [hw] at hb
  cases hb

theorem starved_of_no_survivors (hv : a.Valid L) (hs : a.Synced) (hb : 1 ≤ L.maxBatchSize)
    (hl : a.live ≠ []) (hnil : a.survivors L = []) (m : Model) : (a.step L m).1.Starved L := by
  have hrun : (a.step L m).1.running = [] := by
    simp [step, decoded, scheduled, batch, hnil]
  refine ⟨hrun, ?_⟩
  change L.Blocked (((a.victims L).map Slot.preempt).reverse ++ a.left L)
  have hvic := (a.placed_perm L).length_eq
  rw [hnil, List.append_nil] at hvic
  rcases no_survivors hv hs hb hl hnil with
    ⟨hr, ht, s, rest, hw, hbig⟩ | ⟨early, v, he, -, hc, hbig, hle⟩
  · have hp : a.placed L = [] := by rw [placed, hr, ht]; rfl
    have hv0 : a.victims L = [] := List.length_eq_zero_iff.mp (by rw [← hvic, hp]; rfl)
    rw [hv0, left, ht, hw]
    exact .unplaceable s rest hbig
  · rw [he, List.map_append, List.map_singleton, List.reverse_append, List.reverse_singleton,
      List.singleton_append, List.cons_append]
    refine .outgrown _ _ hc hbig fun y hy => ?_
    have hsee : L.maxBatchSize - 1 ≤ (early.map Slot.preempt).reverse.length ∨
        ∀ s ∈ (a.left L).head?, s.totalLen ≠ 0 := by
      by_cases hfull : (a.placed L).length < L.maxBatchSize
      · right
        intro s hs' hz
        obtain ⟨rest, hleft⟩ := List.head?_eq_some_iff.mp hs'
        have hstop := Limits.taken_stop hleft hfull
        rw [hz, Limits.blocks_zero] at hstop
        exact absurd hv.used_placed_le (not_le.mpr hstop)
      · left
        rw [he, List.length_append, List.length_singleton] at hvic
        rw [List.length_reverse, List.length_map]
        omega
    have hmem := Limits.mem_of_mem_admissible hsee hy
    rw [List.mem_reverse, List.mem_map] at hmem
    obtain ⟨x, hx, rfl⟩ := hmem
    exact hle x hx

theorem survivors_of_nil (hrun : a.running = []) (ht : a.taken L = []) : a.survivors L = [] := by
  rw [survivors, placed, hrun, ht]
  rfl

theorem Starved.no_survivors (h : a.Starved L) (hv : a.Valid L) (hb : 1 ≤ L.maxBatchSize) :
    a.survivors L = [] := by
  obtain ⟨hrun, hblk⟩ := h
  have hnone : ∀ s rest, a.waiting = s :: rest → L.numBlocks < L.blocks s.totalLen →
      a.survivors L = [] := by
    intro s rest hw hbig
    apply survivors_of_nil hrun
    rw [taken, hw, Limits.taken, hrun, Limits.used_nil, Nat.zero_add]
    exact if_neg fun hc => absurd hc.2 (not_le.mpr hbig)
  generalize hw : a.waiting = queue at hblk
  cases hblk with
  | unplaceable s rest hbig => exact hnone s rest hw hbig
  | outgrown s rest hc hbig hle =>
    by_cases hfit : L.blocks s.totalLen ≤ L.numBlocks
    · have hfull : L.used [Slot.place s] = L.numBlocks := by
        have hsucc := Blocks.ceilDiv_succ_le L.blockSize_pos s.totalLen
        simp only [Limits.blocks] at hbig hfit hsucc
        simp only [Limits.used_cons, Limits.used_nil, Slot.held_place, Limits.blocks]
        omega
      have ht : a.taken L =
          s :: (rest.takeWhile fun y => y.totalLen = 0).take (L.maxBatchSize - 1) := by
        rw [taken, hw, hrun, Limits.taken, if_pos ⟨hb, by simpa using hfit⟩, List.nil_append,
          Limits.taken_of_full hfull]
        rfl
      have hp : a.placed L = Slot.place s ::
          ((rest.takeWhile fun y => y.totalLen = 0).take (L.maxBatchSize - 1)).map .place := by
        rw [placed, hrun, ht]
        rfl
      have hgrow : L.demand [Slot.place s] = L.blocks (s.totalLen + 1) := by
        rw [Limits.demand, List.map_singleton, Limits.used_cons, Limits.used_nil,
          Slot.held_grow_of_incomplete hc]
        rfl
      refine Limits.evict_all hv.placed_nodup le_rfl (x := Slot.place s) ?_ (hgrow ▸ hbig) ?_
      · rw [hp]
        exact List.mem_cons_self
      · rw [hp]
        rintro y hy
        rcases List.mem_cons.mp hy with rfl | hy
        · exact le_rfl
        · obtain ⟨z, hz, rfl⟩ := List.mem_map.mp hy
          exact hle z hz
    · exact hnone s rest hw (not_le.mp hfit)

theorem emitted_of_no_survivors (hnil : a.survivors L = []) (m : Model) :
    (a.step L m).2.2 = [] := by
  simp [step, scheduled, batch, hnil]

theorem live_of_no_survivors (hnil : a.survivors L = []) (m : Model) :
    ∀ s ∈ a.live, ∃ s' ∈ (a.step L m).1.live, s'.bare = s.bare := by
  have hrun : (a.scheduled L).running = [] := by simp [scheduled, batch, hnil]
  have hret : a.retired L = [] := by simp [retired, hnil]
  intro s hs
  have hmem := (a.live_scheduled L).mem_iff.mp (List.mem_map_of_mem hs)
  rw [hret, List.map_nil, List.append_nil] at hmem
  obtain ⟨s', hs', hb⟩ := List.mem_map.mp hmem
  refine ⟨s', ?_, hb⟩
  rw [live, hrun, List.map_nil, List.append_nil] at hs'
  exact List.mem_append_left _ hs'

/-- A starved ledger stays starved, and no drive changes a live sequence of it. -/
theorem Starved.drive (h : a.Starved L) (hv : a.Valid L) (hs : a.Synced)
    (hb : 1 ≤ L.maxBatchSize) (m : Model) (n : ℕ) :
    (Ledger.drive L m n a).1.Starved L ∧
      ∀ s ∈ a.live, ∃ s' ∈ (Ledger.drive L m n a).1.live, s'.bare = s.bare := by
  induction n generalizing a with
  | zero => exact ⟨h, fun s hs' => ⟨s, hs', rfl⟩⟩
  | succ n ih =>
    have hl := h.live_ne_nil
    have hnil := h.no_survivors hv hb
    have hnext := starved_of_no_survivors hv hs hb hl hnil m
    obtain ⟨hend, hlive⟩ := ih hnext (hv.step m) (hs.step L m)
    rw [drive_succ hl]
    refine ⟨hend, fun s hs' => ?_⟩
    obtain ⟨s₁, hs₁, hb₁⟩ := live_of_no_survivors hnil m s hs'
    obtain ⟨s₂, hs₂, hb₂⟩ := hlive s₁ hs₁
    exact ⟨s₂, hs₂, hb₂.trans hb₁⟩

theorem Starved.emitted (h : a.Starved L) (hv : a.Valid L) (hs : a.Synced)
    (hb : 1 ≤ L.maxBatchSize) (m : Model) (n : ℕ) :
    (Ledger.drive L m n a).2.flatMap Prod.snd = [] := by
  induction n generalizing a with
  | zero => rfl
  | succ n ih =>
    have hl := h.live_ne_nil
    have hnil := h.no_survivors hv hb
    have hnext := starved_of_no_survivors hv hs hb hl hnil m
    rw [drive_succ hl, List.flatMap_cons, emitted_of_no_survivors hnil m,
      ih hnext (hv.step m) (hs.step L m)]
    rfl

/-- A drive through all remaining steps drains its workload or starves. -/
theorem drive_settles (hb : 1 ≤ L.maxBatchSize) (m : Model) {n : ℕ} (hv : a.Valid L)
    (hs : a.Synced) (hn : a.remaining L ≤ n) :
    (Ledger.drive L m n a).1.live = [] ∨ (Ledger.drive L m n a).1.Starved L := by
  induction n generalizing a with
  | zero => exact Or.inl (live_of_no_remaining (Nat.le_zero.mp hn))
  | succ n ih =>
    by_cases hl : a.live = []
    · rw [drive_of_nil hl]; exact Or.inl hl
    · rw [drive_succ hl]
      by_cases hnil : a.survivors L = []
      · have hnext := starved_of_no_survivors hv hs hb hl hnil m
        exact Or.inr (hnext.drive (hv.step m) (hs.step L m) hb m _).1
      · have hstep := remaining_step_le hv hs m
        have hpos := List.length_pos_of_ne_nil hnil
        exact ih (hv.step m) (hs.step L m) (by omega)

def OthersComplete (id : SeqId) (live : List Sequence) : Prop :=
  ∀ s ∈ live, s.id ≠ id → s.isComplete = true

theorem others_drive {id : SeqId} {P : Sequence → Prop}
    (hbare : ∀ {s s' : Sequence}, s.bare = s'.bare → P s → P s')
    (hdecode : ∀ {x : Slot}, x.seq.isComplete = false → P x.seq → P (x.decode m).seq)
    (h : ∀ s ∈ a.live, s.id ≠ id → P s) (n : ℕ) :
    ∀ s ∈ (Ledger.drive L m n a).1.live, s.id ≠ id → P s := by
  refine drive_preserves (P := fun a => ∀ s ∈ a.live, s.id ≠ id → P s) (fun a h => ?_) n h
  refine live_step_preserves ?_ (fun hc hx hne => hdecode hc (hx hne)) h
  intro s s' hb hs hne
  exact hbare hb (hs ((Sequence.fields_of_bare hb).1 ▸ hne))

theorem OthersComplete.drive {id : SeqId} (h : OthersComplete id a.live) (L : Limits) (m : Model)
    (n : ℕ) : OthersComplete id (Ledger.drive L m n a).1.live := by
  refine others_drive ?_ ?_ h n
  · exact fun hb hs => (Sequence.isComplete_of_bare hb).symm.trans hs
  · exact fun hc hx => absurd hx (by simp [hc])

theorem owed_eq_nil_iff (m : Model) (s : Sequence) : s.owed m = [] ↔ s.isComplete = true := by
  constructor
  · intro h
    rw [Sequence.isComplete, decide_eq_true_eq]
    by_contra hlt
    exact Greedy.decode_ne_nil _ (by omega : 0 < s.maxNewTokens - s.output.length) h
  · exact fun h => Sequence.owed_of_complete h m

theorem tokensOf_iff_complete {reqs : List Request} (hids : (reqs.map (·.id)).Nodup) (id : SeqId)
    (L : Limits) (m : Model) (n : ℕ) :
    (∀ r ∈ reqs, r.id ≠ id →
        tokensOf r.id (emittedBy L m n reqs) = m.greedy r.prompt r.maxNewTokens) ↔
      OthersComplete id (Ledger.drive L m n (loaded reqs)).1.live := by
  have hserves := (exact_drive hids L m n).serves
  constructor
  · intro h s hs hne
    have hmem : s.id ∈ reqs.map (·.id) := by
      have := hserves.places.mem_iff.mp (List.mem_append_left _ (List.mem_map_of_mem hs))
      rwa [submittedTo_driveOps] at this
    obtain ⟨r, hr, hid⟩ := List.mem_map.mp hmem
    have htok := h r hr (hid ▸ hne)
    cases served_drive hids hr L m n with
    | live s' hs' hid' hout hsplit =>
      obtain rfl := eq_of_mem_live hserves.valid hs hs' (hid.symm.trans hid'.symm)
      rw [emissionsOf_drive, htok, hsplit, List.self_eq_append_right] at hout
      exact (owed_eq_nil_iff m s).mp hout
    | retired hfin hall =>
      have hgone := hserves.notMem_live_of_finished (by rwa [submittedTo_driveOps]) hfin
      exact absurd (List.mem_map.mpr ⟨s, hs, hid.symm⟩) hgone
  · intro h r hr hne
    cases served_drive hids hr L m n with
    | live s hs hid hout hsplit =>
      have hc := h s hs (hid ▸ hne)
      rw [emissionsOf_drive, ← hid] at hout
      rw [← hid, ← hout, hsplit, (owed_eq_nil_iff m s).mpr hc, List.append_nil]
    | retired hfin hall => rwa [emissionsOf_drive] at hall

theorem complete_of_starved (hb : 1 ≤ L.maxBatchSize) (hv : a.Valid L) (hs : a.Synced)
    {id : SeqId} {k n : ℕ} (hk : k ≤ n) (hend : OthersComplete id (Ledger.drive L m n a).1.live)
    (hstarved : (Ledger.drive L m k a).1.Starved L) :
    OthersComplete id (Ledger.drive L m k a).1.live := by
  obtain ⟨d, rfl⟩ := Nat.exists_eq_add_of_le hk
  rw [drive_add] at hend
  have hvk := hv.drive m k
  have hsk : (Ledger.drive L m k a).1.Synced := drive_preserves (fun _ h => h.step L m) k hs
  intro s hmem hne
  obtain ⟨s', hs', hbare⟩ := (hstarved.drive hvk hsk hb m d).2 s hmem
  rw [← Sequence.isComplete_of_bare hbare]
  exact hend s' hs' ((Sequence.fields_of_bare hbare).1 ▸ hne)

theorem complete_of_settled (hb : 1 ≤ L.maxBatchSize) (hv : a.Valid L) (hs : a.Synced)
    {id : SeqId} {n N : ℕ} (hn : a.remaining L ≤ n) (hN : n ≤ N)
    (h : (Ledger.drive L m n a).1.Starved L → OthersComplete id (Ledger.drive L m n a).1.live) :
    OthersComplete id (Ledger.drive L m N a).1.live := by
  obtain ⟨d, rfl⟩ := Nat.exists_eq_add_of_le hN
  rw [drive_add]
  apply OthersComplete.drive
  rcases drive_settles hb m hv hs hn with hnil | hstarved
  · rw [hnil]
    rintro s ⟨⟩
  · exact h hstarved

theorem remaining_loaded_insert_le (L : Limits) (before after : List Request) (x : Request) :
    (loaded (before ++ x :: after)).remaining L ≤ totalWork (before ++ after) +
      (min x.maxNewTokens (L.numBlocks * L.blockSize - x.prompt.length) + 1) := by
  have hbefore := remaining_loaded_le L before
  have hafter := remaining_loaded_le L after
  simp only [remaining, live_loaded, totalWork, List.map_append, List.map_cons, List.sum_append,
    List.sum_cons] at hbefore hafter ⊢
  have hx : x.sequence.remaining L =
      min x.maxNewTokens (L.numBlocks * L.blockSize - x.prompt.length) + 1 := rfl
  omega

section Unplaceable

variable {x : Sequence}

theorem waiting_step_of_unplaceable (hbig : L.numBlocks < L.blocks x.totalLen)
    {front after : List Sequence} (hw : a.waiting = front ++ x :: after) (m : Model) :
    ∃ front', (a.step L m).1.waiting = front' ++ x :: after := by
  obtain ⟨rest, hrest⟩ := Limits.taken_of_unplaceable hbig a.running front after
  have hsplit : a.taken L ++ a.left L = a.taken L ++ (rest ++ x :: after) := by
    rw [taken_append_left, hw, ← List.append_assoc, taken, hw, hrest]
  refine ⟨((a.victims L).map Slot.preempt).reverse ++ rest, ?_⟩
  rw [List.append_assoc, ← List.append_cancel_left hsplit]
  rfl

theorem waiting_drive_of_unplaceable (hbig : L.numBlocks < L.blocks x.totalLen)
    {front after : List Sequence} (hw : a.waiting = front ++ x :: after) (m : Model) (n : ℕ) :
    ∃ front', (Ledger.drive L m n a).1.waiting = front' ++ x :: after := by
  refine drive_preserves (P := fun a => ∃ front, a.waiting = front ++ x :: after) ?_ n ⟨front, hw⟩
  rintro a ⟨front, hw⟩
  exact waiting_step_of_unplaceable hbig hw m

theorem Starved.live_of_unplaceable (h : a.Starved L) (hv : a.Valid L)
    (hfit : ∀ s ∈ a.live, s.id ≠ x.id → s.Fits L) {front after : List Sequence}
    (hw : a.waiting = front ++ x :: after) : a.live = x :: after := by
  obtain ⟨hrun, hblk⟩ := h
  have hlive : a.live = front ++ x :: after := by rw [live, hrun, hw]; exact List.append_nil _
  cases front with
  | nil => exact hlive
  | cons s front =>
    have hn := hv.nodup
    rw [hlive, List.cons_append, List.map_cons, List.map_append, List.map_cons,
      List.nodup_cons] at hn
    have hne : s.id ≠ x.id := fun he => hn.1 (he ▸ List.mem_append_right _ List.mem_cons_self)
    rw [hw] at hblk
    exact absurd (hfit s (hlive ▸ List.mem_cons_self) hne).hasRoom hblk.not_hasRoom

end Unplaceable

theorem isComplete_sequence_iff (r : Request) :
    r.sequence.isComplete = true ↔ r.maxNewTokens = 0 := by
  simp [Request.sequence, Sequence.new, Sequence.isComplete]

theorem mem_others_iff {before after : List Request} {x : Request}
    (hids : ((before ++ x :: after).map (·.id)).Nodup) (r : Request) :
    r ∈ before ++ after ↔ r ∈ before ++ x :: after ∧ r.id ≠ x.id := by
  have hp : (before ++ x :: after).Perm (x :: (before ++ after)) := List.perm_middle
  have hx : x.id ∉ (before ++ after).map (·.id) :=
    (List.nodup_cons.mp ((hp.map (·.id)).nodup_iff.mp hids)).1
  rw [hp.mem_iff, List.mem_cons]
  constructor
  · intro hr
    exact ⟨Or.inr hr, fun hid => hx (hid ▸ List.mem_map_of_mem hr)⟩
  · rintro ⟨rfl | hr, hid⟩
    · exact absurd rfl hid
    · exact hr

theorem others_fit_drive {before after : List Request} {x : Request}
    (hids : ((before ++ x :: after).map (·.id)).Nodup)
    (hfit : ∀ r ∈ before ++ after, r.Fits L.numBlocks L.blockSize) (m : Model) (n : ℕ) :
    ∀ s ∈ (Ledger.drive L m n (loaded (before ++ x :: after))).1.live, s.id ≠ x.id → s.Fits L := by
  refine others_drive Sequence.fits_of_bare (fun hc hs => fits_decode m hs hc) ?_ n
  intro s hmem hne
  rw [live_loaded] at hmem
  obtain ⟨r, hr, rfl⟩ := List.mem_map.mp hmem
  exact ⟨Nat.zero_le _, hfit r ((mem_others_iff hids r).mpr ⟨hr, hne⟩)⟩

/-- With a prompt that the cache cannot hold among requests that fit, the others are
complete in the end exactly when those behind it asked for nothing. -/
theorem complete_iff_of_unplaceable (hb : 1 ≤ L.maxBatchSize) (m : Model)
    {before after : List Request} {x : Request} (hids : ((before ++ x :: after).map (·.id)).Nodup)
    (hfit : ∀ r ∈ before ++ after, r.Fits L.numBlocks L.blockSize)
    (hlong : L.numBlocks * L.blockSize < x.prompt.length) {n : ℕ}
    (hn : totalWork (before ++ after) + 1 ≤ n) :
    OthersComplete x.id (Ledger.drive L m n (loaded (before ++ x :: after))).1.live ↔
      ∀ r ∈ after, r.maxNewTokens = 0 := by
  have hv := valid_loaded L hids
  have hbig : L.numBlocks < L.blocks x.prompt.length :=
    lt_of_not_ge fun h => hlong.not_ge ((Blocks.ceilDiv_le_iff L.blockSize_pos).mp h)
  obtain ⟨front, hw⟩ := waiting_drive_of_unplaceable (a := loaded (before ++ x :: after))
    (x := x.sequence) hbig (by rw [loaded, List.map_append, List.map_cons]) m n
  constructor
  · intro h r hr
    have hmem : r.sequence ∈ (Ledger.drive L m n (loaded (before ++ x :: after))).1.live := by
      apply List.mem_append_left
      rw [hw]
      exact List.mem_append_right _ (List.mem_cons_of_mem _ (List.mem_map_of_mem hr))
    have hne := ((mem_others_iff hids r).mp (List.mem_append_right _ hr)).2
    exact (isComplete_sequence_iff r).mp (h _ hmem hne)
  · intro hzero
    -- `x` itself takes no step but the one counted for its retirement
    have hx : L.numBlocks * L.blockSize - x.prompt.length = 0 := Nat.sub_eq_zero_of_le hlong.le
    have hrem := remaining_loaded_insert_le L before after x
    rw [hx, Nat.min_zero] at hrem
    refine complete_of_settled hb hv (synced_loaded _) (hrem.trans hn) le_rfl fun hstarved => ?_
    rw [hstarved.live_of_unplaceable (hv.drive m n) (others_fit_drive hids hfit m n) hw]
    intro s hmem hne
    rcases List.mem_cons.mp hmem with rfl | hmem
    · exact absurd rfl hne
    · obtain ⟨r, hr, rfl⟩ := List.mem_map.mp hmem
      exact (isComplete_sequence_iff r).mpr (hzero r hr)

end Ledger

def SameOutputs (reqs : List Request) (result result' : List GenerationOutput) : Prop :=
  ∀ r ∈ reqs, ∀ tokens, ⟨r.id, tokens⟩ ∈ result' ↔ ⟨r.id, tokens⟩ ∈ result

theorem sameOutputs_iff {L : Limits} {m : Model} {reqs : List Request} {n : ℕ}
    (hids : (reqs.map (·.id)).Nodup)
    (hl : (Ledger.drive L m n (.loaded reqs)).1.live = []) (emitted : List Emission)
    (order order' : IterOrder (Σ _ : SeqId, List TokenId)) :
    SameOutputs reqs (Engine.results order (Engine.record ∅ (Ledger.emittedBy L m n reqs)))
        (Engine.results order' (Engine.record ∅ emitted)) ↔
      ∀ r ∈ reqs, tokensOf r.id emitted = m.greedy r.prompt r.maxNewTokens := by
  have hmem : ∀ r ∈ reqs, ∀ tokens,
      ((⟨r.id, tokens⟩ ∈ Engine.results order' (Engine.record ∅ emitted) ↔
        ⟨r.id, tokens⟩ ∈ Engine.results order
          (Engine.record ∅ (Ledger.emittedBy L m n reqs))) ↔
      (tokens ≠ [] → (tokensOf r.id emitted = tokens ↔
        m.greedy r.prompt r.maxNewTokens = tokens))) := by
    intro r hr tokens
    rw [Engine.mem_results_record, Engine.mem_results_record,
      Ledger.tokensOf_drained hids hr hl, and_congr_right_iff]
  constructor
  · intro h r hr
    have hsame := fun tokens => (hmem r hr tokens).mp (h r hr tokens)
    by_cases hnil : tokensOf r.id emitted = []
    · by_contra hne
      have hg : m.greedy r.prompt r.maxNewTokens ≠ [] := fun hg => hne (hnil.trans hg.symm)
      exact hne ((hsame _ hg).mpr rfl)
    · exact ((hsame _ hnil).mp rfl).symm
  · intro h r hr tokens
    rw [hmem r hr tokens, h r hr]
    exact fun _ => Iff.rfl

theorem Engine.forall_drive_iff {L : Limits} {m : Model} {a : Ledger} {e₀ : Engine}
    (hv : a.Valid L) (h : e₀.Refines L m a) (k : ℕ) {P : Engine → Prop} {Q : Prop}
    (hPQ : ∀ e : Engine, e.Refines L m (Ledger.drive L m k a).1 → (P e ↔ Q)) :
    (∀ e steps, e₀.drive k = some (e, steps) → P e) ↔ Q := by
  obtain ⟨e, hd, he⟩ := Engine.drive_refines hv h k
  constructor
  · exact fun hall => (hPQ e he).mp (hall e _ hd)
  · intro hQ e' steps hd'
    rw [hd, Option.some.injEq, Prod.mk.injEq] at hd'
    obtain ⟨rfl, -⟩ := hd'
    exact (hPQ e he).mpr hQ

namespace Scheduler

def limits (s : Scheduler) : Limits where
  maxBatchSize := s.config.maxBatchSize
  numBlocks := s.cache.numBlocks
  blockSize := s.cache.blockSize
  blockSize_pos := s.cache.blockSize_pos

def Starved (s : Scheduler) : Prop := s.running = [] ∧ s.limits.Blocked s.waiting

theorem Refines.limits_eq {s : Scheduler} {L : Limits} {a : Ledger} (h : s.Refines L a) :
    s.limits = L := by
  obtain ⟨b, N, bs, hbs⟩ := L
  simp only [limits, Limits.mk.injEq]
  exact ⟨h.maxBatchSize_eq, h.cache.numBlocks_eq, h.cache.blockSize_eq⟩

theorem Refines.starved_iff {s : Scheduler} {L : Limits} {a : Ledger} (h : s.Refines L a) :
    s.Starved ↔ a.Starved L := by
  rw [Starved, Ledger.Starved, h.limits_eq, h.waiting_eq, h.running_eq, List.map_eq_nil_iff]

end Scheduler

/-- No step of `run_to_completion` starts starved while another request lacks tokens. -/
def Engine.SparesOthers (e₁ : Engine) (id : SeqId) : Prop :=
  ∀ k ≤ Engine.maxIterations, ∀ e steps, e₁.drive k = some (e, steps) →
    e.scheduler.Starved → Ledger.OthersComplete id e.scheduler.live

theorem Engine.sparesOthers_iff {L : Limits} {m : Model} {a : Ledger} {e₁ : Engine}
    (hv : a.Valid L) (h : e₁.Refines L m a) (id : SeqId) :
    e₁.SparesOthers id ↔ ∀ k ≤ maxIterations, (Ledger.drive L m k a).1.Starved L →
      Ledger.OthersComplete id (Ledger.drive L m k a).1.live := by
  refine forall₂_congr fun k _ => Engine.forall_drive_iff hv h k fun e he => ?_
  rw [he.scheduler.starved_iff, he.scheduler.live_eq]

end ForgeInfer
