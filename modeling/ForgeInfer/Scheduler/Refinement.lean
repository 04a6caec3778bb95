import ForgeInfer.Cache.Counter
import ForgeInfer.Scheduler.Ledger
import Mathlib.Data.List.InsertIdx

/-! # The scheduler refines the ledger

The cache holds the tokens of the running slots and nothing else. Under that relation each
loop of an iteration does to the scheduler what the ledger does in one stroke, and none of
the cache's panics is reached.
-/

namespace ForgeInfer

namespace PagedKVCache

/-- The cache holds the tokens of the running slots and nothing else. -/
structure Holds (c : PagedKVCache) (L : Limits) (run : List Slot) (peak : ℕ) : Prop where
  valid : c.Valid
  blockSize_eq : c.blockSize = L.blockSize
  numBlocks_eq : c.numBlocks = L.numBlocks
  counts : c.counter.counts.entries.Perm (run.map fun x => ⟨x.seq.id, x.held⟩)
  peak_eq : c.peakBlocks = peak

variable {c : PagedKVCache} {L : Limits} {run : List Slot} {peak : ℕ}

theorem holds_new (L : Limits) : (new L.numBlocks L.blockSize L.blockSize_pos).Holds L [] 0 where
  valid := valid_new _ _ _
  blockSize_eq := rfl
  numBlocks_eq := rfl
  counts := List.Perm.nil
  peak_eq := rfl

namespace Holds

theorem perm (h : c.Holds L run peak) {run' : List Slot} (hp : run.Perm run') :
    c.Holds L run' peak :=
  ⟨h.valid, h.blockSize_eq, h.numBlocks_eq, h.counts.trans (hp.map _), h.peak_eq⟩

theorem map (h : c.Holds L run peak) {f : Slot → Slot} (hid : ∀ x, (f x).seq.id = x.seq.id)
    (hheld : ∀ x, (f x).held = x.held) : c.Holds L (run.map f) peak := by
  refine ⟨h.valid, h.blockSize_eq, h.numBlocks_eq, ?_, h.peak_eq⟩
  simpa only [List.map_map, Function.comp_def, hid, hheld] using h.counts

theorem keys_perm (h : c.Holds L run peak) :
    c.counter.counts.keys.Perm (run.map (·.seq.id)) := by
  have hp := h.counts.map Sigma.fst
  rwa [List.map_map] at hp

theorem nodup (h : c.Holds L run peak) : (run.map (·.seq.id)).Nodup :=
  h.keys_perm.nodup_iff.mp c.counter.counts.keys_nodup

theorem mem_iff (h : c.Holds L run peak) (id : SeqId) :
    id ∈ c.tables ↔ id ∈ run.map (·.seq.id) := by
  rw [← counter_mem]
  exact AList.mem_keys.trans h.keys_perm.mem_iff

theorem lookup (h : c.Holds L run peak) {x : Slot} (hx : x ∈ run) :
    c.counter.counts.lookup x.seq.id = some x.held :=
  Keyed.mem_entries_iff.mp (h.counts.mem_iff.mpr (List.mem_map_of_mem hx))

theorem blockTable_eq (h : c.Holds L run peak) {x : Slot} (hx : x ∈ run) :
    ∃ t, c.blockTable x.seq.id = some t ∧ t.numTokens = x.held ∧
      t.blocks.length = L.blocks x.held := by
  have hl := h.lookup hx
  rw [counter_lookup, Option.map_eq_some_iff] at hl
  obtain ⟨t, ht, hn⟩ := hl
  refine ⟨t, ht, hn, ?_⟩
  rw [h.valid.capacity_of_lookup ht, hn, h.blockSize_eq]
  rfl

theorem blockTable_eq_none (h : c.Holds L run peak) {id : SeqId}
    (hid : id ∉ run.map (·.seq.id)) : c.blockTable id = none :=
  AList.lookup_eq_none.mpr fun hm => hid ((h.mem_iff id).mp hm)

theorem occupied_eq (h : c.Holds L run peak) : c.counter.occupied = L.used run := by
  have hp := (h.counts.map fun e => c.counter.blocks e.2).sum_eq
  rw [List.map_map] at hp
  simpa only [Counter.occupied, Limits.used, Limits.blocks, Function.comp_def, Counter.blocks,
    counter_blockSize, h.blockSize_eq] using hp

theorem usedBlocks_eq (h : c.Holds L run peak) : c.usedBlocks = L.used run :=
  h.valid.usedBlocks_eq.trans h.occupied_eq

theorem used_le_peak (h : c.Holds L run peak) : L.used run ≤ peak := by
  rw [← h.usedBlocks_eq, ← h.peak_eq]; exact h.valid.used_le_peak

theorem used_le (h : c.Holds L run peak) : L.used run ≤ L.numBlocks := by
  rw [← h.usedBlocks_eq, ← h.numBlocks_eq]
  exact h.valid.used_le_peak.trans h.valid.peak_le

theorem freeBlocks_eq (h : c.Holds L run peak) : c.freeBlocks = L.numBlocks - L.used run := by
  rw [h.valid.freeBlocks_eq, Counter.unoccupied, h.occupied_eq, counter_numBlocks,
    h.numBlocks_eq]

theorem blocksNeededFor_add (h : c.Holds L run peak) {x : Slot} (hx : x ∈ run) (count : ℕ) :
    L.blocks x.held + c.blocksNeededFor x.seq.id count = L.blocks (x.held + count) := by
  have hm := L.blocks_mono (Nat.le_add_right x.held count)
  rw [h.valid.blocksNeededFor_counter, Counter.blocksNeededFor, Counter.seqLen, h.lookup hx]
  simp only [Counter.blocks, counter_blockSize, h.blockSize_eq, Option.getD_some,
    Limits.blocks] at hm ⊢
  omega

theorem erase_perm (h : c.Holds L run peak) {x : Slot} {rest : List Slot}
    (hp : run.Perm (x :: rest)) :
    (c.counter.counts.erase x.seq.id).entries.Perm (rest.map fun x => ⟨x.seq.id, x.held⟩) := by
  have hx : x ∈ run := hp.mem_iff.mpr List.mem_cons_self
  have he := Keyed.entries_perm_cons_erase (h.lookup hx)
  exact (List.perm_cons _).mp (he.symm.trans (h.counts.trans (hp.map _)))

theorem admitSeq (h : c.Holds L run peak) {s : Sequence} (hs : s.id ∉ run.map (·.seq.id)) :
    (c.admitSeq s.id).Holds L (⟨s.withState .running, 0⟩ :: run) peak := by
  have hm : s.id ∉ c.tables := fun hm => hs ((h.mem_iff _).mp hm)
  have hc : s.id ∉ c.counter.counts := fun hm => hs ((h.mem_iff _).mp (counter_mem.mp hm))
  refine ⟨h.valid.admitSeq s.id, ?_, by rw [numBlocks_admitSeq, h.numBlocks_eq], ?_, ?_⟩
  · rw [← h.blockSize_eq]; unfold PagedKVCache.admitSeq; split <;> rfl
  · rw [counter_admitSeq, Counter.admitSeq, if_neg hc, AList.entries_insert_of_notMem hc]
    exact h.counts.cons _
  · rw [← h.peak_eq]; unfold PagedKVCache.admitSeq; split <;> rfl

/-- Undoing the admission of an unknown sequence restores the cache. -/
theorem free_admitSeq (h : c.Holds L run peak) {s : Sequence}
    (hs : s.id ∉ run.map (·.seq.id)) : (c.admitSeq s.id).free s.id = c := by
  have hm : s.id ∉ c.tables := fun hm => hs ((h.mem_iff _).mp hm)
  simp [PagedKVCache.admitSeq, hm, PagedKVCache.free, Keyed.erase_insert_of_notMem]

theorem append_eq (h : c.Holds L run peak) {x : Slot} (hx : x ∈ run) (count : ℕ) :
    c.counter.append x.seq.id count =
      if L.numBlocks < L.used run - L.blocks x.held + L.blocks (x.held + count) then
        (c.counter,
          .error (.outOfBlocks (c.counter.blocksNeededFor x.seq.id count) c.counter.unoccupied))
      else
        ({ c.counter with counts := c.counter.counts.insert x.seq.id (x.held + count) },
          .ok ()) := by
  have hb := h.blocksNeededFor_add hx count
  have hf : c.counter.unoccupied = L.numBlocks - L.used run := by
    rw [← h.valid.freeBlocks_eq, h.freeBlocks_eq]
  have hle : L.blocks x.held ≤ L.used run :=
    List.single_le_sum (fun _ _ => Nat.zero_le _) _ (List.mem_map_of_mem hx)
  have hu := h.used_le
  rw [h.valid.blocksNeededFor_counter] at hb
  have hiff : c.counter.unoccupied < c.counter.blocksNeededFor x.seq.id count ↔
      L.numBlocks < L.used run - L.blocks x.held + L.blocks (x.held + count) := by omega
  simp only [Counter.append, h.lookup hx, hiff]

theorem append_of_room (h : c.Holds L run peak) {x : Slot} {rest : List Slot}
    (hp : run.Perm (x :: rest)) {count n : ℕ} (hn : x.held + count = n)
    (hr : L.used rest + L.blocks n ≤ L.numBlocks) :
    ∃ c', c.append x.seq.id count = some (c', .ok ()) ∧
      c'.Holds L ({ x with held := n } :: rest) (max peak (L.used rest + L.blocks n)) := by
  subst hn
  have hx : x ∈ run := hp.mem_iff.mpr List.mem_cons_self
  have hu := Limits.used_perm (L := L) hp
  rw [Limits.used_cons] at hu
  obtain ⟨c', ha, hv, hc, hk⟩ := h.valid.append_refines x.seq.id count
  rw [h.append_eq hx count, if_neg (by omega)] at ha hc
  have hh : c'.Holds L ({ x with held := x.held + count } :: rest) c'.peakBlocks := by
    refine ⟨hv, ?_, ?_, ?_, rfl⟩
    · rw [← counter_blockSize, hc]; exact h.blockSize_eq
    · rw [← counter_numBlocks, hc]; exact h.numBlocks_eq
    · rw [hc, Keyed.entries_insert_eq, List.map_cons]
      exact (h.erase_perm hp).cons _
  have hpk : c'.peakBlocks = max peak (L.used rest + L.blocks (x.held + count)) := by
    rw [hk, h.peak_eq, hh.usedBlocks_eq, Limits.used_cons, Nat.add_comm (L.blocks _)]
  exact ⟨c', ha, hpk ▸ hh⟩

theorem append_of_full (h : c.Holds L run peak) {x : Slot} {rest : List Slot}
    (hp : run.Perm (x :: rest)) {count n : ℕ} (hn : x.held + count = n)
    (hr : L.numBlocks < L.used rest + L.blocks n) :
    ∃ e, c.append x.seq.id count = some (c, .error e) := by
  subst hn
  have hx : x ∈ run := hp.mem_iff.mpr List.mem_cons_self
  have hu := Limits.used_perm (L := L) hp
  rw [Limits.used_cons] at hu
  have he := h.append_eq hx count
  rw [if_pos (by omega)] at he
  rcases append_cases c x.seq.id count with ⟨-, ha⟩ | ⟨t, -, -, ha⟩ | ⟨t, -, -, ha⟩
  · exact ⟨_, ha⟩
  · exact ⟨_, ha⟩
  · obtain ⟨c', ha', -⟩ := h.valid.append_refines x.seq.id count
    rw [he, ha] at ha'
    simp at ha'

theorem free (h : c.Holds L run peak) {x : Slot} {rest : List Slot} (hp : run.Perm (x :: rest)) :
    (c.free x.seq.id).Holds L rest peak := by
  refine ⟨h.valid.free _, ?_, by rw [numBlocks_free, h.numBlocks_eq], ?_,
    by rw [peakBlocks_free, h.peak_eq]⟩
  · rw [← h.blockSize_eq]; unfold PagedKVCache.free; split <;> rfl
  · rw [counter_free, Counter.free]
    exact h.erase_perm hp

end Holds

end PagedKVCache

namespace Scheduler

variable {c : PagedKVCache} {L : Limits} {run : List Slot} {peak : ℕ}

theorem admissionLoop_of_ok {b : ℕ} {s : Sequence} {c' : PagedKVCache} {running : List Sequence}
    (hb : running.length < b)
    (ha : (c.admitSeq s.id).append s.id s.totalLen = some (c', .ok ()))
    (rest : List Sequence) (admitted : List SeqId) :
    admissionLoop b (s :: rest) c running admitted =
      admissionLoop b rest c' (running ++ [s.withState .running]) (admitted ++ [s.id]) := by
  simp [admissionLoop, hb, ha, Sequence.withState]

theorem admissionLoop_of_error {b : ℕ} {s : Sequence} {c' : PagedKVCache} {e : CacheError}
    {running : List Sequence} (hb : running.length < b)
    (ha : (c.admitSeq s.id).append s.id s.totalLen = some (c', .error e))
    (rest : List Sequence) (admitted : List SeqId) :
    admissionLoop b (s :: rest) c running admitted =
      some ⟨s :: rest, c'.free s.id, running, admitted⟩ := by
  simp [admissionLoop, hb, ha]

theorem admissionLoop_refines (h : c.Holds L run peak) (waiting : List Sequence)
    (hn : (waiting.map (·.id) ++ run.map (·.seq.id)).Nodup) (admitted : List SeqId) :
    ∃ c', admissionLoop L.maxBatchSize waiting c (run.map Slot.seq) admitted =
        some
          { waiting := waiting.drop (L.taken run waiting).length
            cache := c'
            running := (run ++ (L.taken run waiting).map Slot.place).map Slot.seq
            admitted := admitted ++ (L.taken run waiting).map (·.id) } ∧
      c'.Holds L (run ++ (L.taken run waiting).map .place)
        (max peak (L.used (run ++ (L.taken run waiting).map .place))) := by
  induction waiting generalizing c run peak admitted with
  | nil =>
    refine ⟨c, by simp [admissionLoop, Limits.taken], ?_⟩
    simpa [Limits.taken, max_eq_left h.used_le_peak] using h
  | cons s rest ih =>
    have hs : s.id ∉ run.map (·.seq.id) := by
      intro hs
      rw [List.map_cons, List.cons_append, List.nodup_cons] at hn
      exact hn.1 (List.mem_append_right _ hs)
    have ha := h.admitSeq hs
    rw [Limits.taken]
    by_cases hb : run.length < L.maxBatchSize
    · by_cases hf : L.used run + L.blocks s.totalLen ≤ L.numBlocks
      · obtain ⟨c₁, he, h₁⟩ := ha.append_of_room (List.Perm.refl _) (Nat.zero_add s.totalLen) hf
        have hp : (Slot.place s :: run).Perm (run ++ [.place s]) :=
          (List.perm_append_singleton _ _).symm
        have hn' : (rest.map (·.id) ++ (run ++ [Slot.place s]).map (·.seq.id)).Nodup := by
          have hq : (rest.map (·.id) ++ (run ++ [Slot.place s]).map (·.seq.id)).Perm
              (s.id :: (rest.map (·.id) ++ run.map (·.seq.id))) := by
            rw [List.map_append, ← List.append_assoc]
            exact List.perm_append_singleton _ _
          exact hq.nodup_iff.mpr hn
        obtain ⟨c₂, hr, h₂⟩ := ih (h₁.perm hp) hn' (admitted ++ [s.id])
        have hlen : (run.map Slot.seq).length < L.maxBatchSize := by simpa using hb
        refine ⟨c₂, ?_, ?_⟩
        · rw [admissionLoop_of_ok hlen he]
          rw [List.map_append] at hr
          simpa [hb, hf] using hr
        · have hm : L.used run + L.blocks s.totalLen ≤
              L.used (run ++ [.place s] ++ (L.taken (run ++ [.place s]) rest).map .place) := by
            simp only [Limits.used_append, Limits.used_cons, Limits.used_nil, Slot.held_place]
            omega
          rw [max_assoc, max_eq_right hm, List.append_assoc] at h₂
          simpa [hb, hf] using h₂
      · obtain ⟨e, he⟩ := ha.append_of_full (List.Perm.refl _) (Nat.zero_add s.totalLen)
          (not_le.mp hf)
        have hlen : (run.map Slot.seq).length < L.maxBatchSize := by simpa using hb
        refine ⟨c, ?_, ?_⟩
        · rw [admissionLoop_of_error hlen he, h.free_admitSeq hs]
          simp [hf]
        · simpa [hf, max_eq_left h.used_le_peak] using h
    · refine ⟨c, by simp [admissionLoop, hb], ?_⟩
      simpa [hb, max_eq_left h.used_le_peak] using h

/-- The demand of a part of the running sequences is the ledger's demand for it less the
blocks that it uses. -/
theorem decodeDemand_add_used (h : c.Holds L run peak)
    (hst : ∀ x ∈ run, x.seq.state = .running) {l : List Slot} (hl : ∀ x ∈ l, x ∈ run) :
    decodeDemand c (l.map Slot.seq) + L.used l = L.demand l := by
  induction l with
  | nil => rfl
  | cons x l ih =>
    have hx := hl x List.mem_cons_self
    have ih' := ih fun y hy => hl y (List.mem_cons_of_mem x hy)
    have hb := h.blocksNeededFor_add hx 1
    simp only [Limits.demand, decodeDemand] at ih'
    cases hc : x.seq.isComplete with
    | true =>
      simp only [decodeDemand, Limits.demand, List.map_cons, Limits.used_cons,
        Slot.grow_of_complete hc]
      simp only [hst x hx, hc, List.filter_cons]
      simp only [Bool.not_true, Bool.and_false, Bool.false_eq_true, if_false]
      omega
    | false =>
      simp only [decodeDemand, Limits.demand, List.map_cons, Limits.used_cons,
        Slot.held_grow_of_incomplete hc]
      simp only [hst x hx, hc, List.filter_cons]
      simp only [beq_self_eq_true, Bool.not_false, Bool.and_self, if_true, List.map_cons,
        List.sum_cons]
      omega

theorem demand_le_iff (h : c.Holds L run peak) (hst : ∀ x ∈ run, x.seq.state = .running) :
    decodeDemand c (run.map Slot.seq) ≤ c.freeBlocks ∨ (run.map Slot.seq).isEmpty ↔
      L.demand run ≤ L.numBlocks := by
  have hd := decodeDemand_add_used h hst fun _ hx => hx
  have hu := h.used_le
  rw [h.freeBlocks_eq]
  constructor
  · rintro (hle | he)
    · omega
    · obtain rfl : run = [] := by simpa using he
      exact Nat.zero_le _
  · intro hle
    exact Or.inl (by omega)

theorem victimIdx_eq (hn : (run.map (·.seq.id)).Nodup)
    (hst : ∀ x ∈ run, x.seq.state = .running) {x : Slot}
    (hx : Limits.leastProgressed run = some x) :
    ∃ i, victimIdx (run.map Slot.seq) = some i ∧ run[i]? = some x := by
  set zs := (run.map Slot.seq).zipIdx with hzs
  have hf : (zs.filter fun si => si.1.state == .running) = zs := by
    rw [List.filter_eq_self]
    rintro ⟨s, i⟩ hsi
    rw [hzs, List.mk_mem_zipIdx_iff_getElem?] at hsi
    obtain ⟨y, hy, rfl⟩ := List.mem_map.mp (List.mem_of_getElem? hsi)
    simp [hst y hy]
  cases hm : zs.argmin fun si => progressKey si.1 with
  | none =>
    rw [List.argmin_eq_none, hzs, List.zipIdx_eq_nil_iff, List.map_eq_nil_iff] at hm
    rw [Limits.leastProgressed_eq_none.mpr hm] at hx
    exact absurd hx (by simp)
  | some si =>
    obtain ⟨s, i⟩ := si
    have hmem := List.argmin_mem hm
    rw [hzs, List.mk_mem_zipIdx_iff_getElem?, List.getElem?_map, Option.map_eq_some_iff] at hmem
    obtain ⟨y, hy, rfl⟩ := hmem
    have hyr := List.mem_of_getElem? hy
    have hxr := Limits.leastProgressed_mem hx
    obtain ⟨j, hj⟩ := List.getElem?_of_mem hxr
    have hxz : (x.seq, j) ∈ zs := by
      rw [hzs, List.mk_mem_zipIdx_iff_getElem?, List.getElem?_map, hj]; rfl
    have hyx : progressKey y.seq ≤ progressKey x.seq :=
      List.le_of_mem_argmin (f := fun si : Sequence × ℕ => progressKey si.1) hxz hm
    have hkey := le_antisymm (Limits.leastProgressed_le hx hyr) hyx
    obtain rfl := Limits.eq_of_key_eq hn hxr hyr hkey
    exact ⟨i, by rw [victimIdx, hf, hm]; rfl, hy⟩

theorem preemptionLoop_refines (n : ℕ) (h : c.Holds L run peak)
    (hst : ∀ x ∈ run, x.seq.state = .running) (waiting : List Sequence)
    (preempted : List SeqId) :
    ∃ c', preemptionLoop n ⟨waiting, c, run.map Slot.seq, preempted⟩ =
        { waiting := ((L.evict n run).1.map Slot.preempt).reverse ++ waiting
          cache := c'
          running := (L.evict n run).2.map Slot.seq
          preempted := preempted ++ (L.evict n run).1.map (·.seq.id) } ∧
      c'.Holds L (L.evict n run).2 peak := by
  induction n generalizing c run waiting preempted with
  | zero => exact ⟨c, by simp [preemptionLoop, Limits.evict], h⟩
  | succ n ih =>
    have hiff := demand_le_iff h hst
    rcases Limits.evict_cases L n run with ⟨he, hd⟩ | ⟨x, hx, hd, he⟩
    · refine ⟨c, ?_, by rw [he]; exact h⟩
      rw [he, preemptionLoop, if_pos (hiff.mpr hd)]
      simp
    · have hxr := Limits.leastProgressed_mem hx
      obtain ⟨i, hv, hi⟩ := victimIdx_eq h.nodup hst hx
      have hidx : run.eraseIdx i = run.erase x := by
        obtain ⟨hlt, rfl⟩ := List.getElem?_eq_some_iff.mp hi
        exact (List.erase_eq_eraseIdx_of_idxOf (h.nodup.of_map.idxOf_getElem i hlt)).symm
      have hst' : ∀ y ∈ run.erase x, y.seq.state = .running := fun y hy =>
        hst y (List.mem_of_mem_erase hy)
      obtain ⟨c', hl, hc'⟩ := ih (h.free (List.perm_cons_erase hxr)) hst'
        (x.preempt :: waiting) (preempted ++ [x.seq.id])
      refine ⟨c', ?_, by rw [he]; exact hc'⟩
      rw [preemptionLoop, if_neg (fun hle => absurd (hiff.mp hle) (not_le.mpr hd))]
      simp only [hv, List.getElem?_map, hi, Option.map_some, List.eraseIdx_map, hidx]
      rw [he]
      simpa [Slot.preempt, Sequence.withState] using hl

theorem commitLoop_refines (done todo : List Slot) {peak : ℕ}
    (h : c.Holds L (done.map Slot.grow ++ todo)
      (max peak (L.used (done.map Slot.grow ++ todo))))
    (hst : ∀ x ∈ todo, x.seq.state = .running)
    (hd : L.demand (done ++ todo) ≤ L.numBlocks) (batch : List SeqId) :
    ∃ c', commitLoop (todo.map Slot.seq) c batch =
        some (c', batch ++ (todo.filter fun x => !x.seq.isComplete).map (·.seq.id)) ∧
      c'.Holds L ((done ++ todo).map Slot.grow) (max peak (L.demand (done ++ todo))) := by
  induction todo generalizing c done batch with
  | nil => exact ⟨c, by simp [commitLoop], by simpa [Limits.demand] using h⟩
  | cons x todo ih =>
    have hx := hst x List.mem_cons_self
    have hst' : ∀ y ∈ todo, y.seq.state = .running := fun y hy =>
      hst y (List.mem_cons_of_mem x hy)
    have happ : done ++ x :: todo = (done ++ [x]) ++ todo := by simp
    have hgrow : (done ++ [x]).map Slot.grow ++ todo = done.map Slot.grow ++ (x.grow :: todo) := by
      simp
    rw [happ] at hd ⊢
    cases hc : x.seq.isComplete with
    | true =>
      rw [← Slot.grow_of_complete hc, ← hgrow] at h
      obtain ⟨c', hl, hc'⟩ := ih (done ++ [x]) h hst' hd batch
      exact ⟨c', by simpa [commitLoop, hc] using hl, hc'⟩
    | false =>
      have hp : (done.map Slot.grow ++ x :: todo).Perm (x :: (done.map Slot.grow ++ todo)) :=
        List.perm_middle
      have hused : L.used (done.map Slot.grow ++ todo) + L.blocks (x.held + 1) =
          L.used ((done ++ [x]).map Slot.grow ++ todo) := by
        rw [hgrow]
        simp only [Limits.used_append, Limits.used_cons, Slot.held_grow_of_incomplete hc]
        omega
      have hroom : L.used (done.map Slot.grow ++ todo) + L.blocks (x.held + 1) ≤ L.numBlocks := by
        have hle := L.used_le_demand todo
        rw [hused]
        simp only [Limits.demand, List.map_append, Limits.used_append] at hd hle ⊢
        omega
      obtain ⟨c₁, ha, h₁⟩ := h.append_of_room hp (rfl : x.held + 1 = _) hroom
      have hg : ({ x with held := x.held + 1 } : Slot) = x.grow := by simp [Slot.grow, hc]
      have hq : (x.grow :: (done.map Slot.grow ++ todo)).Perm
          ((done ++ [x]).map Slot.grow ++ todo) := by
        rw [hgrow]; exact List.perm_middle.symm
      have hmono : L.used (done.map Slot.grow ++ x :: todo) ≤
          L.used ((done ++ [x]).map Slot.grow ++ todo) := by
        rw [hgrow]
        have := L.blocks_mono x.held_le_grow
        simp only [Limits.used_append, Limits.used_cons]
        omega
      rw [hg, hused, max_assoc, max_eq_right hmono] at h₁
      obtain ⟨c', hl, hc'⟩ := ih (done ++ [x]) (h₁.perm hq) hst' hd (batch ++ [x.seq.id])
      exact ⟨c', by simpa [commitLoop, hx, hc, ha] using hl, hc'⟩

theorem retireLoop_refines (kept todo : List Slot) (h : c.Holds L (kept ++ todo) peak)
    (stillRunning : List Sequence) (finished : List SeqId) :
    ∃ c', retireLoop (todo.map Slot.seq) ⟨c, stillRunning, finished⟩ =
        { cache := c'
          stillRunning := stillRunning ++ (todo.filter fun x => !x.seq.isComplete).map Slot.seq
          finished := finished ++ (todo.filter fun x => x.seq.isComplete).map (·.seq.id) } ∧
      c'.Holds L (kept ++ todo.filter fun x => !x.seq.isComplete) peak := by
  induction todo generalizing c kept stillRunning finished with
  | nil => exact ⟨c, by simp [retireLoop], by simpa using h⟩
  | cons x todo ih =>
    cases hc : x.seq.isComplete with
    | true =>
      obtain ⟨c', hl, hc'⟩ := ih kept (h.free List.perm_middle) stillRunning
        (finished ++ [x.seq.id])
      exact ⟨c', by simpa [retireLoop, hc] using hl, by simpa [hc] using hc'⟩
    | false =>
      have h' : c.Holds L ((kept ++ [x]) ++ todo) peak := by simpa using h
      obtain ⟨c', hl, hc'⟩ := ih (kept ++ [x]) h' (stillRunning ++ [x.seq]) finished
      exact ⟨c', by simpa [retireLoop, hc] using hl, by simpa [hc] using hc'⟩

theorem schedule_of_loops {s : Scheduler} {A : Admission} {P : Preemption} {cache : PagedKVCache}
    {decodeBatch : List SeqId} {R : Retirement}
    (ha : admissionLoop s.config.maxBatchSize s.waiting s.cache s.running [] = some A)
    (hp : preemptionLoop A.running.length ⟨A.waiting, A.cache, A.running, []⟩ = P)
    (hc : commitLoop P.running P.cache [] = some (cache, decodeBatch))
    (hr : retireLoop P.running ⟨cache, [], []⟩ = R) :
    s.schedule = some
      ({ s with cache := R.cache, waiting := P.waiting, running := R.stillRunning },
        { admitted := A.admitted
          decodeBatch := decodeBatch
          preempted := P.preempted
          finished := R.finished }) := by
  subst hp
  subst hr
  simp only [schedule, ha, hc, Option.bind_eq_bind, Option.bind_some]

/-- The scheduler's state is the ledger's, its cache holding the running slots. -/
structure Refines (s : Scheduler) (L : Limits) (a : Ledger) : Prop where
  maxBatchSize_eq : s.config.maxBatchSize = L.maxBatchSize
  waiting_eq : s.waiting = a.waiting
  running_eq : s.running = a.running.map Slot.seq
  cache : s.cache.Holds L a.running a.peak

variable {s : Scheduler} {a : Ledger}

/-- The states an iteration goes through: after admission `A`, after preemption `P`, the
cache `C` after the commit, and the scheduler `s'` at its end. -/
structure Iteration (s : Scheduler) (L : Limits) (a : Ledger) (A : Admission) (P : Preemption)
    (C : PagedKVCache) (s' : Scheduler) : Prop where
  admission : admissionLoop s.config.maxBatchSize s.waiting s.cache s.running [] = some A
  preemption : preemptionLoop A.running.length ⟨A.waiting, A.cache, A.running, []⟩ = P
  commit : commitLoop P.running P.cache [] = some (C, (a.plan L).decodeBatch)
  retirement : retireLoop P.running ⟨C, [], []⟩ = ⟨s'.cache, s'.running, (a.plan L).finished⟩
  schedule : s.schedule = some (s', a.plan L)
  left_eq : A.waiting = a.left L
  placed_eq : A.running = (a.placed L).map Slot.seq
  placed_held : A.cache.Holds L (a.placed L) (max a.peak (L.used (a.placed L)))
  survivors_eq : P.running = (a.survivors L).map Slot.seq
  survivors_held : P.cache.Holds L (a.survivors L) (max a.peak (L.used (a.placed L)))
  preempted_eq : P.preempted = (a.plan L).preempted
  refines : s'.Refines L (a.scheduled L)

theorem schedule_iteration (hv : a.Valid L) (h : s.Refines L a) :
    ∃ A P C s', s.Iteration L a A P C s' := by
  have hn : (a.waiting.map (·.id) ++ a.running.map (·.seq.id)).Nodup := by
    simpa [Ledger.live, Function.comp_def] using hv.nodup
  obtain ⟨config, cache, _, _⟩ := s
  obtain ⟨hb, rfl, rfl, hcache⟩ := h
  obtain ⟨c₁, ha, h₁⟩ := admissionLoop_refines hcache a.waiting hn []
  obtain ⟨c₂, hp, h₂⟩ := preemptionLoop_refines (a.placed L).length h₁ hv.placed_state (a.left L) []
  have hst : ∀ x ∈ a.survivors L, x.seq.state = .running := fun x hx =>
    hv.placed_state x ((a.survivors_sublist L).subset hx)
  have hle : L.used (a.survivors L) ≤ max a.peak (L.used (a.placed L)) := h₂.used_le_peak
  have h₂' : c₂.Holds L ([].map Slot.grow ++ a.survivors L)
      (max (max a.peak (L.used (a.placed L))) (L.used ([].map Slot.grow ++ a.survivors L))) := by
    rw [List.map_nil, List.nil_append, max_eq_left hle]
    exact h₂
  obtain ⟨c₃, hc, h₃⟩ := commitLoop_refines [] (a.survivors L) h₂' hst
    (by simpa using a.demand_survivors_le L) []
  rw [List.nil_append] at hc h₃
  obtain ⟨c₄, hr, h₄⟩ := retireLoop_refines [] ((a.survivors L).map Slot.grow) h₃ [] []
  have hkeep : ((a.survivors L).map Slot.grow).filter (fun x => !x.seq.isComplete) =
      (a.scheduled L).running := by
    rw [List.filter_map]
    simp only [Function.comp_def, Slot.seq_grow]
    rfl
  have hdrop : (((a.survivors L).map Slot.grow).filter fun x => x.seq.isComplete).map
      (·.seq.id) = (a.plan L).finished := by
    rw [List.filter_map, List.map_map]
    simp only [Function.comp_def, Slot.seq_grow]
    rfl
  rw [hkeep, hdrop] at hr
  rw [hkeep] at h₄
  have hseq : ((a.survivors L).map Slot.grow).map Slot.seq = (a.survivors L).map Slot.seq := by
    simp [Function.comp_def]
  rw [hseq] at hr
  have hp' : preemptionLoop ((a.placed L).map Slot.seq).length
        ⟨a.left L, c₁, (a.placed L).map Slot.seq, []⟩ =
      ⟨(a.scheduled L).waiting, c₂, (a.survivors L).map Slot.seq, (a.plan L).preempted⟩ := by
    rw [List.length_map]; exact hp
  rw [← hb] at ha
  have hs := schedule_of_loops ha hp' hc hr
  exact ⟨_, _, c₃, _, ha, hp', hc, hr, hs, rfl, rfl, h₁, rfl, h₂, rfl, hb, rfl, rfl, h₄⟩

theorem schedule_refines (hv : a.Valid L) (h : s.Refines L a) :
    ∃ s', s.schedule = some (s', a.plan L) ∧ s'.Refines L (a.scheduled L) := by
  obtain ⟨A, P, C, s', hi⟩ := schedule_iteration hv h
  exact ⟨s', hi.schedule, hi.refines⟩

end Scheduler

end ForgeInfer
