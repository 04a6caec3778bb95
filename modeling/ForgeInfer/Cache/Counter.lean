import ForgeInfer.Cache.Partition

/-! # The counter model

What the cache is for: a map from sequences to token counts, where `n` tokens occupy
`n / blockSize` interchangeable blocks, rounded up. Forgetting which blocks a table lists
turns the paged cache into this model, call by call.
-/

namespace ForgeInfer

/-- Tokens stored for each known sequence. -/
structure Counter where
  blockSize : ℕ
  numBlocks : ℕ
  counts : AList (fun _ : SeqId => ℕ)

namespace Counter

def new (numBlocks blockSize : ℕ) : Counter := ⟨blockSize, numBlocks, ∅⟩

def blocks (m : Counter) (n : ℕ) : ℕ := n ⌈/⌉ m.blockSize

def occupied (m : Counter) : ℕ := (m.counts.entries.map fun e => m.blocks e.2).sum

def unoccupied (m : Counter) : ℕ := m.numBlocks - m.occupied

def contains (m : Counter) (seq : SeqId) : Bool := decide (seq ∈ m.counts)

def seqLen (m : Counter) (seq : SeqId) : ℕ := (m.counts.lookup seq).getD 0

def blocksNeededFor (m : Counter) (seq : SeqId) (extraTokens : ℕ) : ℕ :=
  m.blocks (m.seqLen seq + extraTokens) - m.blocks (m.seqLen seq)

def waste (m : Counter) : ℕ :=
  (m.counts.entries.map fun e => m.blocks e.2 * m.blockSize - e.2).sum

def admitSeq (m : Counter) (seq : SeqId) : Counter :=
  if seq ∈ m.counts then m else { m with counts := m.counts.insert seq 0 }

def append (m : Counter) (seq : SeqId) (count : ℕ) : Counter × Except CacheError Unit :=
  match m.counts.lookup seq with
  | none => (m, .error (.unknownSequence seq))
  | some n =>
    if m.unoccupied < m.blocksNeededFor seq count then
      (m, .error (.outOfBlocks (m.blocksNeededFor seq count) m.unoccupied))
    else ({ m with counts := m.counts.insert seq (n + count) }, .ok ())

def free (m : Counter) (seq : SeqId) : Counter := { m with counts := m.counts.erase seq }

def call (m : Counter) : CacheCall → Counter × Option (Except CacheError Unit)
  | .admitSeq seq => (m.admitSeq seq, none)
  | .append seq count => ((m.append seq count).1, some (m.append seq count).2)
  | .free seq => (m.free seq, none)

theorem blockSize_call (m : Counter) (k : CacheCall) : (m.call k).1.blockSize = m.blockSize := by
  cases k with
  | admitSeq seq => simp only [call, admitSeq]; split <;> rfl
  | append seq count => simp only [call, append]; split <;> [skip; split] <;> rfl
  | free seq => rfl

theorem blockSize_exec (m : Counter) (ks : List CacheCall) :
    (Machine.exec call m ks).1.blockSize = m.blockSize := by
  induction ks generalizing m with
  | nil => rfl
  | cons k ks ih => simp only [Machine.exec, ih, blockSize_call]

/-- The largest occupancy along a run. -/
def peak (m : Counter) : List CacheCall → ℕ
  | [] => m.occupied
  | k :: ks => max m.occupied ((m.call k).1.peak ks)

theorem peak_concat (m : Counter) (ks : List CacheCall) (k : CacheCall) :
    m.peak (ks ++ [k]) = max (m.peak ks) (Machine.exec call m (ks ++ [k])).1.occupied := by
  induction ks generalizing m with
  | nil => rfl
  | cons k' ks ih => simp [peak, ih, Machine.exec, max_assoc]

end Counter

namespace PagedKVCache

/-- Forget which blocks a table lists. -/
def counter (c : PagedKVCache) : Counter where
  blockSize := c.blockSize
  numBlocks := c.numBlocks
  counts := Keyed.mapValues (fun _ t => t.numTokens) c.tables

variable {c : PagedKVCache} {seq : SeqId} {t : BlockTable}

@[simp] theorem counter_blockSize (c : PagedKVCache) : c.counter.blockSize = c.blockSize := rfl

@[simp] theorem counter_numBlocks (c : PagedKVCache) : c.counter.numBlocks = c.numBlocks := rfl

@[simp] theorem counter_lookup (c : PagedKVCache) (seq : SeqId) :
    c.counter.counts.lookup seq = (c.tables.lookup seq).map BlockTable.numTokens :=
  Keyed.lookup_mapValues _ _ _

@[simp] theorem counter_mem : seq ∈ c.counter.counts ↔ seq ∈ c.tables :=
  Keyed.mem_mapValues _

theorem contains_eq (c : PagedKVCache) (seq : SeqId) : c.contains seq = c.counter.contains seq := by
  simp [contains, Counter.contains]

theorem seqLen_eq (c : PagedKVCache) (seq : SeqId) : c.seqLen seq = c.counter.seqLen seq := by
  simp [seqLen, Counter.seqLen]

theorem counter_admitSeq (c : PagedKVCache) (seq : SeqId) :
    (c.admitSeq seq).counter = c.counter.admitSeq seq := by
  by_cases h : seq ∈ c.tables
  · simp [admitSeq, Counter.admitSeq, h]
  · simp [admitSeq, Counter.admitSeq, h, counter, Keyed.mapValues_insert, Keyed.mem_mapValues]

theorem counter_free (c : PagedKVCache) (seq : SeqId) :
    (c.free seq).counter = c.counter.free seq := by
  cases h : c.tables.lookup seq with
  | none =>
    have hn : seq ∉ c.counter.counts := by
      rw [counter_mem]; exact AList.lookup_eq_none.mp h
    have he : c.counter.counts.erase seq = c.counter.counts :=
      AList.ext (List.kerase_of_notMem_keys hn)
    simp only [free, h, Counter.free, he]
  | some t => simp [free, h, Counter.free, counter, Keyed.mapValues_erase]

theorem counter_grown (c : PagedKVCache) (seq : SeqId) (t : BlockTable) (n count : ℕ) :
    (c.grown seq t n count).counter =
      { c.counter with counts := c.counter.counts.insert seq (t.numTokens + count) } := by
  simp [counter, grown, Keyed.mapValues_insert]

namespace Valid

theorem usedBlocks_eq (h : c.Valid) : c.usedBlocks = c.counter.occupied := by
  have hlen := h.length_freeList_add
  have ho : c.owned.length = c.counter.occupied := by
    simp only [owned, List.length_flatMap, Counter.occupied, counter, Keyed.mapValues,
      List.map_map]
    exact congrArg List.sum (List.map_congr_left fun e he => h.capacity e he)
  simp only [usedBlocks]; omega

theorem freeBlocks_eq (h : c.Valid) : c.freeBlocks = c.counter.unoccupied := by
  have hlen := h.length_freeList_le
  have hu := h.usedBlocks_eq
  simp only [usedBlocks, freeBlocks, Counter.unoccupied, counter_numBlocks] at hu ⊢
  omega

theorem slack_eq (h : c.Valid) (ht : c.tables.lookup seq = some t) :
    t.slack c.blockSize = c.counter.blocks t.numTokens * c.blockSize - t.numTokens := by
  simp [BlockTable.slack, BlockTable.capacity, h.capacity_of_lookup ht, Counter.blocks]

theorem slack_lt (h : c.Valid) (ht : c.tables.lookup seq = some t) :
    t.slack c.blockSize < c.blockSize := by
  rw [h.slack_eq ht]; exact Blocks.slack_lt c.blockSize_pos _

theorem internalFragmentation_eq (h : c.Valid) :
    c.internalFragmentation = c.counter.waste := by
  simp only [internalFragmentation, Counter.waste, counter, Keyed.mapValues, List.map_map]
  exact congrArg List.sum (List.map_congr_left fun e he =>
    h.slack_eq (Keyed.mem_entries_iff.mp he))

theorem blocksNeededFor_counter (h : c.Valid) (seq : SeqId) (count : ℕ) :
    c.blocksNeededFor seq count = c.counter.blocksNeededFor seq count := by
  cases ht : c.tables.lookup seq with
  | none => simp [blocksNeededFor, ht, Counter.blocksNeededFor, Counter.seqLen, Counter.blocks]
  | some t =>
    have := h.blocksNeededFor_eq ht count
    simp only [Counter.blocksNeededFor, Counter.seqLen, Counter.blocks, counter_lookup, ht,
      Option.map_some, Option.getD_some, counter_blockSize]
    omega

theorem append_refines (h : c.Valid) (seq : SeqId) (count : ℕ) :
    ∃ c', c.append seq count = some (c', (c.counter.append seq count).2) ∧ c'.Valid ∧
      c'.counter = (c.counter.append seq count).1 ∧
      c'.peakBlocks = max c.peakBlocks c'.usedBlocks := by
  have same : c.peakBlocks = max c.peakBlocks c.usedBlocks := by
    have := h.used_le_peak; omega
  have hfree : c.freeList.length = c.counter.unoccupied := h.freeBlocks_eq
  rcases append_cases c seq count with ⟨hm, he⟩ | ⟨t, ht, hn, he⟩ | ⟨t, ht, hn, he⟩
  · have hl : c.tables.lookup seq = none := AList.lookup_eq_none.mpr hm
    exact ⟨c, by simp [he, Counter.append, hl], h, by simp [Counter.append, hl], same⟩
  · rw [h.blocksNeededFor_counter, hfree] at hn
    refine ⟨c, ?_, h, ?_, same⟩
    · simp [he, Counter.append, ht, hn, h.blocksNeededFor_counter, hfree]
    · simp [Counter.append, ht, hn]
  · refine ⟨_, he.trans ?_, h.grown ht hn, ?_, by rw [usedBlocks_grown_eq]; rfl⟩
    · rw [h.blocksNeededFor_counter, hfree] at hn
      simp [Counter.append, ht, not_lt.mpr hn]
    · rw [counter_grown]
      rw [h.blocksNeededFor_counter, hfree] at hn
      simp [Counter.append, ht, not_lt.mpr hn]

theorem call_refines (h : c.Valid) (k : CacheCall) :
    ∃ c', c.call k = some (c', (c.counter.call k).2) ∧ c'.Valid ∧
      c'.counter = (c.counter.call k).1 ∧ c'.peakBlocks = max c.peakBlocks c'.usedBlocks := by
  cases k with
  | admitSeq seq =>
    obtain ⟨c', ho, hv, -, hp⟩ := op_spec h (.call (.admitSeq seq))
    simp only [op, call, Option.map_some, Option.some.injEq, Prod.mk.injEq, and_true] at ho
    subst ho
    exact ⟨_, rfl, hv, counter_admitSeq c seq, hp⟩
  | append seq count =>
    obtain ⟨c', ho, hv, hc, hp⟩ := h.append_refines seq count
    exact ⟨c', by simp [call, Counter.call, ho], hv, hc, hp⟩
  | free seq =>
    obtain ⟨c', ho, hv, -, hp⟩ := op_spec h (.call (.free seq))
    simp only [op, call, Option.map_some, Option.some.injEq, Prod.mk.injEq, and_true] at ho
    subst ho
    exact ⟨_, rfl, hv, counter_free c seq, hp⟩

end Valid

/-- The cache and the counter model cannot be told apart. -/
structure Agrees (c : PagedKVCache) (m : Counter) : Prop where
  contains : ∀ seq, c.contains seq = m.contains seq
  seqLen : ∀ seq, c.seqLen seq = m.seqLen seq
  freeBlocks : c.freeBlocks = m.unoccupied
  usedBlocks : c.usedBlocks = m.occupied
  internalFragmentation : c.internalFragmentation = m.waste
  blocksNeededFor : ∀ seq count, c.blocksNeededFor seq count = m.blocksNeededFor seq count

theorem Valid.agrees (h : c.Valid) : c.Agrees c.counter where
  contains := c.contains_eq
  seqLen := c.seqLen_eq
  freeBlocks := h.freeBlocks_eq
  usedBlocks := h.usedBlocks_eq
  internalFragmentation := h.internalFragmentation_eq
  blocksNeededFor := h.blocksNeededFor_counter

end PagedKVCache

/-- A script of calls follows the counter model to the largest occupancy so far. -/
theorem PagedKVCache.run_refines (numBlocks blockSize : ℕ) (hb : 0 < blockSize)
    (calls : List CacheCall) :
    ∃ c, Machine.run call (new numBlocks blockSize hb) calls =
        some (c, (Machine.exec Counter.call (.new numBlocks blockSize) calls).2) ∧ c.Valid ∧
      c.counter = (Machine.exec Counter.call (.new numBlocks blockSize) calls).1 ∧
      c.peakBlocks = (Counter.new numBlocks blockSize).peak calls := by
  induction calls using List.reverseRecOn with
  | nil => exact ⟨_, rfl, valid_new numBlocks blockSize hb, rfl, rfl⟩
  | append_singleton calls k ih =>
    obtain ⟨c, hr, hv, hc, hp⟩ := ih
    obtain ⟨c', hk, hv', hc', hp'⟩ := hv.call_refines k
    rw [hc] at hk hc'
    refine ⟨c', ?_, hv', ?_, ?_⟩
    · rw [Machine.exec_concat]; exact Machine.run_concat hr hk
    · rw [Machine.exec_concat]; exact hc'
    · rw [hp', hp, hv'.usedBlocks_eq, hc', Counter.peak_concat, Machine.exec_concat]

open PagedKVCache in
/-- Every script of calls gets the counter model's answers and ends in a cache that
agrees with it, down to the largest use so far; no table wastes a whole block. -/
theorem cache_refines_counter (numBlocks blockSize : ℕ) (hb : 0 < blockSize)
    (calls : List CacheCall) :
    ∃ c, Machine.run call (new numBlocks blockSize hb) calls =
        some (c, (Machine.exec Counter.call (.new numBlocks blockSize) calls).2) ∧
      c.Agrees (Machine.exec Counter.call (.new numBlocks blockSize) calls).1 ∧
      c.peakBlocks = (Counter.new numBlocks blockSize).peak calls ∧
      ∀ seq t, c.blockTable seq = some t → t.slack blockSize ≤ blockSize - 1 := by
  obtain ⟨c, hr, hv, hc, hp⟩ := run_refines numBlocks blockSize hb calls
  have hs : c.blockSize = blockSize := by
    rw [← counter_blockSize, hc, Counter.blockSize_exec]; rfl
  refine ⟨c, hr, hc ▸ hv.agrees, hp, fun seq t ht => ?_⟩
  have := hv.slack_lt ht
  rw [hs] at this
  omega

open PagedKVCache in
/-- Growth within a block, growth over several blocks, a refusal and a reuse. -/
theorem cache_refines_counter_after_reuse :
    let calls : List CacheCall :=
      [.admitSeq 1, .append 1 1, .append 1 1, .admitSeq 2, .append 2 5, .append 2 4, .free 1,
        .append 2 4]
    ∃ c, Machine.run call (new 5 2 (by decide)) calls =
        some (c, (Machine.exec Counter.call (.new 5 2) calls).2) ∧
      c.Agrees (Machine.exec Counter.call (.new 5 2) calls).1 ∧
      c.peakBlocks = (Counter.new 5 2).peak calls ∧
      ∀ seq t, c.blockTable seq = some t → t.slack 2 ≤ 2 - 1 :=
  cache_refines_counter 5 2 (by decide) _

end ForgeInfer
