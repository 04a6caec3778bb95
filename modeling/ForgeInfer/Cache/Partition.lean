import ForgeInfer.Cache.Basic
import ForgeInfer.Foundation.Blocks
import ForgeInfer.Foundation.Keyed
import ForgeInfer.Foundation.Machine
import Mathlib.Data.List.Count
import Mathlib.Order.Bounds.Basic

/-! # Block ownership

Every block is free or owned by exactly one table, a table has exactly the blocks its
tokens fill, and the high-water mark is the largest use so far. The allocation loop
cannot panic because `append` checks the free count first.
-/

namespace ForgeInfer

namespace PagedKVCache

def owned (c : PagedKVCache) : List BlockId := c.tables.entries.flatMap fun e => e.2.blocks

/-- The free blocks that `n` passes of the allocation loop pop, in order. -/
def popped (c : PagedKVCache) (n : ℕ) : List BlockId :=
  (c.freeList.drop (c.freeList.length - n)).reverse

/-- The cache after a successful append of `count` tokens in `n` new blocks. -/
def grown (c : PagedKVCache) (seq : SeqId) (t : BlockTable) (n count : ℕ) : PagedKVCache :=
  { c with
    freeList := c.freeList.take (c.freeList.length - n)
    tables := c.tables.insert seq ⟨t.blocks ++ c.popped n, t.numTokens + count⟩
    peakBlocks := max c.peakBlocks (c.numBlocks - (c.freeList.length - n)) }

variable {c : PagedKVCache} {seq : SeqId} {t : BlockTable}

theorem length_popped {n : ℕ} (h : n ≤ c.freeList.length) : (c.popped n).length = n := by
  simp only [popped, List.length_reverse, List.length_drop]; omega

theorem freeList_perm (c : PagedKVCache) (n : ℕ) :
    c.freeList.Perm (c.freeList.take (c.freeList.length - n) ++ c.popped n) := by
  conv_lhs => rw [← List.take_append_drop (c.freeList.length - n) c.freeList]
  exact (List.reverse_perm _).symm.append_left _

theorem owned_perm (h : c.tables.lookup seq = some t) :
    c.owned.Perm (t.blocks ++ (c.tables.erase seq).entries.flatMap fun e => e.2.blocks) :=
  (Keyed.entries_perm_cons_erase h).flatMap_right _

theorem allocBlock_of_lookup (ht : c.tables.lookup seq = some t) {block : BlockId}
    (hb : c.freeList.getLast? = some block) :
    c.allocBlock seq = some { c with
      freeList := c.freeList.dropLast
      tables := c.tables.insert seq { t with blocks := t.blocks ++ [block] } } := by
  simp [allocBlock, ht, hb]

theorem allocBlocks_of_le {n : ℕ} (ht : c.tables.lookup seq = some t)
    (hn : n ≤ c.freeList.length) :
    ∃ tables : AList (fun _ : SeqId => BlockTable),
      allocBlocks n c seq = some { c with
        freeList := c.freeList.take (c.freeList.length - n), tables := tables } ∧
      tables.lookup seq = some { t with blocks := t.blocks ++ c.popped n } ∧
      ∀ t', tables.insert seq t' = c.tables.insert seq t' := by
  induction n generalizing c t with
  | zero => exact ⟨c.tables, by simp [allocBlocks], by simpa [popped] using ht, fun _ => rfl⟩
  | succ n ih =>
    obtain ⟨free, block, hf⟩ : ∃ free block, c.freeList = free ++ [block] := by
      rcases List.eq_nil_or_concat c.freeList with h | ⟨free, block, h⟩
      · simp [h] at hn
      · exact ⟨free, block, by simpa using h⟩
    have ha := allocBlock_of_lookup ht (by simp [hf] : c.freeList.getLast? = some block)
    simp only [hf, List.dropLast_concat] at ha
    have hlen : n ≤ free.length := by simpa [hf] using hn
    set t₁ : BlockTable := { t with blocks := t.blocks ++ [block] } with ht₁
    obtain ⟨tables, hr, hl, hi⟩ :=
      ih (c := { c with freeList := free, tables := c.tables.insert seq t₁ }) (t := t₁)
        (AList.lookup_insert _) hlen
    have hsub : free.length + 1 - (n + 1) = free.length - n := by omega
    have hle : free.length - n ≤ free.length := Nat.sub_le _ _
    refine ⟨tables, ?_, ?_, ?_⟩
    · simp only [allocBlocks, ha, Option.bind_eq_bind, Option.bind_some, hr, hf,
        List.length_append, List.length_singleton, hsub, List.take_append_of_le_length hle]
    · simp [hl, ht₁, popped, hf, hsub, List.drop_append_of_le_length hle]
    · intro t'
      rw [hi, AList.insert_insert]

theorem append_of_unknown (h : seq ∉ c.tables) (count : ℕ) :
    c.append seq count = some (c, .error (.unknownSequence seq)) := by
  simp [append, h]

theorem append_of_full {count : ℕ} (ht : c.tables.lookup seq = some t)
    (hn : c.freeList.length < c.blocksNeededFor seq count) :
    c.append seq count =
      some (c, .error (.outOfBlocks (c.blocksNeededFor seq count) c.freeList.length)) := by
  have hm : seq ∈ c.tables := AList.lookup_isSome.mp (by simp [ht])
  simp [append, hm, hn]

theorem append_of_room {count : ℕ} (ht : c.tables.lookup seq = some t)
    (hn : c.blocksNeededFor seq count ≤ c.freeList.length) :
    c.append seq count = some (c.grown seq t (c.blocksNeededFor seq count) count, .ok ()) := by
  have hm : seq ∈ c.tables := AList.lookup_isSome.mp (by simp [ht])
  obtain ⟨tables, hr, hl, hi⟩ := allocBlocks_of_le ht hn
  simp only [append, hm, not_true, if_false, not_lt.mpr hn, hr, Option.bind_eq_bind,
    Option.bind_some, hl, hi, grown, usedBlocks, List.length_take, Option.some.injEq,
    Prod.mk.injEq, and_true, mk.injEq, true_and]
  congr 2
  omega

/-- What an append can do: refuse an unknown sequence, refuse for lack of blocks, or grow
the table. It never panics. -/
theorem append_cases (c : PagedKVCache) (seq : SeqId) (count : ℕ) :
    (seq ∉ c.tables ∧ c.append seq count = some (c, .error (.unknownSequence seq))) ∨
    (∃ t, c.tables.lookup seq = some t ∧ c.freeList.length < c.blocksNeededFor seq count ∧
      c.append seq count =
        some (c, .error (.outOfBlocks (c.blocksNeededFor seq count) c.freeList.length))) ∨
    (∃ t, c.tables.lookup seq = some t ∧ c.blocksNeededFor seq count ≤ c.freeList.length ∧
      c.append seq count =
        some (c.grown seq t (c.blocksNeededFor seq count) count, .ok ())) := by
  cases ht : c.tables.lookup seq with
  | none =>
    have hm : seq ∉ c.tables := AList.lookup_eq_none.mp ht
    exact Or.inl ⟨hm, append_of_unknown hm count⟩
  | some t =>
    rcases Nat.lt_or_ge c.freeList.length (c.blocksNeededFor seq count) with h | h
    · exact Or.inr (Or.inl ⟨t, rfl, h, append_of_full ht h⟩)
    · exact Or.inr (Or.inr ⟨t, rfl, h, append_of_room ht h⟩)

/-- The invariant of every cache built by the operations. -/
structure Valid (c : PagedKVCache) : Prop where
  partition : (c.freeList ++ c.owned).Perm (List.range c.numBlocks)
  capacity : ∀ e ∈ c.tables.entries, e.2.blocks.length = e.2.numTokens ⌈/⌉ c.blockSize
  used_le_peak : c.usedBlocks ≤ c.peakBlocks
  peak_le : c.peakBlocks ≤ c.numBlocks

theorem valid_new (numBlocks blockSize : ℕ) (h : 0 < blockSize) :
    (new numBlocks blockSize h).Valid where
  partition := by simp [new, owned]
  capacity := by simp [new]
  used_le_peak := by simp [new, usedBlocks]
  peak_le := by simp [new]

namespace Valid

theorem length_freeList_add (h : c.Valid) : c.freeList.length + c.owned.length = c.numBlocks := by
  simpa using h.partition.length_eq

theorem length_freeList_le (h : c.Valid) : c.freeList.length ≤ c.numBlocks := by
  have := h.length_freeList_add; omega

theorem capacity_of_lookup (h : c.Valid) (ht : c.tables.lookup seq = some t) :
    t.blocks.length = t.numTokens ⌈/⌉ c.blockSize :=
  h.capacity ⟨seq, t⟩ (Keyed.mem_entries_iff.mpr ht)

theorem numTokens_le (h : c.Valid) (ht : c.tables.lookup seq = some t) :
    t.numTokens ≤ t.blocks.length * c.blockSize := by
  rw [h.capacity_of_lookup ht]
  exact Blocks.le_ceilDiv_mul c.blockSize_pos _

theorem blocksNeededFor_eq (h : c.Valid) (ht : c.tables.lookup seq = some t) (count : ℕ) :
    t.numTokens ⌈/⌉ c.blockSize + c.blocksNeededFor seq count =
      (t.numTokens + count) ⌈/⌉ c.blockSize := by
  rw [Blocks.ceilDiv_add c.blockSize_pos]
  simp only [blocksNeededFor, ht, BlockTable.slack, BlockTable.capacity, h.capacity_of_lookup ht]

theorem admitSeq (h : c.Valid) (seq : SeqId) : (c.admitSeq seq).Valid := by
  unfold PagedKVCache.admitSeq
  split
  · exact h
  · next hm =>
    refine ⟨?_, ?_, h.used_le_peak, h.peak_le⟩
    · simp only [owned, AList.entries_insert_of_notMem hm, List.flatMap_cons, List.nil_append]
      exact h.partition
    · intro e he
      rw [AList.entries_insert_of_notMem hm, List.mem_cons] at he
      rcases he with rfl | he
      · simp
      · exact h.capacity e he

theorem grown (h : c.Valid) (ht : c.tables.lookup seq = some t) {count : ℕ}
    (hn : c.blocksNeededFor seq count ≤ c.freeList.length) :
    (c.grown seq t (c.blocksNeededFor seq count) count).Valid := by
  have hlen := h.length_freeList_le
  constructor
  · have hp := h.partition
    have ho := owned_perm ht
    have hf := freeList_perm c (c.blocksNeededFor seq count)
    simp only [PagedKVCache.grown, owned, Keyed.entries_insert_eq, List.flatMap_cons,
      List.perm_iff_count, List.count_append] at hp ho hf ⊢
    intro b
    have := hp b; have := ho b; have := hf b
    omega
  · intro e he
    simp only [PagedKVCache.grown, Keyed.entries_insert_eq, List.mem_cons] at he
    rcases he with rfl | he
    · have hc := h.capacity_of_lookup ht
      have hb := h.blocksNeededFor_eq ht count
      simp only [PagedKVCache.grown, List.length_append, length_popped hn]
      omega
    · exact h.capacity e ((List.kerase_sublist _ _).subset he)
  · simp only [PagedKVCache.grown, usedBlocks, List.length_take]; omega
  · have := h.peak_le
    simp only [PagedKVCache.grown]; omega

theorem free (h : c.Valid) (seq : SeqId) : (c.free seq).Valid := by
  unfold PagedKVCache.free
  split
  · exact h
  · next t ht =>
    have hp := h.partition
    have ho := owned_perm ht
    refine ⟨?_, fun e he => h.capacity e ((List.kerase_sublist _ _).subset he), ?_, h.peak_le⟩
    · simp only [owned, List.perm_iff_count, List.count_append] at hp ho ⊢
      intro b
      have := hp b; have := ho b
      omega
    · have := h.used_le_peak
      simp only [usedBlocks, List.length_append] at this ⊢
      omega

end Valid

theorem usedBlocks_grown_eq {n count : ℕ} :
    (c.grown seq t n count).usedBlocks = c.numBlocks - (c.freeList.length - n) := by
  simp only [grown, usedBlocks, List.length_take]; omega

theorem usedBlocks_free_le (c : PagedKVCache) (seq : SeqId) :
    (c.free seq).usedBlocks ≤ c.usedBlocks := by
  unfold free
  split
  · exact le_rfl
  · simp only [usedBlocks, List.length_append]; omega

@[simp] theorem peakBlocks_free (c : PagedKVCache) (seq : SeqId) :
    (c.free seq).peakBlocks = c.peakBlocks := by
  unfold free; split <;> rfl

@[simp] theorem numBlocks_free (c : PagedKVCache) (seq : SeqId) :
    (c.free seq).numBlocks = c.numBlocks := by
  unfold free; split <;> rfl

@[simp] theorem numBlocks_admitSeq (c : PagedKVCache) (seq : SeqId) :
    (c.admitSeq seq).numBlocks = c.numBlocks := by
  unfold admitSeq; split <;> rfl

theorem evictLargest_cases (c : PagedKVCache) (order : IterOrder (Σ _ : SeqId, BlockTable)) :
    ((c.evictLargest order).2 = none ∧ (c.evictLargest order).1 = c) ∨
    ∃ seq, (c.evictLargest order).2 = some seq ∧ (c.evictLargest order).1 = c.free seq := by
  unfold evictLargest
  split
  · exact Or.inl ⟨rfl, rfl⟩
  · exact Or.inr ⟨_, rfl, rfl⟩

/-- Every operation completes, keeps the invariant, and moves the high-water mark to the
new use when that is larger. -/
theorem op_spec (h : c.Valid) (o : CacheOp) :
    ∃ c', c.op o = some (c', ()) ∧ c'.Valid ∧ c'.numBlocks = c.numBlocks ∧
      c'.peakBlocks = max c.peakBlocks c'.usedBlocks := by
  have same : c.peakBlocks = max c.peakBlocks c.usedBlocks := by
    have := h.used_le_peak; omega
  have freed : ∀ seq, c.peakBlocks = max c.peakBlocks (c.free seq).usedBlocks := by
    intro seq
    have := h.used_le_peak
    have := usedBlocks_free_le c seq
    omega
  cases o with
  | call k =>
    cases k with
    | admitSeq seq =>
      refine ⟨c.admitSeq seq, rfl, h.admitSeq seq, numBlocks_admitSeq c seq, ?_⟩
      unfold PagedKVCache.admitSeq
      split <;> exact same
    | append seq count =>
      rcases append_cases c seq count with ⟨-, he⟩ | ⟨t, -, -, he⟩ | ⟨t, ht, hn, he⟩
      · exact ⟨c, by simp [op, call, he], h, rfl, same⟩
      · exact ⟨c, by simp [op, call, he], h, rfl, same⟩
      · exact ⟨_, by simp [op, call, he], h.grown ht hn, rfl, by rw [usedBlocks_grown_eq]; rfl⟩
    | free seq => exact ⟨c.free seq, rfl, h.free seq, by simp, by simpa using freed seq⟩
  | evictLargest order =>
    refine ⟨(c.evictLargest order).1, rfl, ?_⟩
    rcases evictLargest_cases c order with ⟨-, he⟩ | ⟨seq, -, he⟩
    · rw [he]; exact ⟨h, rfl, same⟩
    · rw [he]; exact ⟨h.free seq, by simp, by simpa using freed seq⟩

def usesReached (c : PagedKVCache) (ops : List CacheOp) : Set ℕ :=
  {u | ∃ past c' os, past <+: ops ∧ Machine.run op c past = some (c', os) ∧ c'.usedBlocks = u}

theorem usesReached_concat {ops : List CacheOp} {o : CacheOp} {c' : PagedKVCache}
    {os : List Unit} (h : Machine.run op c (ops ++ [o]) = some (c', os)) :
    c.usesReached (ops ++ [o]) = insert c'.usedBlocks (c.usesReached ops) := by
  ext u
  simp only [usesReached, List.prefix_concat_iff, Set.mem_ofPred_eq, Set.mem_insert_iff]
  constructor
  · rintro ⟨past, c'', os', rfl | hp, hr, rfl⟩
    · rw [h] at hr
      simp only [Option.some.injEq, Prod.mk.injEq] at hr
      exact Or.inl (by rw [hr.1])
    · exact Or.inr ⟨past, c'', os', hp, hr, rfl⟩
  · rintro (rfl | ⟨past, c'', os', hp, hr, rfl⟩)
    · exact ⟨_, c', os, Or.inl rfl, h, rfl⟩
    · exact ⟨past, c'', os', Or.inr hp, hr, rfl⟩

theorem run_spec (numBlocks blockSize : ℕ) (hb : 0 < blockSize) (ops : List CacheOp) :
    ∃ c os, Machine.run op (new numBlocks blockSize hb) ops = some (c, os) ∧ c.Valid ∧
      c.numBlocks = numBlocks ∧
      IsGreatest ((new numBlocks blockSize hb).usesReached ops) c.peakBlocks := by
  induction ops using List.reverseRecOn with
  | nil =>
    refine ⟨_, [], rfl, valid_new numBlocks blockSize hb, rfl, ?_, ?_⟩
    · exact ⟨[], _, [], List.nil_prefix, rfl, by simp [new, usedBlocks]⟩
    · rintro u ⟨past, c', os, hp, hr, rfl⟩
      obtain rfl := List.prefix_nil.mp hp
      simp only [Machine.run_nil, Option.some.injEq, Prod.mk.injEq] at hr
      obtain ⟨rfl, -⟩ := hr
      simp [new, usedBlocks]
  | append_singleton ops o ih =>
    obtain ⟨c, os, hr, hv, hN, hg⟩ := ih
    obtain ⟨c', ho, hv', hN', hp'⟩ := op_spec hv o
    have hr' := Machine.run_concat hr ho
    refine ⟨c', _, hr', hv', hN'.trans hN, ?_⟩
    rw [usesReached_concat hr', hp', max_comm]
    exact hg.insert _

end PagedKVCache

open PagedKVCache in
/-- The free list and the tables' blocks are the blocks of the cache, each once, and the
high-water mark is exactly the largest use reached. -/
theorem blocks_partitioned (numBlocks blockSize : ℕ) (hb : 0 < blockSize)
    (ops : List CacheOp) :
    ∃ c os, Machine.run op (new numBlocks blockSize hb) ops = some (c, os) ∧
      (c.freeList ++ c.owned).Perm (List.range numBlocks) ∧
      c.usedBlocks ≤ c.peakBlocks ∧ c.peakBlocks ≤ numBlocks ∧
      IsGreatest ((new numBlocks blockSize hb).usesReached ops) c.peakBlocks := by
  obtain ⟨c, os, hr, hv, hN, hg⟩ := run_spec numBlocks blockSize hb ops
  exact ⟨c, os, hr, hN ▸ hv.partition, hv.used_le_peak, hN ▸ hv.peak_le, hg⟩

open PagedKVCache in
theorem blocks_partitioned_after_eviction :
    let ops : List CacheOp :=
      [.call (.admitSeq 1), .call (.append 1 3), .call (.admitSeq 2), .call (.append 2 9),
        .call (.append 7 1), .evictLargest ⟨id, fun _ => .refl _⟩]
    ∃ c os, Machine.run op (new 4 2 (by decide)) ops = some (c, os) ∧
      (c.freeList ++ c.owned).Perm (List.range 4) ∧
      c.usedBlocks ≤ c.peakBlocks ∧ c.peakBlocks ≤ 4 ∧
      IsGreatest ((new 4 2 (by decide)).usesReached ops) c.peakBlocks :=
  blocks_partitioned 4 2 (by decide) _

end ForgeInfer
