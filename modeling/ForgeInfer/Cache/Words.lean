import ForgeInfer.Cache.Frame
import ForgeInfer.Foundation.Words
import Mathlib.Algebra.BigOperators.Ring.List
import Mathlib.Algebra.Order.BigOperators.Group.List

/-! # The cache in machine words

The operations of the cache as a build computes them, word by word, with `none` for a
checked overflow too. No result leaves the range of a word as long as all the token slots
together fit in one, so both kinds of build compute what the unbounded counters do.
-/

namespace ForgeInfer

namespace WordCache

open Words PagedKVCache

def capacity (P : Profile) (t : BlockTable) (blockSize : ℕ) : Option ℕ :=
  P.mul t.blocks.length blockSize

def slack (P : Profile) (t : BlockTable) (blockSize : ℕ) : Option ℕ := do
  P.sub (← capacity P t blockSize) t.numTokens

def usedBlocks (P : Profile) (c : PagedKVCache) : Option ℕ :=
  P.sub c.numBlocks c.freeList.length

def blocksNeededFor (P : Profile) (c : PagedKVCache) (seq : SeqId) (extraTokens : ℕ) :
    Option ℕ :=
  match c.tables.lookup seq with
  | none => P.divCeil extraTokens c.blockSize
  | some table => do
    let slack ← slack P table c.blockSize
    if extraTokens ≤ slack then some 0
    else P.divCeil (← P.sub extraTokens slack) c.blockSize

def append (P : Profile) (c : PagedKVCache) (seq : SeqId) (count : ℕ) :
    Option (PagedKVCache × Except CacheError Unit) :=
  if seq ∉ c.tables then some (c, .error (.unknownSequence seq))
  else do
    let needed ← blocksNeededFor P c seq count
    if c.freeList.length < needed then
      some (c, .error (.outOfBlocks needed c.freeList.length))
    else
      let c ← allocBlocks needed c seq
      let table ← c.tables.lookup seq
      let numTokens ← P.add table.numTokens count
      let c := { c with tables := c.tables.insert seq { table with numTokens := numTokens } }
      let used ← usedBlocks P c
      some ({ c with peakBlocks := max c.peakBlocks used }, .ok ())

/-- The tables are visited in the order of the hash map. -/
def internalFragmentation (P : Profile) (c : PagedKVCache)
    (order : IterOrder (Σ _ : SeqId, BlockTable)) : Option ℕ :=
  (order.iter c.tables.entries).foldlM (fun total e => do P.add total (← slack P e.2 c.blockSize)) 0

/-- Perform an operation; only `append` computes with words. -/
def op (P : Profile) (c : PagedKVCache) : CacheOp → Option (PagedKVCache × Unit)
  | .call (.append seq count) => (append P c seq count).map fun r => (r.1, ())
  | o => c.op o

def Fits (P : Profile) (c : PagedKVCache) : Prop :=
  c.numBlocks < P.size ∧ c.numBlocks * c.blockSize < P.size

variable {P : Profile} {c : PagedKVCache} {seq : SeqId} {t : BlockTable} {count : ℕ}

theorem length_blocks_le (hv : c.Valid) (ht : c.tables.lookup seq = some t) :
    t.blocks.length ≤ c.numBlocks := by
  have hlen := hv.length_freeList_add
  have hperm := (owned_perm ht).length_eq
  rw [List.length_append] at hperm
  omega

theorem capacity_le (hv : c.Valid) (ht : c.tables.lookup seq = some t) :
    t.capacity c.blockSize ≤ c.numBlocks * c.blockSize :=
  Nat.mul_le_mul_right _ (length_blocks_le hv ht)

theorem capacity_eq (hv : c.Valid) (hf : Fits P c) (ht : c.tables.lookup seq = some t) :
    capacity P t c.blockSize = some (t.capacity c.blockSize) :=
  Profile.mul_eq ((capacity_le hv ht).trans_lt hf.2)

theorem slack_eq (hv : c.Valid) (hf : Fits P c) (ht : c.tables.lookup seq = some t) :
    slack P t c.blockSize = some (t.slack c.blockSize) := by
  rw [slack, capacity_eq hv hf ht]
  exact Profile.sub_eq (hv.numTokens_le ht) ((capacity_le hv ht).trans_lt hf.2)

theorem usedBlocks_eq (hf : c.numBlocks < P.size) (hle : c.freeList.length ≤ c.numBlocks) :
    usedBlocks P c = some c.usedBlocks :=
  Profile.sub_eq hle hf

theorem blocksNeededFor_eq (hv : c.Valid) (hf : Fits P c) (seq : SeqId) (hcount : count < P.size) :
    blocksNeededFor P c seq count = some (c.blocksNeededFor seq count) := by
  rw [blocksNeededFor, PagedKVCache.blocksNeededFor]
  cases ht : c.tables.lookup seq with
  | none => exact Profile.divCeil_eq c.blockSize_pos hcount
  | some t =>
    have hslack := slack_eq hv hf ht
    simp only [hslack, Option.bind_eq_bind, Option.bind_some]
    split
    · rfl
    · next hlt =>
      rw [Profile.sub_eq (not_le.mp hlt).le hcount]
      exact Profile.divCeil_eq c.blockSize_pos ((Nat.sub_le _ _).trans_lt hcount)

theorem append_eq (hv : c.Valid) (hf : Fits P c) (seq : SeqId) (hcount : count < P.size) :
    append P c seq count = c.append seq count := by
  have hneeded := blocksNeededFor_eq hv hf seq hcount
  rw [append, PagedKVCache.append]
  split
  · rfl
  · next hm =>
    obtain ⟨t, ht⟩ : ∃ t, c.tables.lookup seq = some t :=
      Option.isSome_iff_exists.mp (AList.lookup_isSome.mpr (not_not.mp hm))
    simp only [hneeded, Option.bind_eq_bind, Option.bind_some]
    split
    · rfl
    · next hroom =>
      have hn : c.blocksNeededFor seq count ≤ c.freeList.length := not_lt.mp hroom
      obtain ⟨tables, hr, hl, -⟩ := allocBlocks_of_le ht hn
      have hgrown := hv.grown ht hn
      -- the tokens of the grown table are in its blocks, and those are blocks of the cache
      have htokens : t.numTokens + count < P.size := by
        have hlookup : (c.grown seq t (c.blocksNeededFor seq count) count).tables.lookup seq =
            some ⟨t.blocks ++ c.popped (c.blocksNeededFor seq count), t.numTokens + count⟩ :=
          AList.lookup_insert _
        have hle := (hgrown.numTokens_le hlookup).trans (capacity_le hgrown hlookup)
        exact hle.trans_lt hf.2
      have hfree : (c.freeList.take (c.freeList.length - c.blocksNeededFor seq count)).length ≤
          c.numBlocks := (List.length_take_le' _ _).trans hv.length_freeList_le
      have hused : ∀ tables, usedBlocks P { c with
          freeList := c.freeList.take (c.freeList.length - c.blocksNeededFor seq count)
          tables := tables } = some _ := fun _ => Profile.sub_eq hfree hf.1
      simp only [hr, Option.bind_some, hl, Profile.add_eq htokens, hused]
      rfl

theorem op_eq (hv : c.Valid) (hf : Fits P c) {o : CacheOp}
    (hcount : ∀ seq count, o = .call (.append seq count) → count < P.size) :
    op P c o = c.op o := by
  cases o with
  | call k =>
    cases k with
    | admitSeq seq => rfl
    | append seq count =>
      rw [op, append_eq hv hf seq (hcount seq count rfl), PagedKVCache.op, PagedKVCache.call,
        Option.map_map]
      rfl
    | free seq => rfl
  | evictLargest order => rfl

theorem internalFragmentation_le (hv : c.Valid) :
    c.internalFragmentation ≤ c.numBlocks * c.blockSize := by
  have hlen := hv.length_freeList_add
  have hsum : c.internalFragmentation ≤
      (c.tables.entries.map fun e => e.2.blocks.length * c.blockSize).sum :=
    List.sum_le_sum fun e _ => Nat.sub_le _ _
  rw [List.sum_map_mul_right] at hsum
  have howned : (c.tables.entries.map fun e => e.2.blocks.length).sum = c.owned.length := by
    rw [owned, List.length_flatMap]
  rw [howned] at hsum
  exact hsum.trans (Nat.mul_le_mul_right _ (by omega))

theorem internalFragmentation_eq (hv : c.Valid) (hf : Fits P c)
    (order : IterOrder (Σ _ : SeqId, BlockTable)) :
    internalFragmentation P c order = some c.internalFragmentation := by
  have hperm := order.perm c.tables.entries
  have hsum : ((order.iter c.tables.entries).map fun e => e.2.slack c.blockSize).sum =
      c.internalFragmentation := (hperm.map _).sum_eq
  have hfold := Profile.foldlM_add_eq (P := P) (fun e => e.2.slack c.blockSize)
    (fun e => slack P e.2 c.blockSize) (order.iter c.tables.entries) 0
    (fun e he => slack_eq hv hf (Keyed.mem_entries_iff.mp (hperm.subset he)))
    (by rw [hsum, Nat.zero_add]; exact (internalFragmentation_le hv).trans_lt hf.2)
  rw [internalFragmentation, hfold, hsum, Nat.zero_add]

theorem append_of_too_many (hv : c.Valid) (hf : Fits P c) (ht : c.tables.lookup seq = some t)
    (hcount : count < P.size)
    (hmany : t.slack c.blockSize + c.freeList.length * c.blockSize < count) :
    append P c seq count =
      some (c, .error (.outOfBlocks (c.blocksNeededFor seq count) c.freeList.length)) := by
  rw [append_eq hv hf seq hcount]
  apply append_of_full ht
  by_contra hle
  have hneeded : c.blocksNeededFor seq count =
      if count ≤ t.slack c.blockSize then 0
      else (count - t.slack c.blockSize) ⌈/⌉ c.blockSize := by
    rw [PagedKVCache.blocksNeededFor, ht]
  rw [hneeded, if_neg (by omega), not_lt, Blocks.ceilDiv_le_iff c.blockSize_pos] at hle
  omega

/-- Induction on the script, from its end: the states are those of the unbounded cache. -/
theorem run_eq (numBlocks blockSize : ℕ) (hb : 0 < blockSize)
    (hfit : numBlocks * blockSize < P.size) (ops : List CacheOp)
    (hcounts : ∀ seq count, .call (.append seq count) ∈ ops → count < P.size) :
    ∃ c os, Machine.run (op P) (new numBlocks blockSize hb) ops = some (c, os) ∧
      Machine.run PagedKVCache.op (new numBlocks blockSize hb) ops = some (c, os) ∧ c.Valid ∧
      Fits P c ∧ c.blockSize = blockSize := by
  induction ops using List.reverseRecOn with
  | nil =>
    have hle : numBlocks ≤ numBlocks * blockSize := Nat.le_mul_of_pos_right _ hb
    exact ⟨_, [], rfl, rfl, valid_new numBlocks blockSize hb, ⟨hle.trans_lt hfit, hfit⟩, rfl⟩
  | append_singleton ops o ih =>
    obtain ⟨c, os, hw, hr, hv, hf, hs⟩ := ih fun seq count hmem =>
      hcounts seq count (List.mem_append_left _ hmem)
    obtain ⟨c', ho, hv', hN, -⟩ := op_spec hv o
    have hs' := blockSize_op ho
    have hwo : op P c o = some (c', ()) := by
      rw [op_eq hv hf, ho]
      rintro seq count rfl
      exact hcounts seq count (List.mem_append_right _ List.mem_cons_self)
    have hf' : Fits P c' := by
      rw [Fits, hN, hs']
      exact hf
    exact ⟨c', _, Machine.run_concat hw hwo, Machine.run_concat hr ho, hv', hf', hs'.trans hs⟩

end WordCache

open PagedKVCache in
/-- With 64-bit words, whether a build checks for overflow or wraps, every script has the
states of the unbounded cache when all its token slots can be counted, and every quantity of
the cache is exact in each of them. A count that does not fit is refused. -/
theorem cache_arithmetic_exact (checks : Bool) (numBlocks blockSize : ℕ) (hb : 0 < blockSize)
    (hfit : numBlocks * blockSize < 2 ^ 64) (ops : List CacheOp)
    (hcounts : ∀ seq count, .call (.append seq count) ∈ ops → count < 2 ^ 64) :
    let P := Words.usize checks
    ∃ c os, Machine.run (WordCache.op P) (new numBlocks blockSize hb) ops = some (c, os) ∧
      Machine.run op (new numBlocks blockSize hb) ops = some (c, os) ∧
      WordCache.usedBlocks P c = some c.usedBlocks ∧
      (∀ order, WordCache.internalFragmentation P c order = some c.internalFragmentation) ∧
      (∀ seq t, c.blockTable seq = some t →
        WordCache.capacity P t blockSize = some (t.capacity blockSize) ∧
        WordCache.slack P t blockSize = some (t.slack blockSize)) ∧
      ∀ seq count, count < 2 ^ 64 →
        WordCache.blocksNeededFor P c seq count = some (c.blocksNeededFor seq count) ∧
        WordCache.append P c seq count = c.append seq count ∧
        ∀ t, c.blockTable seq = some t → t.slack blockSize + c.freeBlocks * blockSize < count →
          WordCache.append P c seq count =
            some (c, .error (.outOfBlocks (c.blocksNeededFor seq count) c.freeBlocks)) := by
  intro P
  obtain ⟨c, os, hw, hr, hv, hf, rfl⟩ :=
    WordCache.run_eq (P := P) numBlocks blockSize hb hfit ops hcounts
  refine ⟨c, os, hw, hr, WordCache.usedBlocks_eq hf.1 hv.length_freeList_le,
    WordCache.internalFragmentation_eq hv hf, ?_, ?_⟩
  · intro seq t ht
    exact ⟨WordCache.capacity_eq hv hf ht, WordCache.slack_eq hv hf ht⟩
  · intro seq count hcount
    exact ⟨WordCache.blocksNeededFor_eq hv hf seq hcount, WordCache.append_eq hv hf seq hcount,
      fun t ht hmany => WordCache.append_of_too_many hv hf ht hcount hmany⟩

open PagedKVCache in
/-- Counts at the top of the range, in a cache whose slots can just be counted. -/
theorem cache_arithmetic_exact_at_limit :
    let ops : List CacheOp :=
      [.call (.admitSeq 1), .call (.append 1 (2 ^ 63)), .call (.append 1 (2 ^ 64 - 1)),
        .evictLargest ⟨id, fun _ => .refl _⟩, .call (.append 1 1)]
    let P := Words.usize false
    ∃ c os, Machine.run (WordCache.op P) (new 1 (2 ^ 64 - 1) (by decide)) ops = some (c, os) ∧
      Machine.run op (new 1 (2 ^ 64 - 1) (by decide)) ops = some (c, os) ∧
      WordCache.usedBlocks P c = some c.usedBlocks ∧
      (∀ order, WordCache.internalFragmentation P c order = some c.internalFragmentation) ∧
      (∀ seq t, c.blockTable seq = some t →
        WordCache.capacity P t (2 ^ 64 - 1) = some (t.capacity (2 ^ 64 - 1)) ∧
        WordCache.slack P t (2 ^ 64 - 1) = some (t.slack (2 ^ 64 - 1))) ∧
      ∀ seq count, count < 2 ^ 64 →
        WordCache.blocksNeededFor P c seq count = some (c.blocksNeededFor seq count) ∧
        WordCache.append P c seq count = c.append seq count ∧
        ∀ t, c.blockTable seq = some t →
          t.slack (2 ^ 64 - 1) + c.freeBlocks * (2 ^ 64 - 1) < count →
          WordCache.append P c seq count =
            some (c, .error (.outOfBlocks (c.blocksNeededFor seq count) c.freeBlocks)) := by
  refine cache_arithmetic_exact false 1 (2 ^ 64 - 1) (by decide) (by decide) _ ?_
  intro seq count h
  simp only [List.mem_cons, List.not_mem_nil, reduceCtorEq, CacheOp.call.injEq,
    CacheCall.append.injEq, or_false, false_or] at h
  omega

end ForgeInfer
