import ForgeInfer.Cache.Basic
import ForgeInfer.Foundation.Keyed

/-! # Renaming the sequences of a cache

The cache tells ids apart and does nothing else with them: under an injective renaming every
operation does the same to the renamed tables, and its answer names the renamed sequence.
-/

namespace ForgeInfer

def CacheError.rename (f : SeqId → SeqId) : CacheError → CacheError
  | .outOfBlocks needed free => .outOfBlocks needed free
  | .unknownSequence seq => .unknownSequence (f seq)

namespace PagedKVCache

variable {f : SeqId → SeqId} (hf : Function.Injective f) (c : PagedKVCache) (seq : SeqId)

def rename (c : PagedKVCache) : PagedKVCache :=
  { c with tables := Keyed.mapKeys f hf c.tables }

@[simp] theorem freeList_rename : (c.rename hf).freeList = c.freeList := rfl

@[simp] theorem freeBlocks_rename : (c.rename hf).freeBlocks = c.freeBlocks := rfl

@[simp] theorem lookup_rename : (c.rename hf).tables.lookup (f seq) = c.tables.lookup seq :=
  Keyed.lookup_mapKeys f hf c.tables seq

@[simp] theorem mem_rename : f seq ∈ (c.rename hf).tables ↔ seq ∈ c.tables :=
  Keyed.mem_mapKeys f hf c.tables seq

theorem admitSeq_rename : (c.rename hf).admitSeq (f seq) = (c.admitSeq seq).rename hf := by
  simp only [admitSeq, mem_rename]
  split
  · rfl
  · simp only [rename, Keyed.mapKeys_insert]

@[simp] theorem blocksNeededFor_rename (extraTokens : ℕ) :
    (c.rename hf).blocksNeededFor (f seq) extraTokens = c.blocksNeededFor seq extraTokens := by
  simp only [blocksNeededFor, lookup_rename]
  rfl

theorem allocBlock_rename :
    (c.rename hf).allocBlock (f seq) = (c.allocBlock seq).map (rename hf) := by
  simp only [allocBlock, lookup_rename, freeList_rename]
  cases c.freeList.getLast? with
  | none => rfl
  | some block =>
    cases c.tables.lookup seq with
    | none => rfl
    | some table =>
      simp only [rename, Option.bind_eq_bind, Option.bind_some, Option.map_some,
        Keyed.mapKeys_insert]

theorem allocBlocks_rename (n : ℕ) :
    allocBlocks n (c.rename hf) (f seq) = (allocBlocks n c seq).map (rename hf) := by
  induction n generalizing c with
  | zero => rfl
  | succ n ih =>
    simp only [allocBlocks, allocBlock_rename]
    cases c.allocBlock seq with
    | none => rfl
    | some c' => exact ih c'

theorem append_rename (count : ℕ) :
    (c.rename hf).append (f seq) count =
      (c.append seq count).map fun r => (r.1.rename hf, r.2.mapError (CacheError.rename f)) := by
  rw [append, append]
  simp only [mem_rename, blocksNeededFor_rename, freeList_rename, allocBlocks_rename]
  split
  · rfl
  · split
    · rfl
    · cases allocBlocks (c.blocksNeededFor seq count) c seq with
      | none => rfl
      | some c' =>
        simp only [Option.map_some, Option.bind_eq_bind, Option.bind_some, lookup_rename]
        cases c'.tables.lookup seq with
        | none => rfl
        | some table =>
          simp only [Option.bind_some, Option.map_some, rename, Keyed.mapKeys_insert]
          rfl

theorem free_rename : (c.rename hf).free (f seq) = (c.free seq).rename hf := by
  simp only [free, lookup_rename]
  cases c.tables.lookup seq with
  | none => rfl
  | some table => simp only [rename, Keyed.mapKeys_erase]

end PagedKVCache

end ForgeInfer
