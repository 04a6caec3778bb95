import Mathlib.Data.List.AList
import Mathlib.Algebra.Order.Floor.Div

/-! # The paged key/value cache

A stack of free blocks, a block table for every known sequence, and the high-water mark
of blocks in use. Counters are unbounded, and `none` is a panic of one of the
`expect`s inside `append`. A hash map is an association list without repeated keys;
where its iteration order shows, the order is an argument.
-/

namespace ForgeInfer

/-- Identifies a sequence. Ids are compared, never computed with. -/
abbrev SeqId := ℕ

abbrev BlockId := ℕ

/-- An order in which a hash map may list its entries. -/
structure IterOrder (α : Type*) where
  iter : List α → List α
  perm : ∀ l, (iter l).Perm l

/-- `Iterator::max_by_key`: of several maxima the last one. -/
def maxByKey {α : Type*} (key : α → ℕ) : List α → Option α
  | [] => none
  | x :: xs => some (xs.foldl (fun m y => if key m ≤ key y then y else m) x)

inductive CacheError where
  | outOfBlocks (needed free : ℕ)
  | unknownSequence (seq : SeqId)
  deriving DecidableEq

/-- The physical blocks of one sequence, and how many tokens it stores. -/
structure BlockTable where
  blocks : List BlockId := []
  numTokens : ℕ := 0
  deriving DecidableEq

namespace BlockTable

def capacity (t : BlockTable) (blockSize : ℕ) : ℕ := t.blocks.length * blockSize

/-- Slots reserved but not yet filled. -/
def slack (t : BlockTable) (blockSize : ℕ) : ℕ := t.capacity blockSize - t.numTokens

end BlockTable

/-- The block-based allocator. The free list is a stack whose top is its last element. -/
structure PagedKVCache where
  blockSize : ℕ
  blockSize_pos : 0 < blockSize
  numBlocks : ℕ
  freeList : List BlockId
  tables : AList (fun _ : SeqId => BlockTable)
  peakBlocks : ℕ

namespace PagedKVCache

def new (numBlocks blockSize : ℕ) (h : 0 < blockSize) : PagedKVCache where
  blockSize := blockSize
  blockSize_pos := h
  numBlocks := numBlocks
  freeList := List.range numBlocks
  tables := ∅
  peakBlocks := 0

def freeBlocks (c : PagedKVCache) : ℕ := c.freeList.length

def usedBlocks (c : PagedKVCache) : ℕ := c.numBlocks - c.freeList.length

/-- Register a sequence with an empty table, unless it is known. -/
def admitSeq (c : PagedKVCache) (seq : SeqId) : PagedKVCache :=
  if seq ∈ c.tables then c else { c with tables := c.tables.insert seq {} }

def contains (c : PagedKVCache) (seq : SeqId) : Bool := decide (seq ∈ c.tables)

/-- Blocks that `extraTokens` more tokens of a sequence would take. -/
def blocksNeededFor (c : PagedKVCache) (seq : SeqId) (extraTokens : ℕ) : ℕ :=
  match c.tables.lookup seq with
  | none => extraTokens ⌈/⌉ c.blockSize
  | some table =>
    let slack := table.slack c.blockSize
    if extraTokens ≤ slack then 0 else (extraTokens - slack) ⌈/⌉ c.blockSize

/-- One pass of the allocation loop: pop a free block and push it on the table. -/
def allocBlock (c : PagedKVCache) (seq : SeqId) : Option PagedKVCache := do
  let block ← c.freeList.getLast?
  let table ← c.tables.lookup seq
  some { c with
    freeList := c.freeList.dropLast
    tables := c.tables.insert seq { table with blocks := table.blocks ++ [block] } }

def allocBlocks : ℕ → PagedKVCache → SeqId → Option PagedKVCache
  | 0, c, _ => some c
  | n + 1, c, seq => do
    let c ← c.allocBlock seq
    allocBlocks n c seq

/-- Append `count` tokens to a sequence, or say why not. -/
def append (c : PagedKVCache) (seq : SeqId) (count : ℕ) :
    Option (PagedKVCache × Except CacheError Unit) :=
  if seq ∉ c.tables then some (c, .error (.unknownSequence seq))
  else
    let needed := c.blocksNeededFor seq count
    if c.freeList.length < needed then
      some (c, .error (.outOfBlocks needed c.freeList.length))
    else do
      let c ← allocBlocks needed c seq
      let table ← c.tables.lookup seq
      let c := { c with
        tables := c.tables.insert seq { table with numTokens := table.numTokens + count } }
      some ({ c with peakBlocks := max c.peakBlocks c.usedBlocks }, .ok ())

def free (c : PagedKVCache) (seq : SeqId) : PagedKVCache :=
  match c.tables.lookup seq with
  | none => c
  | some table =>
    { c with freeList := c.freeList ++ table.blocks, tables := c.tables.erase seq }

def blockTable (c : PagedKVCache) (seq : SeqId) : Option BlockTable := c.tables.lookup seq

def seqLen (c : PagedKVCache) (seq : SeqId) : ℕ :=
  ((c.tables.lookup seq).map BlockTable.numTokens).getD 0

/-- Reserved slots that hold no token yet, over all sequences. -/
def internalFragmentation (c : PagedKVCache) : ℕ :=
  (c.tables.entries.map fun e => e.2.slack c.blockSize).sum

def evictLargest (c : PagedKVCache) (order : IterOrder (Σ _ : SeqId, BlockTable)) :
    PagedKVCache × Option SeqId :=
  match maxByKey (fun e => e.2.blocks.length) (order.iter c.tables.entries) with
  | none => (c, none)
  | some victim => (c.free victim.1, some victim.1)

end PagedKVCache

inductive CacheCall where
  | admitSeq (seq : SeqId)
  | append (seq : SeqId) (count : ℕ)
  | free (seq : SeqId)

inductive CacheOp where
  | call (c : CacheCall)
  | evictLargest (order : IterOrder (Σ _ : SeqId, BlockTable))

namespace PagedKVCache

/-- Perform a call; an `append` answers with its result. -/
def call (c : PagedKVCache) : CacheCall → Option (PagedKVCache × Option (Except CacheError Unit))
  | .admitSeq seq => some (c.admitSeq seq, none)
  | .append seq count => (c.append seq count).map fun r => (r.1, some r.2)
  | .free seq => some (c.free seq, none)

def op (c : PagedKVCache) : CacheOp → Option (PagedKVCache × Unit)
  | .call k => (c.call k).map fun r => (r.1, ())
  | .evictLargest order => some ((c.evictLargest order).1, ())

end PagedKVCache

end ForgeInfer
