import ForgeInfer.Cache.Basic
import ForgeInfer.Model.Basic
import Mathlib.Data.List.MinMax
import Mathlib.Data.Prod.Lex

/-! # Continuous batching

The scheduler plans one decode iteration at a time: it places waiting sequences in the
cache, preempts the least progressed running ones until the others can grow, reserves
a slot for each survivor and retires what is complete. The queue's front is the head of
its list; `none` is a panic inside the cache.
-/

namespace ForgeInfer

inductive SeqState where
  | waiting
  | running
  | preempted
  | finished
  deriving DecidableEq

structure Sequence where
  id : SeqId
  prompt : List TokenId
  output : List TokenId
  maxNewTokens : ℕ
  state : SeqState
  deriving DecidableEq

namespace Sequence

def new (id : SeqId) (prompt : List TokenId) (maxNewTokens : ℕ) : Sequence where
  id := id
  prompt := prompt
  output := []
  maxNewTokens := maxNewTokens
  state := .waiting

def totalLen (s : Sequence) : ℕ := s.prompt.length + s.output.length

/-- Whether the sequence has all the tokens it was asked for. -/
def isComplete (s : Sequence) : Bool := decide (s.maxNewTokens ≤ s.output.length)

/-- Record a generated token; an eos caps the limit at the current length. -/
def pushToken (s : Sequence) (token : TokenId) (isEos : Bool) : Sequence :=
  let output := s.output ++ [token]
  { s with
    output := output
    maxNewTokens := if isEos then output.length else s.maxNewTokens }

end Sequence

structure StepPlan where
  admitted : List SeqId := []
  decodeBatch : List SeqId := []
  preempted : List SeqId := []
  finished : List SeqId := []
  deriving DecidableEq

def StepPlan.isIdle (p : StepPlan) : Bool :=
  p.admitted.isEmpty && p.decodeBatch.isEmpty && p.preempted.isEmpty && p.finished.isEmpty

structure SchedulerConfig where
  maxBatchSize : ℕ := 8

structure Scheduler where
  config : SchedulerConfig
  cache : PagedKVCache
  waiting : List Sequence
  running : List Sequence

namespace Scheduler

def new (config : SchedulerConfig) (cache : PagedKVCache) : Scheduler where
  config := config
  cache := cache
  waiting := []
  running := []

def submit (s : Scheduler) (seq : Sequence) : Scheduler :=
  { s with waiting := s.waiting ++ [seq] }

def hasWork (s : Scheduler) : Bool := !s.waiting.isEmpty || !s.running.isEmpty

def runningSeq (s : Scheduler) (id : SeqId) : Option Sequence :=
  s.running.find? fun seq => seq.id == id

structure Admission where
  waiting : List Sequence
  cache : PagedKVCache
  running : List Sequence
  admitted : List SeqId

/-- Step 1: place waiting sequences while the batch has room and the cache can hold them. -/
def admissionLoop (maxBatchSize : ℕ) :
    List Sequence → PagedKVCache → List Sequence → List SeqId → Option Admission
  | [], cache, running, admitted => some ⟨[], cache, running, admitted⟩
  | next :: rest, cache, running, admitted =>
    if running.length < maxBatchSize then do
      let (cache, result) ← (cache.admitSeq next.id).append next.id next.totalLen
      match result with
      | .ok () =>
        admissionLoop maxBatchSize rest cache (running ++ [{ next with state := .running }])
          (admitted ++ [next.id])
      | .error _ => some ⟨next :: rest, cache.free next.id, running, admitted⟩
    else some ⟨next :: rest, cache, running, admitted⟩

/-- Blocks the running sequences that still decode need for one token each. -/
def decodeDemand (cache : PagedKVCache) (running : List Sequence) : ℕ :=
  ((running.filter fun s => s.state == .running && !s.isComplete).map fun s =>
    cache.blocksNeededFor s.id 1).sum

/-- Progress order: the least output first, ties to the largest id. -/
def progressKey (s : Sequence) : ℕ ×ₗ SeqIdᵒᵈ := toLex (s.output.length, OrderDual.toDual s.id)

def victimIdx (running : List Sequence) : Option ℕ :=
  ((running.zipIdx.filter fun si => si.1.state == .running).argmin
    fun si => progressKey si.1).map Prod.snd

structure Preemption where
  waiting : List Sequence
  cache : PagedKVCache
  running : List Sequence
  preempted : List SeqId

/-- Steps 2 and 3: preempt until the rest can decode. Each pass removes a running
sequence, so their number bounds the passes; at `0` nothing runs and the loop ends. -/
def preemptionLoop : ℕ → Preemption → Preemption
  | 0, p => p
  | n + 1, p =>
    if decodeDemand p.cache p.running ≤ p.cache.freeBlocks ∨ p.running.isEmpty then p
    else
      match victimIdx p.running with
      | none => p
      | some i =>
        match p.running[i]? with
        | none => p
        | some victim =>
          preemptionLoop n
            { waiting := { victim with state := .preempted } :: p.waiting
              cache := p.cache.free victim.id
              running := p.running.eraseIdx i
              preempted := p.preempted ++ [victim.id] }

/-- Step 2, commit: reserve the decode slot of each sequence that is not complete. -/
def commitLoop : List Sequence → PagedKVCache → List SeqId → Option (PagedKVCache × List SeqId)
  | [], cache, batch => some (cache, batch)
  | seq :: rest, cache, batch =>
    if seq.state ≠ .running ∨ seq.isComplete then commitLoop rest cache batch
    else do
      let (cache, result) ← cache.append seq.id 1
      match result with
      | .ok () => commitLoop rest cache (batch ++ [seq.id])
      | .error _ => commitLoop rest cache batch

structure Retirement where
  cache : PagedKVCache
  stillRunning : List Sequence
  finished : List SeqId

/-- Step 4: retire complete sequences and free their blocks. -/
def retireLoop : List Sequence → Retirement → Retirement
  | [], r => r
  | seq :: rest, r =>
    if seq.isComplete then
      retireLoop rest
        { r with cache := r.cache.free seq.id, finished := r.finished ++ [seq.id] }
    else retireLoop rest { r with stillRunning := r.stillRunning ++ [seq] }

def schedule (s : Scheduler) : Option (Scheduler × StepPlan) := do
  let a ← admissionLoop s.config.maxBatchSize s.waiting s.cache s.running []
  let p := preemptionLoop a.running.length ⟨a.waiting, a.cache, a.running, []⟩
  let (cache, decodeBatch) ← commitLoop p.running p.cache []
  let r := retireLoop p.running ⟨cache, [], []⟩
  some
    ({ s with cache := r.cache, waiting := p.waiting, running := r.stillRunning },
      { admitted := a.admitted
        decodeBatch := decodeBatch
        preempted := p.preempted
        finished := r.finished })

/-- Record a generated token for the first running sequence with the id, if any. -/
def pushToken (s : Scheduler) (id : SeqId) (token : TokenId) (isEos : Bool) : Scheduler :=
  { s with
    running := s.running.replaceF fun seq =>
      if seq.id = id then some (seq.pushToken token isEos) else none }

end Scheduler

inductive SchedulerOp where
  | submit (id : SeqId) (prompt : List TokenId) (maxNewTokens : ℕ)
  | schedule
  | pushToken (id : SeqId) (token : TokenId) (isEos : Bool)
  deriving DecidableEq

/-- Perform a call; `schedule` answers with its plan. -/
def Scheduler.op (s : Scheduler) : SchedulerOp → Option (Scheduler × Option StepPlan)
  | .submit id prompt maxNewTokens => some (s.submit (.new id prompt maxNewTokens), none)
  | .schedule => s.schedule.map fun r => (r.1, some r.2)
  | .pushToken id token isEos => some (s.pushToken id token isEos, none)

end ForgeInfer
