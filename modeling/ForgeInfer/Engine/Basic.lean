import ForgeInfer.Scheduler.Basic

/-! # The inference engine

The loop that joins the scheduler to the model: plan an iteration, run one forward pass
for each sequence of the decode batch and feed the tokens back. `none` is a panic.
-/

namespace ForgeInfer

/-- One generated token: the request, the token, and whether it is an eos. -/
abbrev Emission := SeqId × TokenId × Bool

structure GenerationOutput where
  id : SeqId
  tokens : List TokenId
  deriving DecidableEq

structure Engine where
  scheduler : Scheduler
  model : Model

inductive LoopExit where
  | drained
  | guard
  deriving DecidableEq

namespace Engine

def new (model : Model) (config : SchedulerConfig) (cache : PagedKVCache) : Engine where
  scheduler := .new config cache
  model := model

def submit (e : Engine) (id : SeqId) (prompt : List TokenId) (maxNewTokens : ℕ) : Engine :=
  { e with scheduler := e.scheduler.submit (.new id prompt maxNewTokens) }

/-- The forward passes of one iteration, in batch order. -/
def decodeLoop (model : Model) :
    List SeqId → Scheduler → List Emission → Option (Scheduler × List Emission)
  | [], s, emitted => some (s, emitted)
  | id :: ids, s, emitted => do
    let seq ← s.runningSeq id
    let context := seq.prompt ++ seq.output
    let token := (model.forward context).argmax
    let isEos := token == model.eosToken
    decodeLoop model ids (s.pushToken id token isEos) (emitted ++ [(id, token, isEos)])

def stepWithPlan (e : Engine) : Option (Engine × StepPlan × List Emission) := do
  let (scheduler, plan) ← e.scheduler.schedule
  let (scheduler, emitted) ← decodeLoop e.model plan.decodeBatch scheduler []
  some ({ e with scheduler := scheduler }, plan, emitted)

def step (e : Engine) : Option (Engine × List Emission) :=
  e.stepWithPlan.map fun r => (r.1, r.2.2)

abbrev Outputs := AList (fun _ : SeqId => List TokenId)

/-- `outputs.entry(id).or_default().push(token)` for each token of an iteration. -/
def record (outputs : Outputs) (emitted : List Emission) : Outputs :=
  emitted.foldl (fun o t => o.insert t.1 ((o.lookup t.1).getD [] ++ [t.2.1])) outputs

/-- Step while there is work. The argument counts the iterations left before the guard
stops the loop: it passes `maxIterations` after one more than that many. -/
def completionLoop : ℕ → Engine → Outputs → Option (Engine × Outputs × LoopExit)
  | 0, e, outputs =>
    if e.scheduler.hasWork then do
      let (e, emitted) ← e.step
      some (e, record outputs emitted, .guard)
    else some (e, outputs, .drained)
  | n + 1, e, outputs =>
    if e.scheduler.hasWork then do
      let (e, emitted) ← e.step
      completionLoop n e (record outputs emitted)
    else some (e, outputs, .drained)

def maxIterations : ℕ := 1000000

/-- The outputs, listed by a hash map in some order and then sorted by id. -/
def results (order : IterOrder (Σ _ : SeqId, List TokenId)) (outputs : Outputs) :
    List GenerationOutput :=
  ((order.iter outputs.entries).map fun e => (⟨e.1, e.2⟩ : GenerationOutput)).insertionSort
    fun a b => a.id ≤ b.id

def runToCompletion (e : Engine) (order : IterOrder (Σ _ : SeqId, List TokenId)) :
    Option (List GenerationOutput) :=
  (completionLoop maxIterations e ∅).map fun r => results order r.2.1

/-- The tokens of the first output, empty when there is none. -/
def runOne (e : Engine) (order : IterOrder (Σ _ : SeqId, List TokenId)) :
    Option (List TokenId) :=
  (e.runToCompletion order).map fun outputs => (outputs.head?.map (·.tokens)).getD []

end Engine

inductive EngineOp where
  | submit (id : SeqId) (prompt : List TokenId) (maxNewTokens : ℕ)
  | step
  deriving DecidableEq

/-- Perform a call; a step answers with its plan and its tokens. -/
def Engine.op (e : Engine) : EngineOp → Option (Engine × Option (StepPlan × List Emission))
  | .submit id prompt maxNewTokens => some (e.submit id prompt maxNewTokens, none)
  | .step => e.stepWithPlan.map fun r => (r.1, some r.2)

end ForgeInfer
