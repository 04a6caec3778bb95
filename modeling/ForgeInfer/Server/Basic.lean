import ForgeInfer.Engine.Basic
import ForgeInfer.Tokeniser.Basic

/-! # The HTTP server

Each request is served by an engine of its own over the shared model and a fresh cache. A
completion comes back as one response, or as one event for each token. `none` is a panic
of the engine; the order is the one in which its output map lists its entries.
-/

namespace ForgeInfer

abbrev OutputOrder := IterOrder (Σ _ : SeqId, List TokenId)

structure AppState where
  model : Model
  blocks : ℕ
  blockSize : ℕ
  blockSize_pos : 0 < blockSize
  maxBatchSize : ℕ

namespace Server

def newEngine (state : AppState) : Engine :=
  .new state.model ⟨state.maxBatchSize⟩ (.new state.blocks state.blockSize state.blockSize_pos)

def defaultMaxTokens : ℕ := 32

def defaultModelName : String := "forge-infer"

structure GenerateRequest where
  prompt : String
  maxTokens : ℕ := defaultMaxTokens

structure GenerateResponse where
  text : String
  promptTokens : ℕ
  completionTokens : ℕ
  deriving DecidableEq

/-- The decoded completion of a prompt, and the tokens of both. -/
def runPrompt (state : AppState) (order : OutputOrder) (prompt : String) (maxTokens : ℕ) :
    Option (String × ℕ × ℕ) := do
  let promptIds := Tokeniser.encode prompt
  let engine := (newEngine state).submit 1 promptIds maxTokens
  let outputs ← engine.runOne order
  let text := Tokeniser.decode outputs
  some (text, promptIds.length, outputs.length)

def generate (state : AppState) (order : OutputOrder) (req : GenerateRequest) :
    Option GenerateResponse := do
  let (text, promptTokens, completionTokens) ← runPrompt state order req.prompt req.maxTokens
  some ⟨text, promptTokens, completionTokens⟩

structure CompletionRequest where
  prompt : String
  maxTokens : ℕ := defaultMaxTokens
  stream : Bool := false
  model : String := defaultModelName

structure CompletionChoice where
  text : String
  index : ℕ
  finishReason : Option String
  deriving DecidableEq

structure CompletionResponse where
  id : String
  object : String
  model : String
  choices : List CompletionChoice
  deriving DecidableEq

/-- One server-sent event: a chunk of the completion, or the `[DONE]` sentinel. -/
inductive Event where
  | data (chunk : CompletionResponse)
  | done
  deriving DecidableEq

/-- The whole completion is generated first; then each token becomes an event. -/
def streamCompletion (state : AppState) (order : OutputOrder) (req : CompletionRequest) :
    Option (List Event) := do
  let promptIds := Tokeniser.encode req.prompt
  let engine := (newEngine state).submit 1 promptIds req.maxTokens
  let tokens ← engine.runOne order
  let events := tokens.map fun tok =>
    Event.data ⟨"cmpl-forge", "text_completion", req.model, [⟨Tokeniser.decodeOne tok, 0, none⟩]⟩
  some (events ++ [.done])

inductive Response where
  | json (response : CompletionResponse)
  | sse (events : List Event)
  deriving DecidableEq

def completions (state : AppState) (order : OutputOrder) (req : CompletionRequest) :
    Option Response :=
  if req.stream then (streamCompletion state order req).map .sse
  else do
    let (text, _, _) ← runPrompt state order req.prompt req.maxTokens
    some (.json ⟨"cmpl-forge", "text_completion", req.model, [⟨text, 0, some "stop"⟩]⟩)

def Event.text : Event → String
  | .data chunk => String.join (chunk.choices.map (·.text))
  | .done => ""

end Server

end ForgeInfer
