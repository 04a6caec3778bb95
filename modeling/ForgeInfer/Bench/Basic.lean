import ForgeInfer.Engine.Drive
import ForgeInfer.Model.TinyTransformer
import ForgeInfer.Server.Basic
import ForgeInfer.Speculative.Basic

/-! # The benchmark

It serves one workload in three ways: with a fresh engine for each request, with one engine
for all of them, and by speculation. Clocks and the printed table are left out. The workload
is an argument, and `requests` the one it is run on; so is the order in which each engine's
output map lists its entries.
-/

namespace ForgeInfer.Bench

open Binary32

def numRequests : ℕ := 64

def promptLen : ℕ := 16

def maxNew : ℕ := 64

def model : TinyTransformer :=
  (TinyTransformer.new Tokeniser.vocabSize 6).withEos Tokeniser.eosToken

def draft : TinyTransformer :=
  (TinyTransformer.draft Tokeniser.vocabSize 6).withEos Tokeniser.eosToken

def prompt (i : ℕ) : List TokenId :=
  (List.range promptLen).map fun j => UInt32.ofNat ((i * 7 + j * 3) % 200 + 1)

def requests : List Request := (List.range numRequests).map fun i => ⟨i, prompt i, maxNew⟩

theorem wellFormed_model : model.WellFormed := ⟨by decide, by decide, by decide⟩

theorem wellFormed_draft : draft.WellFormed := ⟨by decide, by decide, by decide⟩

def decoder : SpeculativeDecoder where
  draft := draft.toModel wellFormed_draft
  target := model.toModel wellFormed_model
  lookahead := 4
  lookahead_pos := by decide
  vocab_eq := rfl

/-- `total_tokens += o.tokens.len()` for each output. -/
def addTokens (total : ℕ) (outputs : List GenerationOutput) : ℕ :=
  outputs.foldl (fun total o => total + o.tokens.length) total

/-- A fresh engine of batch size one for each request. -/
def runSequential (m : Model) (order : SeqId → OutputOrder) (reqs : List Request) : Option ℕ :=
  reqs.foldlM (fun total r => do
    let eng := (Engine.new m ⟨1⟩ (.new 256 16 (by decide))).submit r.id r.prompt r.maxNewTokens
    let outputs ← eng.runToCompletion (order r.id)
    some (addTokens total outputs)) 0

/-- One engine of batch size sixteen for all requests: the tokens and the peak of blocks. -/
def runContinuous (m : Model) (order : OutputOrder) (reqs : List Request) : Option (ℕ × ℕ) := do
  let eng := (Engine.new m ⟨16⟩ (.new 2048 16 (by decide))).submitAll reqs
  let (eng, outputs, _) ← Engine.completionLoop Engine.maxIterations eng ∅
  some (addTokens 0 (Engine.results order outputs), eng.scheduler.cache.peakBlocks)

def runSpeculative (d : SpeculativeDecoder) (prob : ProbOf) (reqs : List Request) : ℕ × F32 :=
  let sums := reqs.foldl (fun sums r =>
    let (toks, rate) := d.generate prob r.prompt r.maxNewTokens
    (sums.1 + toks.length, sums.2 + rate)) ((0, 0) : ℕ × F32)
  (sums.1, sums.2 / F32.round reqs.length)

end ForgeInfer.Bench
