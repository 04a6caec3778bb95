import ForgeInfer.Model.Basic

/-! # Speculative decoding

A draft model proposes a run of tokens and the target verifies it. A proposal is kept
when a pseudo-random draw falls below the ratio of its two probabilities; the first one
that is not is replaced by the target's own choice. The probability a model gives to a
token is an argument, since it goes through an exponential.
-/

namespace ForgeInfer

open Binary32

structure SpeculationResult where
  tokens : List TokenId
  accepted : ℕ
  drafted : ℕ
  deriving DecidableEq

structure SpeculativeDecoder where
  draft : Model
  target : Model
  lookahead : ℕ
  lookahead_pos : 1 ≤ lookahead
  vocab_eq : draft.vocabSize = target.vocabSize

abbrev ProbOf := StepLogits → TokenId → F32

namespace SpeculativeDecoder

/-- The loop of `draft_run`: `k` proposals at most, ending at the draft's eos. -/
def draftLoop (draft : Model) : ℕ → List TokenId → List (TokenId × StepLogits)
  | 0, _ => []
  | k + 1, ctx =>
    let logits := draft.forward ctx
    let tok := logits.argmax
    (tok, logits) :: if tok = draft.eosToken then [] else draftLoop draft k (ctx ++ [tok])

def draftRun (d : SpeculativeDecoder) (context : List TokenId) : List (TokenId × StepLogits) :=
  draftLoop d.draft d.lookahead context

def acceptanceHash (context : List TokenId) (position : ℕ) : UInt64 :=
  let h := context.foldl (fun h t => (h ^^^ t.toUInt64) * 0x100000001B3) 0xD1B54A32D192ED03
  (h ^^^ UInt64.ofNat position) * 0x2545F4914F6CDD1D

def acceptanceDraw (context : List TokenId) (position : ℕ) : F32 :=
  F32.round ((acceptanceHash context position >>> 11).toNat : ℚ) / F32.round (2 ^ 53)

/-- The acceptance probability of a token of target mass `p` and draft mass `q`. -/
def acceptProb (p q : F32) : F32 := if q ≤ 0 then 1 else min (p / q) 1

def accepts (prob : ProbOf) (ctx : List TokenId) (pos : ℕ) (targetLogits draftLogits : StepLogits)
    (tok : TokenId) : Bool :=
  decide (acceptanceDraw ctx pos < acceptProb (prob targetLogits tok) (prob draftLogits tok))

/-- An acceptance test: context, position, target and draft logits, and the proposal. -/
abbrev AcceptTest := List TokenId → ℕ → StepLogits → StepLogits → TokenId → Bool

/-- The verification loop: the rest of the run, its first position, the context so far,
and the tokens kept and counted so far. -/
def verifyLoop (target : Model) (test : AcceptTest) (drafted : ℕ) :
    List (TokenId × StepLogits) → ℕ → List TokenId → List TokenId → ℕ → SpeculationResult
  | [], _, ctx, out, accepted => ⟨out ++ [(target.forward ctx).argmax], accepted, drafted⟩
  | (tok, draftLogits) :: run, pos, ctx, out, accepted =>
    let targetLogits := target.forward ctx
    if test ctx pos targetLogits draftLogits tok then
      if tok = target.eosToken then ⟨out ++ [tok], accepted + 1, drafted⟩
      else verifyLoop target test drafted run (pos + 1) (ctx ++ [tok]) (out ++ [tok]) (accepted + 1)
    else ⟨out ++ [targetLogits.argmax], accepted, drafted⟩

/-- One round of drafting and verifying, over a given acceptance test. -/
def stepWith (d : SpeculativeDecoder) (test : AcceptTest) (context : List TokenId) :
    SpeculationResult :=
  let run := d.draftRun context
  verifyLoop d.target test run.length run 0 context [] 0

def step (d : SpeculativeDecoder) (prob : ProbOf) (context : List TokenId) : SpeculationResult :=
  d.stepWith (accepts prob) context

/-- What the generation loop carries: the context, the tokens generated, and the totals. -/
structure Generation where
  ctx : List TokenId
  generated : List TokenId
  totalAccepted : ℕ
  totalDrafted : ℕ

/-- Append the tokens of a round up to the limit; `true` when a target eos ended it. -/
def appendLoop (eos : TokenId) (maxNew : ℕ) : List TokenId → Generation → Generation × Bool
  | [], g => (g, false)
  | tok :: toks, g =>
    if maxNew ≤ g.generated.length then (g, false)
    else
      let g := { g with ctx := g.ctx ++ [tok], generated := g.generated ++ [tok] }
      if tok = eos then (g, true) else appendLoop eos maxNew toks g

/-- Rounds until the limit or an eos. A round generates at least one token, so
the tokens still wanted bound the rounds; at `0` the loop condition fails. -/
def generateLoop (d : SpeculativeDecoder) (test : AcceptTest) (maxNew : ℕ) :
    ℕ → Generation → Generation
  | 0, g => g
  | n + 1, g =>
    if g.generated.length < maxNew then
      let result := d.stepWith test g.ctx
      let r := appendLoop d.target.eosToken maxNew result.tokens
        { g with
          totalAccepted := g.totalAccepted + result.accepted
          totalDrafted := g.totalDrafted + result.drafted }
      if r.2 then r.1 else generateLoop d test maxNew n r.1
    else g

def generateWith (d : SpeculativeDecoder) (test : AcceptTest) (prompt : List TokenId)
    (maxNew : ℕ) : Generation :=
  generateLoop d test maxNew maxNew ⟨prompt, [], 0, 0⟩

def rate (totalAccepted totalDrafted : ℕ) : F32 :=
  if totalDrafted = 0 then 0 else F32.round totalAccepted / F32.round totalDrafted

def generate (d : SpeculativeDecoder) (prob : ProbOf) (prompt : List TokenId) (maxNew : ℕ) :
    List TokenId × F32 :=
  let g := d.generateWith (accepts prob) prompt maxNew
  (g.generated, rate g.totalAccepted g.totalDrafted)

end SpeculativeDecoder

end ForgeInfer
