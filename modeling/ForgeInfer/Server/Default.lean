import ForgeInfer.Model.Window
import ForgeInfer.Server.Streaming
import ForgeInfer.Tokeniser.RoundTrip

/-! # What the endpoints answer

A completion is greedy decoding with the limit cut to the room of the cache, and the answers
of all endpoints account for its tokens. Over the deterministic model it depends on the last
eight bytes of the prompt alone.
-/

namespace ForgeInfer

namespace Tokeniser

theorem length_encode (text : String) : (encode text).length = text.utf8ByteSize := by
  rw [encode, List.length_map, ← String.size_toByteArray, ← String.utf8Encode_toList,
    List.utf8Encode, List.size_toByteArray]

theorem encode_append (s t : String) : encode (s ++ t) = encode s ++ encode t := by
  rw [encode, String.toList_append, List.flatMap_append, List.map_append]
  rfl

end Tokeniser

def defaultModel : TinyTransformer :=
  (TinyTransformer.new Tokeniser.vocabSize 6).withEos Tokeniser.eosToken

theorem wellFormed_defaultModel : defaultModel.WellFormed := ⟨by decide, by decide, by decide⟩

def defaultState : AppState where
  model := defaultModel.toModel wellFormed_defaultModel
  blocks := 512
  blockSize := 16
  blockSize_pos := Nat.succ_pos 15
  maxBatchSize := 16

namespace Server

/-- The tokens a request can get: its limit, as far as the loop guard and the cache go. -/
def room (state : AppState) (prompt : String) (maxTokens : ℕ) : ℕ :=
  min maxTokens
    (min (Engine.maxIterations + 1) (state.blocks * state.blockSize - prompt.utf8ByteSize))

variable {state : AppState}

theorem completion_eq_greedy (h : 1 ≤ state.maxBatchSize) (prompt : String) (maxTokens : ℕ) :
    completion state prompt maxTokens =
      state.model.greedy (Tokeniser.encode prompt) (room state prompt maxTokens) := by
  have hhead : (limits state).headroom (Tokeniser.encode prompt).length =
      state.blocks * state.blockSize - prompt.utf8ByteSize := by
    rw [Tokeniser.length_encode]
    exact if_neg (Nat.ne_of_gt h)
  rw [completion, hhead, room]
  exact Greedy.take_decode _ _ _

def chunk (model : String) (tok : TokenId) : Event :=
  .data ⟨"cmpl-forge", "text_completion", model, [⟨Tokeniser.decodeOne tok, 0, none⟩]⟩

theorem completions_eq (order : OutputOrder) (req : CompletionRequest) :
    completions state order req = some
      (if req.stream then
        .sse ((completion state req.prompt req.maxTokens).map (chunk req.model) ++ [.done])
      else .json ⟨"cmpl-forge", "text_completion", req.model,
        [⟨Tokeniser.decode (completion state req.prompt req.maxTokens), 0, some "stop"⟩]⟩) := by
  rw [completions]
  split
  · rw [streamCompletion_eq]
    rfl
  · rw [runPrompt_eq]
    rfl

/-- Every endpoint answers with greedy decoding whose limit is cut to the room of the cache:
it counts the prompt's bytes and the tokens, which fill the room unless the last is an eos,
and a stream has an event for each token and a sentinel. -/
theorem endpoints_account_for_tokens (state : AppState) (h : 1 ≤ state.maxBatchSize)
    (order : OutputOrder) (prompt : String) (maxTokens : ℕ) (model : String) :
    let n := room state prompt maxTokens
    let toks := state.model.greedy (Tokeniser.encode prompt) n
    generate state order ⟨prompt, maxTokens⟩ =
        some ⟨Tokeniser.decode toks, prompt.utf8ByteSize, toks.length⟩ ∧
      completions state order ⟨prompt, maxTokens, false, model⟩ = some (.json ⟨"cmpl-forge",
        "text_completion", model, [⟨Tokeniser.decode toks, 0, some "stop"⟩]⟩) ∧
      completions state order ⟨prompt, maxTokens, true, model⟩ =
        some (.sse (toks.map (chunk model) ++ [.done])) ∧
      toks.length ≤ n ∧
      (toks.length < n → toks.getLast? = some state.model.eosToken) ∧
      ∀ i, toks[i]? = some state.model.eosToken → i + 1 = toks.length := by
  intro n toks
  have htoks : completion state prompt maxTokens = toks := completion_eq_greedy h prompt maxTokens
  refine ⟨?_, ?_, ?_, ?_, ?_, ?_⟩
  · rw [generate, runPrompt_eq, Tokeniser.length_encode, htoks]
    rfl
  · rw [completions_eq, htoks]
    rfl
  · rw [completions_eq, htoks]
    rfl
  · exact Greedy.length_decode_le _ n
  · intro hshort
    by_contra hlast
    exact hshort.ne (Greedy.length_decode_eq n hlast)
  · exact fun i => Greedy.last_of_decode

/-- The standard server, on a prompt that fills its cache up to one token. -/
theorem endpoints_account_for_tokens_of_default :
    let prompt := String.ofList (List.replicate 8191 'a')
    let n := room defaultState prompt defaultMaxTokens
    let toks := defaultState.model.greedy (Tokeniser.encode prompt) n
    let order : OutputOrder := ⟨id, fun _ => .refl _⟩
    generate defaultState order ⟨prompt, defaultMaxTokens⟩ =
        some ⟨Tokeniser.decode toks, prompt.utf8ByteSize, toks.length⟩ ∧
      completions defaultState order ⟨prompt, defaultMaxTokens, false, defaultModelName⟩ =
        some (.json ⟨"cmpl-forge", "text_completion", defaultModelName,
          [⟨Tokeniser.decode toks, 0, some "stop"⟩]⟩) ∧
      completions defaultState order ⟨prompt, defaultMaxTokens, true, defaultModelName⟩ =
        some (.sse (toks.map (chunk defaultModelName) ++ [.done])) ∧
      toks.length ≤ n ∧
      (toks.length < n → toks.getLast? = some defaultState.model.eosToken) ∧
      ∀ i, toks[i]? = some defaultState.model.eosToken → i + 1 = toks.length := by
  intro prompt n toks order
  exact endpoints_account_for_tokens defaultState (by decide) order prompt defaultMaxTokens
    defaultModelName

theorem room_of_fits {prompt : String} {maxTokens : ℕ}
    (h : prompt.utf8ByteSize + maxTokens ≤ state.blocks * state.blockSize) :
    room state prompt maxTokens = min maxTokens (Engine.maxIterations + 1) := by
  unfold room
  omega

/-- Over the deterministic model, prompts with the same end of at least eight bytes are
completed alike as far as both leave room, in whatever order the output maps list. -/
theorem completions_read_last_bytes (m : TinyTransformer) (hm : m.WellFormed) (L : ℕ) (hL : 8 ≤ L)
    (hpin : ∀ c ∈ m.pinned, c.length < L) (state : AppState) (hstate : state.model = m.toModel hm)
    (hbatch : 1 ≤ state.maxBatchSize) (u v w : String) (hw : L ≤ w.utf8ByteSize) (maxTokens : ℕ)
    (hu : (u ++ w).utf8ByteSize + maxTokens ≤ state.blocks * state.blockSize)
    (hv : (v ++ w).utf8ByteSize + maxTokens ≤ state.blocks * state.blockSize)
    (order order' : OutputOrder) (stream : Bool) (model : String) :
    completions state order ⟨u ++ w, maxTokens, stream, model⟩ =
      completions state order' ⟨v ++ w, maxTokens, stream, model⟩ := by
  have hend : ∀ s : String, TinyTransformer.window (Tokeniser.encode (s ++ w)) =
      TinyTransformer.window (Tokeniser.encode w) := by
    intro s
    rw [Tokeniser.encode_append]
    apply TinyTransformer.window_append
    rw [Tokeniser.length_encode]
    omega
  have hlong : ∀ s : String, L ≤ (Tokeniser.encode (s ++ w)).length := by
    intro s
    rw [Tokeniser.encode_append, List.length_append, Tokeniser.length_encode w]
    omega
  have hsame : completion state (u ++ w) maxTokens = completion state (v ++ w) maxTokens := by
    rw [completion_eq_greedy hbatch, completion_eq_greedy hbatch, room_of_fits hu, room_of_fits hv,
      hstate]
    exact TinyTransformer.greedy_eq_of_window hm hL hpin (hlong u) (hlong v)
      ((hend u).trans (hend v).symm) _
  rw [completions_eq, completions_eq]
  change some (if stream then _ else _) = some (if stream then _ else _)
  rw [hsame]

theorem completions_read_last_bytes_of_default :
    completions defaultState ⟨id, fun _ => .refl _⟩
        ⟨"the paged cache " ++ "serves tokens", 32, true, defaultModelName⟩ =
      completions defaultState ⟨List.reverse, List.reverse_perm⟩
        ⟨"the scheduler " ++ "serves tokens", 32, true, defaultModelName⟩ := by
  apply completions_read_last_bytes defaultModel wellFormed_defaultModel 8 le_rfl
  · exact fun c hc => absurd hc (AList.notMem_empty c)
  · rfl
  · decide
  · decide
  · decide
  · decide

end Server

end ForgeInfer
