import ForgeInfer.Engine.Lone
import ForgeInfer.Server.Basic

/-! # Streamed and whole completions

Both endpoints run the same request through an engine of its own, so they serve the same
tokens; one decodes them together and the other each by itself. The fragments of a stream
make up the text of the whole completion unless the bytes of one character come from
several tokens.
-/

namespace ForgeInfer.Server

def limits (state : AppState) : Limits :=
  ⟨state.maxBatchSize, state.blocks, state.blockSize, state.blockSize_pos⟩

/-- The tokens that greedy decoding gives a request, as far as the loop guard and the cache
leave room for them. -/
def completion (state : AppState) (prompt : String) (maxTokens : ℕ) : List TokenId :=
  (state.model.greedy (Tokeniser.encode prompt) maxTokens).take
    (min (Engine.maxIterations + 1) ((limits state).headroom (Tokeniser.encode prompt).length))

variable (state : AppState) (order : OutputOrder)

theorem runOne_newEngine (prompt : String) (maxTokens : ℕ) :
    ((newEngine state).submit 1 (Tokeniser.encode prompt) maxTokens).runOne order =
      some (completion state prompt maxTokens) :=
  Engine.runOne_loaded (limits state) state.model ⟨1, Tokeniser.encode prompt, maxTokens⟩ order

theorem runPrompt_eq (prompt : String) (maxTokens : ℕ) :
    runPrompt state order prompt maxTokens =
      some (Tokeniser.decode (completion state prompt maxTokens),
        (Tokeniser.encode prompt).length, (completion state prompt maxTokens).length) := by
  simp only [runPrompt, runOne_newEngine, Option.bind_eq_bind, Option.bind_some]

theorem streamCompletion_eq (req : CompletionRequest) :
    streamCompletion state order req =
      some (((completion state req.prompt req.maxTokens).map fun tok =>
        Event.data ⟨"cmpl-forge", "text_completion", req.model,
          [⟨Tokeniser.decodeOne tok, 0, none⟩]⟩) ++ [.done]) := by
  simp only [streamCompletion, runOne_newEngine, Option.bind_eq_bind, Option.bind_some]

def streamedText (events : List Event) : String := String.join (events.map Event.text)

theorem streamedText_chunks (model : String) (tokens : List TokenId) :
    streamedText ((tokens.map fun tok => Event.data ⟨"cmpl-forge", "text_completion", model,
      [⟨Tokeniser.decodeOne tok, 0, none⟩]⟩) ++ [.done]) =
        String.join (tokens.map Tokeniser.decodeOne) := by
  have htext : (Event.text ∘ fun tok => Event.data ⟨"cmpl-forge", "text_completion", model,
      [⟨Tokeniser.decodeOne tok, 0, none⟩]⟩) = Tokeniser.decodeOne := by
    ext tok
    simp [Event.text]
  rw [streamedText, List.map_append, String.join_append, List.map_map, htext]
  exact String.append_empty

theorem streamed_and_whole (req : CompletionRequest) (order' : OutputOrder) :
    ∃ text promptTokens completionTokens events,
      runPrompt state order req.prompt req.maxTokens =
        some (text, promptTokens, completionTokens) ∧
      streamCompletion state order' req = some events ∧
      text = Tokeniser.decode (completion state req.prompt req.maxTokens) ∧
      streamedText events =
        String.join ((completion state req.prompt req.maxTokens).map Tokeniser.decodeOne) :=
  ⟨_, _, _, _, runPrompt_eq state order _ _, streamCompletion_eq state order' req, rfl,
    streamedText_chunks _ _⟩

/-- The fragments of any tokens make up their text, and those of any stream the text of the
whole completion, exactly when no byte of the tokens continues a character that the byte
before it starts. -/
theorem streams_same_text_iff (ts : List TokenId) (state : AppState) (req : CompletionRequest)
    (order order' : OutputOrder) :
    (String.join (ts.map Tokeniser.decodeOne) = Tokeniser.decode ts ↔ Tokeniser.Separate ts) ∧
    ∃ text promptTokens completionTokens events,
      runPrompt state order req.prompt req.maxTokens =
        some (text, promptTokens, completionTokens) ∧
      streamCompletion state order' req = some events ∧
      (streamedText events = text ↔
        Tokeniser.Separate (completion state req.prompt req.maxTokens)) := by
  constructor
  · exact Tokeniser.join_decodeOne_iff ts
  · obtain ⟨text, promptTokens, completionTokens, events, hr, hs, htext, hstream⟩ :=
      streamed_and_whole state order req order'
    refine ⟨text, promptTokens, completionTokens, events, hr, hs, ?_⟩
    rw [htext, hstream]
    exact Tokeniser.join_decodeOne_iff _

/-- A model that answers the two bytes of `é`: the whole completion is the character, and
each event of the stream is a replacement. -/
theorem split_character_is_replaced :
    let m : Model := ⟨Tokeniser.vocabSize, 1, Tokeniser.eosToken, fun ctx =>
      let byte := if ctx = [] then 0xC4 else 0xAA
      ⟨List.replicate byte 0 ++ 1 :: List.replicate (Tokeniser.vocabSize - 1 - byte) 0⟩⟩
    let state : AppState := ⟨m, 256, 16, by decide, 8⟩
    let req : CompletionRequest := ⟨"", 2, true, defaultModelName⟩
    (∃ text promptTokens completionTokens events,
      runPrompt state ⟨id, fun _ => .refl _⟩ req.prompt req.maxTokens =
        some (text, promptTokens, completionTokens) ∧
      streamCompletion state ⟨id, fun _ => .refl _⟩ req = some events ∧
      text = "é" ∧ streamedText events ≠ text) ∧
    String.join ([0xC4, 0xAA].map Tokeniser.decodeOne) ≠ Tokeniser.decode [0xC4, 0xAA] := by
  intro m state req
  have hne : String.join ([0xC4, 0xAA].map Tokeniser.decodeOne) ≠ Tokeniser.decode [0xC4, 0xAA] :=
    (Tokeniser.join_decodeOne_iff _).not.mpr (by decide)
  have hc : completion state req.prompt req.maxTokens = [0xC4, 0xAA] := by decide +kernel
  refine ⟨?_, hne⟩
  obtain ⟨text, promptTokens, completionTokens, events, hr, hs, htext, hstream⟩ :=
    streamed_and_whole state ⟨id, fun _ => .refl _⟩ req ⟨id, fun _ => .refl _⟩
  rw [hc] at htext hstream
  refine ⟨text, promptTokens, completionTokens, events, hr, hs, ?_, ?_⟩
  · rw [htext]; decide +kernel
  · rw [hstream, htext]; exact hne

end ForgeInfer.Server
