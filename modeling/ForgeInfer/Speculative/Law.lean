import ForgeInfer.Foundation.Rejection
import ForgeInfer.Speculative.Exactness

/-! # The law of the first token

A round with exact probabilities, and with independent uniform draws in place of the hash.
Its first token is the draft's greedy choice or the target's, so a round has the target's
law only over a vocabulary of one token.
-/

namespace ForgeInfer

namespace Model

def vocabulary (m : Model) : Finset TokenId := (Finset.range m.vocabSize).image UInt32.ofNat

theorem mem_vocabulary {m : Model} {x : TokenId} : x ∈ m.vocabulary ↔ x.toNat < m.vocabSize := by
  rw [vocabulary, Finset.mem_image]
  constructor
  · rintro ⟨i, hi, rfl⟩
    rw [UInt32.toNat_ofNat']
    exact (Nat.mod_le _ _).trans_lt (Finset.mem_range.mp hi)
  · intro h
    exact ⟨x.toNat, Finset.mem_range.mpr h, UInt32.ofNat_toNat⟩

theorem card_vocabulary_eq_one_iff {m : Model} : m.vocabulary.card = 1 ↔ m.vocabSize = 1 := by
  constructor
  · intro h
    obtain ⟨x, hx⟩ := Finset.card_eq_one.mp h
    have hle : m.vocabSize ≤ 1 := by
      by_contra hlt
      have h0 : (0 : TokenId) ∈ m.vocabulary := mem_vocabulary.mpr (by
        change 0 < _
        omega)
      have h1 : (1 : TokenId) ∈ m.vocabulary := mem_vocabulary.mpr (by
        change 1 < _
        omega)
      rw [hx, Finset.mem_singleton] at h0 h1
      exact absurd (h0.trans h1.symm) (by decide)
    have hpos := mem_vocabulary.mp (hx ▸ Finset.mem_singleton_self x)
    omega
  · intro h
    rw [vocabulary, h]
    rfl

/-- A next-token law: a logit for every token, and exact positive probabilities of them. -/
structure HasLaw (m : Model) (prob : StepLogits → TokenId → ℝ) (ctx : List TokenId) : Prop where
  length_eq : (m.forward ctx).logits.length = m.vocabSize
  isLaw : Rejection.IsLaw m.vocabulary (prob (m.forward ctx))

variable {m : Model} {prob : StepLogits → TokenId → ℝ} {ctx : List TokenId}

theorem HasLaw.next_mem (h : m.HasLaw prob ctx) : m.next ctx ∈ m.vocabulary := by
  have hne : (m.forward ctx).logits ≠ [] := by
    intro hnil
    have hsize := h.length_eq
    have hsum := h.isLaw.sum_eq
    rw [hnil, List.length_nil] at hsize
    rw [vocabulary, ← hsize, Finset.range_zero, Finset.image_empty, Finset.sum_empty] at hsum
    exact zero_ne_one hsum
  rw [mem_vocabulary, ← h.length_eq]
  exact StepLogits.argmax_lt hne

end Model

namespace SpeculativeDecoder

noncomputable def exactAcceptProb (p q : ℝ) : ℝ := if q ≤ 0 then 1 else min (p / q) 1

/-- The acceptance test with a draw for each position, on the probabilities `p` that the
target's logits give and `q` that the draft's give. -/
noncomputable def drawTest (p q : StepLogits → TokenId → ℝ) (draw : ℕ → ℝ) : AcceptTest :=
  fun _ pos targetLogits draftLogits tok =>
    decide (draw pos < exactAcceptProb (p targetLogits tok) (q draftLogits tok))

variable {d : SpeculativeDecoder} {p q : StepLogits → TokenId → ℝ} {ctx : List TokenId}

theorem head_tokens (d : SpeculativeDecoder) (test : AcceptTest) (ctx : List TokenId) :
    (d.stepWith test ctx).tokens.head? = some (d.choose test 0 ctx) := by
  change (d.roundFrom test (d.draftRun ctx).length 0 ctx).tokens.head? = _
  rw [choose]
  split
  · next h => rw [tokens_of_keeps h]; rfl
  · next h => rw [tokens_of_not_keeps (by simpa using h)]; rfl

noncomputable def keepProb (d : SpeculativeDecoder) (p q : StepLogits → TokenId → ℝ)
    (ctx : List TokenId) : ℝ :=
  min (p (d.target.forward ctx) (d.draft.next ctx) / q (d.draft.forward ctx) (d.draft.next ctx)) 1

theorem vocabulary_eq (d : SpeculativeDecoder) : d.draft.vocabulary = d.target.vocabulary := by
  rw [Model.vocabulary, Model.vocabulary, d.vocab_eq]

theorem keepProb_nonneg (hp : d.target.HasLaw p ctx) (hq : d.draft.HasLaw q ctx) :
    0 ≤ d.keepProb p q ctx := by
  have hp0 := hp.isLaw.pos _ (d.vocabulary_eq ▸ hq.next_mem)
  have hq0 := hq.isLaw.pos _ hq.next_mem
  exact le_min (div_nonneg hp0.le hq0.le) zero_le_one

theorem choose_drawTest (hq : d.draft.HasLaw q ctx) (draw : ℕ → ℝ) :
    d.choose (drawTest p q draw) 0 ctx =
      if draw 0 < d.keepProb p q ctx then d.draft.next ctx else d.target.next ctx := by
  have hpos := hq.isLaw.pos _ hq.next_mem
  have hk : d.keeps (drawTest p q draw) 0 ctx = decide (draw 0 < d.keepProb p q ctx) := by
    rw [keeps, drawTest, exactAcceptProb, if_neg (not_le.mpr hpos), keepProb]
    simp only [Nat.lt_of_succ_le d.lookahead_pos, decide_true, Bool.true_and]
  rw [choose, hk]
  simp only [decide_eq_true_eq]

/-- The law of the first token: the two greedy choices, mixed as the test keeps the draft's. -/
theorem draws_first (hp : d.target.HasLaw p ctx) (hq : d.draft.HasLaw q ctx) (x : TokenId) :
    Rejection.draws {draw | (d.stepWith (drawTest p q draw) ctx).tokens.head? = some x} =
      ENNReal.ofReal
        (Rejection.mix (d.keepProb p q ctx) (d.draft.next ctx) (d.target.next ctx) x) := by
  rw [← Rejection.draws_pick 0 (keepProb_nonneg hp hq) (min_le_right _ _)]
  congr 1
  ext draw
  rw [Set.mem_ofPred_eq, Set.mem_ofPred_eq, head_tokens, choose_drawTest hq, Option.some.injEq]

end SpeculativeDecoder

theorem hasLaw_coin (ctx : List TokenId) :
    Model.HasLaw ⟨2, 1, 0, fun _ => ⟨[0, 0]⟩⟩ (fun _ _ => 1 / 2) ctx where
  length_eq := rfl
  isLaw := by
    constructor
    · intro x _
      norm_num
    · have hcard : (Model.vocabulary ⟨2, 1, 0, fun _ => ⟨[0, 0]⟩⟩).card = 2 := rfl
      rw [Finset.sum_const, hcard]
      norm_num

/-- A round emits a first token with the target's law exactly when the vocabulary has one
token, whatever the two laws are. -/
theorem preserves_target_law_iff (d : SpeculativeDecoder) (p q : StepLogits → TokenId → ℝ)
    (ctx : List TokenId) (hp : d.target.HasLaw p ctx) (hq : d.draft.HasLaw q ctx) :
    (∀ x ∈ d.target.vocabulary,
      Rejection.draws {draw |
        (d.stepWith (SpeculativeDecoder.drawTest p q draw) ctx).tokens.head? = some x} =
          ENNReal.ofReal (p (d.target.forward ctx) x)) ↔
      d.target.vocabSize = 1 := by
  rw [← Model.card_vocabulary_eq_one_iff, ← Rejection.mix_eq_law_iff hp.isLaw
    (d.vocabulary_eq ▸ hq.isLaw) (d.vocabulary_eq ▸ hq.next_mem) hp.next_mem]
  refine forall₂_congr fun x hx => ?_
  rw [SpeculativeDecoder.draws_first hp hq, ENNReal.ofReal_eq_ofReal_iff
    (Rejection.mix_nonneg (SpeculativeDecoder.keepProb_nonneg hp hq) (min_le_right _ _) _ _ _)
    (hp.isLaw.pos x hx).le]
  rfl

theorem preserves_target_law_iff_uniform :
    let m : Model := ⟨2, 1, 0, fun _ => ⟨[0, 0]⟩⟩
    let d : SpeculativeDecoder := ⟨m, m, 1, le_rfl, rfl⟩
    (∀ x ∈ d.target.vocabulary,
      Rejection.draws {draw | (d.stepWith (SpeculativeDecoder.drawTest (fun _ _ => 1 / 2)
        (fun _ _ => 1 / 2) draw) [7]).tokens.head? = some x} = ENNReal.ofReal (1 / 2)) ↔
      d.target.vocabSize = 1 :=
  preserves_target_law_iff
    ⟨⟨2, 1, 0, fun _ => ⟨[0, 0]⟩⟩, ⟨2, 1, 0, fun _ => ⟨[0, 0]⟩⟩, 1, le_rfl, rfl⟩
    (fun _ _ => 1 / 2) (fun _ _ => 1 / 2) [7] (hasLaw_coin [7]) (hasLaw_coin [7])

/-- Under those models a round always starts with the first token. -/
theorem coin_always_shows_heads :
    let m : Model := ⟨2, 1, 0, fun _ => ⟨[0, 0]⟩⟩
    let d : SpeculativeDecoder := ⟨m, m, 1, le_rfl, rfl⟩
    m.HasLaw (fun _ _ => 1 / 2) [7] ∧
      Rejection.draws {draw | (d.stepWith (SpeculativeDecoder.drawTest (fun _ _ => 1 / 2)
        (fun _ _ => 1 / 2) draw) [7]).tokens.head? = some 0} = 1 ∧
      ¬∀ x ∈ d.target.vocabulary,
        Rejection.draws {draw | (d.stepWith (SpeculativeDecoder.drawTest (fun _ _ => 1 / 2)
          (fun _ _ => 1 / 2) draw) [7]).tokens.head? = some x} = ENNReal.ofReal (1 / 2) := by
  intro m d
  have hm : m.HasLaw (fun _ _ => 1 / 2) [7] := hasLaw_coin [7]
  have hnext : m.next [7] = 0 := by decide
  have hone : Rejection.draws {draw | (d.stepWith (SpeculativeDecoder.drawTest (fun _ _ => 1 / 2)
      (fun _ _ => 1 / 2) draw) [7]).tokens.head? = some 0} = 1 := by
    rw [SpeculativeDecoder.draws_first (d := d) hm hm, hnext, Rejection.mix, if_pos rfl,
      if_pos rfl, add_sub_cancel, ENNReal.ofReal_one]
  refine ⟨hm, hone, fun h => ?_⟩
  have hhalf := h 0 (Model.mem_vocabulary.mpr (by decide))
  rw [hone, ← ENNReal.ofReal_one, ENNReal.ofReal_eq_ofReal_iff zero_le_one (by norm_num)] at hhalf
  norm_num at hhalf

end ForgeInfer
