import ForgeInfer.Speculative.Law
import ForgeInfer.Speculative.Round

/-! # How much of a run is accepted

With independent uniform draws, a round keeps `j` proposals with the product of their
acceptance probabilities along the draft's greedy run, and the mean of the accepted ones is
the sum of these products.
-/

namespace ForgeInfer.SpeculativeDecoder

open MeasureTheory

variable {d : SpeculativeDecoder} {p q : StepLogits → TokenId → ℝ} {ctx : List TokenId} {j : ℕ}

theorem passes_drawTest (hq : d.draft.HasLaw q ctx) (draw : ℕ → ℝ) (pos : ℕ) :
    d.passes (drawTest p q draw) pos ctx = true ↔ draw pos < d.keepProb p q ctx := by
  have hpos := hq.isLaw.pos _ hq.next_mem
  rw [passes, drawTest, decide_eq_true_eq, exactAcceptProb, keepProb]
  change _ < (if q (d.draft.forward ctx) (d.draft.next ctx) ≤ 0 then 1 else _) ↔ _
  rw [if_neg (not_le.mpr hpos)]

theorem le_accepted_drawTest (heos : d.draft.eosToken = d.target.eosToken) (draw : ℕ → ℝ)
    (hq : ∀ i < (d.draft.greedy ctx d.lookahead).length,
      d.draft.HasLaw q (ctx ++ (d.draft.greedy ctx d.lookahead).take i))
    (hj : j ≤ (d.draft.greedy ctx d.lookahead).length) :
    j ≤ (d.stepWith (drawTest p q draw) ctx).accepted ↔
      ∀ i < j, draw i < d.keepProb p q (ctx ++ (d.draft.greedy ctx d.lookahead).take i) := by
  rw [(d.shape_stepWith _ ctx).le_accepted_iff hj fun i hi =>
    eos_not_before_last heos ctx (hi.trans_le hj)]
  exact forall₂_congr fun i hi => passes_drawTest (hq i (hi.trans_le hj)) draw i

/-- The tails of the accepted length are products of acceptance probabilities, and its mean is
their sum. -/
theorem accepted_length_law (d : SpeculativeDecoder) (p q : StepLogits → TokenId → ℝ)
    (ctx : List TokenId) (heos : d.draft.eosToken = d.target.eosToken)
    (hp : ∀ i < (d.draft.greedy ctx d.lookahead).length,
      d.target.HasLaw p (ctx ++ (d.draft.greedy ctx d.lookahead).take i))
    (hq : ∀ i < (d.draft.greedy ctx d.lookahead).length,
      d.draft.HasLaw q (ctx ++ (d.draft.greedy ctx d.lookahead).take i)) :
    let ds := d.draft.greedy ctx d.lookahead
    let a : ℕ → ℝ := fun i => d.keepProb p q (ctx ++ ds.take i)
    (∀ j ≤ ds.length,
      Rejection.draws {draw | j ≤ (d.stepWith (drawTest p q draw) ctx).accepted} =
        ENNReal.ofReal (∏ i ∈ Finset.range j, a i)) ∧
    ∫⁻ draw, (d.stepWith (drawTest p q draw) ctx).accepted ∂(Rejection.draws) =
      ENNReal.ofReal (∑ j ∈ Finset.range ds.length, ∏ i ∈ Finset.range (j + 1), a i) := by
  intro ds a
  have h0 : ∀ i < ds.length, 0 ≤ a i := fun i hi => keepProb_nonneg (hp i hi) (hq i hi)
  have hevent : ∀ j ≤ ds.length,
      {draw | j ≤ (d.stepWith (drawTest p q draw) ctx).accepted} =
        {draw : ℕ → ℝ | ∀ i < j, draw i < a i} := by
    intro j hj
    ext draw
    exact le_accepted_drawTest heos draw hq hj
  have htail : ∀ j ≤ ds.length,
      Rejection.draws {draw | j ≤ (d.stepWith (drawTest p q draw) ctx).accepted} =
        ENNReal.ofReal (∏ i ∈ Finset.range j, a i) := by
    intro j hj
    rw [hevent j hj]
    apply Rejection.draws_all_lt
    · exact fun i hi => h0 i (hi.trans_le hj)
    · exact fun i _ => min_le_right _ _
  refine ⟨htail, ?_⟩
  rw [Rejection.lintegral_count (m := ds.length), ENNReal.ofReal_sum_of_nonneg]
  · exact Finset.sum_congr rfl fun j hj => htail (j + 1) (Finset.mem_range.mp hj)
  · intro j hj
    apply Finset.prod_nonneg
    intro i hi
    rw [Finset.mem_range] at hi hj
    exact h0 i (by omega)
  · intro draw
    exact (d.shape_stepWith _ ctx).accepted_le
  · intro j hj
    change MeasurableSet {draw | j + 1 ≤ (d.stepWith (drawTest p q draw) ctx).accepted}
    rw [hevent (j + 1) hj]
    exact Rejection.measurableSet_all_lt a (j + 1)

theorem hasLaw_pair {a : ℝ} (h0 : 0 < a) (h1 : a < 1) (eos : TokenId) (ctx : List TokenId) :
    Model.HasLaw ⟨2, 1, eos, fun _ => ⟨[0, 0]⟩⟩ (fun _ x => if x = 0 then a else 1 - a) ctx where
  length_eq := rfl
  isLaw := by
    have hvocab : Model.vocabulary ⟨2, 1, eos, fun _ => ⟨[0, 0]⟩⟩ = {0, 1} := rfl
    rw [hvocab]
    constructor
    · intro x _
      split
      · exact h0
      · linarith
    · simp

theorem accepted_length_law_of_halves :
    let m : Model := ⟨2, 1, 1, fun _ => ⟨[0, 0]⟩⟩
    let d : SpeculativeDecoder := ⟨m, m, 3, by decide, rfl⟩
    let p : StepLogits → TokenId → ℝ := fun _ x => if x = 0 then 1 / 4 else 1 - 1 / 4
    let q : StepLogits → TokenId → ℝ := fun _ x => if x = 0 then 1 / 2 else 1 - 1 / 2
    let ds := d.draft.greedy [0] d.lookahead
    let a : ℕ → ℝ := fun i => d.keepProb p q ([0] ++ ds.take i)
    (∀ j ≤ ds.length,
      Rejection.draws {draw | j ≤ (d.stepWith (drawTest p q draw) [0]).accepted} =
        ENNReal.ofReal (∏ i ∈ Finset.range j, a i)) ∧
    ∫⁻ draw, (d.stepWith (drawTest p q draw) [0]).accepted ∂(Rejection.draws) =
      ENNReal.ofReal (∑ j ∈ Finset.range ds.length, ∏ i ∈ Finset.range (j + 1), a i) := by
  intro m d p q
  apply accepted_length_law d p q [0] rfl
  · exact fun i _ => hasLaw_pair (by norm_num) (by norm_num) 1 _
  · exact fun i _ => hasLaw_pair (by norm_num) (by norm_num) 1 _

end ForgeInfer.SpeculativeDecoder
