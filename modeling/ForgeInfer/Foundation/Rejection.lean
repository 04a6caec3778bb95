import Mathlib.MeasureTheory.Measure.Lebesgue.Basic
import Mathlib.Probability.ProductMeasure

/-! # Rejection sampling

Independent uniform draws, and what accepting a proposal below a threshold makes of them.
A fixed proposal with a fixed fallback gives at most two outcomes, so such a test cannot
reproduce a law that is positive on more than one.
-/

namespace Rejection

open MeasureTheory

/-- A law that is positive on a finite set. -/
structure IsLaw {α : Type*} (V : Finset α) (p : α → ℝ) : Prop where
  pos : ∀ x ∈ V, 0 < p x
  sum_eq : ∑ x ∈ V, p x = 1

section

variable {α : Type*} {V : Finset α} {p q : α → ℝ}

theorem IsLaw.lt_one (h : IsLaw V p) {x y : α} (hx : x ∈ V) (hy : y ∈ V) (hne : x ≠ y) :
    p x < 1 := by
  have hlt : ∑ z ∈ {x}, p z < ∑ z ∈ V, p z := by
    apply Finset.sum_lt_sum_of_subset (Finset.singleton_subset_iff.mpr hx) hy
    · simpa using hne.symm
    · exact h.pos y hy
    · exact fun z hz _ => (h.pos z hz).le
  rwa [Finset.sum_singleton, h.sum_eq] at hlt

theorem IsLaw.eq_one (h : IsLaw V p) {x : α} (hx : x ∈ V) (hc : V.card = 1) : p x = 1 := by
  obtain ⟨y, rfl⟩ := Finset.card_eq_one.mp hc
  obtain rfl := Finset.mem_singleton.mp hx
  rw [← h.sum_eq, Finset.sum_singleton]

/-- The ratio test keeps a proposal too often whenever something else could have been drawn. -/
theorem IsLaw.lt_ratio (hp : IsLaw V p) (hq : IsLaw V q) {x y : α} (hx : x ∈ V) (hy : y ∈ V)
    (hne : x ≠ y) : p x < min (p x / q x) 1 := by
  rw [lt_min_iff, lt_div_iff₀ (hq.pos x hx)]
  exact ⟨mul_lt_of_lt_one_right (hp.pos x hx) (hq.lt_one hx hy hne), hp.lt_one hx hy hne⟩

end

noncomputable def uniform : Measure ℝ := volume.restrict (Set.Ico 0 1)

instance : IsProbabilityMeasure uniform := ⟨by simp [uniform]⟩

noncomputable def draws : Measure (ℕ → ℝ) := Measure.infinitePi fun _ => uniform

instance : IsProbabilityMeasure draws :=
  inferInstanceAs (IsProbabilityMeasure (Measure.infinitePi _))

variable {a : ℝ}

theorem uniform_Iio (h1 : a ≤ 1) : uniform (Set.Iio a) = ENNReal.ofReal a := by
  have hs : Set.Iio a ∩ Set.Ico (0 : ℝ) 1 = Set.Ico 0 a := by
    ext r
    constructor
    · rintro ⟨hr, h, -⟩
      exact ⟨h, hr⟩
    · rintro ⟨h, hr⟩
      exact ⟨hr, h, hr.trans_le h1⟩
  rw [uniform, Measure.restrict_apply measurableSet_Iio, hs, Real.volume_Ico, sub_zero]

theorem draws_lt (i : ℕ) (h1 : a ≤ 1) :
    draws {ω | ω i < a} = ENNReal.ofReal a := by
  have h := (measurePreserving_eval_infinitePi (fun _ : ℕ => uniform) i).measure_preimage
    (measurableSet_Iio (a := a)).nullMeasurableSet
  rw [uniform_Iio h1] at h
  exact h

theorem draws_not_lt (i : ℕ) (h0 : 0 ≤ a) (h1 : a ≤ 1) :
    draws {ω | ¬ω i < a} = ENNReal.ofReal (1 - a) := by
  have hm : MeasurableSet {ω : ℕ → ℝ | ω i < a} := measurable_pi_apply i measurableSet_Iio
  have h := prob_compl_eq_one_sub (μ := draws) hm
  rw [draws_lt i h1, ← ENNReal.ofReal_one, ← ENNReal.ofReal_sub 1 h0] at h
  exact h

section Count

variable {a : ℕ → ℝ} {j : ℕ}

theorem setOf_all_lt (a : ℕ → ℝ) (j : ℕ) :
    {ω : ℕ → ℝ | ∀ i < j, ω i < a i} = Set.pi (Finset.range j) fun i => Set.Iio (a i) := by
  ext ω
  simp

theorem measurableSet_all_lt (a : ℕ → ℝ) (j : ℕ) :
    MeasurableSet {ω : ℕ → ℝ | ∀ i < j, ω i < a i} := by
  rw [setOf_all_lt]
  exact .pi (Finset.range j).countable_toSet fun i _ => measurableSet_Iio

theorem draws_all_lt (h0 : ∀ i < j, 0 ≤ a i) (h1 : ∀ i < j, a i ≤ 1) :
    draws {ω | ∀ i < j, ω i < a i} = ENNReal.ofReal (∏ i ∈ Finset.range j, a i) := by
  rw [setOf_all_lt, draws, Measure.infinitePi_pi _ fun i _ => measurableSet_Iio,
    ENNReal.ofReal_prod_of_nonneg fun i hi => h0 i (Finset.mem_range.mp hi)]
  exact Finset.prod_congr rfl fun i hi => uniform_Iio (h1 i (Finset.mem_range.mp hi))

theorem lintegral_count {Ω : Type*} [MeasurableSpace Ω] {μ : Measure Ω} {N : Ω → ℕ} {m : ℕ}
    (hN : ∀ ω, N ω ≤ m) (hm : ∀ j < m, MeasurableSet {ω | j < N ω}) :
    ∫⁻ ω, N ω ∂μ = ∑ j ∈ Finset.range m, μ {ω | j < N ω} := by
  have hcount : ∀ ω, (N ω : ENNReal) =
      ∑ j ∈ Finset.range m, Set.indicator {ω | j < N ω} 1 ω := by
    intro ω
    have hfilter : (Finset.range m).filter (· < N ω) = Finset.range (N ω) := by
      ext j
      have := hN ω
      simp only [Finset.mem_filter, Finset.mem_range]
      omega
    simp only [Set.indicator_apply, Set.mem_ofPred_eq, Pi.one_apply]
    rw [Finset.sum_boole, hfilter, Finset.card_range]
  simp only [hcount]
  rw [lintegral_finsetSum' _ fun j hj =>
    (measurable_one.indicator (hm j (Finset.mem_range.mp hj))).aemeasurable]
  exact Finset.sum_congr rfl fun j hj => lintegral_indicator_one (hm j (Finset.mem_range.mp hj))

end Count

section Pick

variable {α : Type*} [DecidableEq α] {V : Finset α} {p q : α → ℝ}

/-- The probability of an outcome: the proposal below the threshold, else the fallback. -/
def mix (a : ℝ) (proposal fallback x : α) : ℝ :=
  (if proposal = x then a else 0) + if fallback = x then 1 - a else 0

theorem mix_nonneg (h0 : 0 ≤ a) (h1 : a ≤ 1) (proposal fallback x : α) :
    0 ≤ mix a proposal fallback x := by
  unfold mix
  split_ifs <;> linarith

theorem draws_pick (i : ℕ) (h0 : 0 ≤ a) (h1 : a ≤ 1) (proposal fallback x : α) :
    draws {ω | (if ω i < a then proposal else fallback) = x} =
      ENNReal.ofReal (mix a proposal fallback x) := by
  by_cases hp : proposal = x
  · by_cases hf : fallback = x
    · have hs : {ω : ℕ → ℝ | (if ω i < a then proposal else fallback) = x} = Set.univ := by
        ext ω
        simp [hp, hf]
      rw [hs, measure_univ, mix, if_pos hp, if_pos hf, add_sub_cancel, ENNReal.ofReal_one]
    · have hs : {ω : ℕ → ℝ | (if ω i < a then proposal else fallback) = x} = {ω | ω i < a} := by
        ext ω
        simp [hp, hf]
      rw [hs, draws_lt i h1, mix, if_pos hp, if_neg hf, add_zero]
  · by_cases hf : fallback = x
    · have hs : {ω : ℕ → ℝ | (if ω i < a then proposal else fallback) = x} = {ω | ¬ω i < a} := by
        ext ω
        simp [hp, hf]
      rw [hs, draws_not_lt i h0 h1, mix, if_neg hp, if_pos hf, zero_add]
    · have hs : {ω : ℕ → ℝ | (if ω i < a then proposal else fallback) = x} = ∅ := by
        ext ω
        by_cases hω : ω i < a <;> simp [hω, hp, hf]
      rw [hs, measure_empty, mix, if_neg hp, if_neg hf, add_zero, ENNReal.ofReal_zero]

/-- A fixed proposal under the ratio test, with a fixed fallback, has the target law exactly
when there is nothing to choose from. -/
theorem mix_eq_law_iff (hp : IsLaw V p) (hq : IsLaw V q) {proposal fallback : α}
    (hd : proposal ∈ V) (ht : fallback ∈ V) :
    (∀ x ∈ V, mix (min (p proposal / q proposal) 1) proposal fallback x = p x) ↔ V.card = 1 := by
  constructor
  · intro h
    have hx := h proposal hd
    by_cases hf : fallback = proposal
    · rw [mix, if_pos rfl, if_pos hf, add_sub_cancel] at hx
      refine Finset.card_eq_one.mpr ⟨proposal, Finset.eq_singleton_iff_unique_mem.mpr ⟨hd, ?_⟩⟩
      intro y hy
      by_contra hne
      exact absurd hx.symm (hp.lt_one hd hy (Ne.symm hne)).ne
    · rw [mix, if_pos rfl, if_neg hf, add_zero] at hx
      exact absurd hx (hp.lt_ratio hq hd ht (Ne.symm hf)).ne'
  · intro hc x hx
    obtain ⟨y, rfl⟩ := Finset.card_eq_one.mp hc
    obtain rfl := Finset.mem_singleton.mp hx
    obtain rfl := Finset.mem_singleton.mp hd
    obtain rfl := Finset.mem_singleton.mp ht
    rw [mix, if_pos rfl, if_pos rfl, add_sub_cancel, hp.eq_one hx hc]

end Pick

end Rejection
