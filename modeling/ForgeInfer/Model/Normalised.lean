import ForgeInfer.Foundation.Errors
import ForgeInfer.Model.Softmax

/-! # The softmax normalises

In single precision the probabilities add up to one but for the roundings of the denominator,
of the quotients and of the total, each of them one for every logit.
-/

namespace ForgeInfer

open Binary32

/-- Three sums of about as many roundings: the denominator `d` of the exact sum `e`, the
quotients with sum `p`, and the total `t`. -/
theorem abs_total_sub_one_le {n d e p t : ℚ} (h1 : 1 ≤ n) (hn : n ≤ 2 ^ 20) (hd : 1 ≤ d)
    (ht0 : 0 ≤ t) (hde : |d - e| ≤ n * roundoff d)
    (hp : |p - e / d| ≤ p / 2 ^ 24 + n / 2 ^ 150) (ht : |t - p| ≤ n * roundoff t) :
    |t - 1| ≤ n / 2 ^ 22 := by
  have hpos : 0 < d := zero_lt_one.trans_le hd
  have hfine : n / 2 ^ 150 ≤ n / 2 ^ 24 / 100 := by
    rw [div_div]
    exact div_le_div_of_nonneg_left (by linarith) (by norm_num) (by norm_num)
  have hexact : |e / d - 1| ≤ n / 2 ^ 24 + n / 2 ^ 150 := by
    have hsplit : e / d - 1 = -((d - e) / d) := by
      field_simp
      ring
    rw [hsplit, abs_neg, abs_div, abs_of_pos hpos, div_le_iff₀ hpos]
    refine hde.trans ?_
    unfold roundoff
    nlinarith
  rw [abs_le] at hexact hp ht ⊢
  unfold roundoff at ht
  have hquot : p ≤ 11 / 10 := by linarith
  have htotal : t ≤ 5 / 4 := by nlinarith
  have hscaled : n * (t / 2 ^ 24 + 1 / 2 ^ 150) ≤ n / 2 ^ 24 * (5 / 4) + n / 2 ^ 150 := by
    nlinarith
  constructor <;> linarith

namespace StepLogits

variable {l : StepLogits} {exp : F32 → F32}

def totalProb (exp : F32 → F32) (l : StepLogits) : F32 :=
  ((List.range l.logits.length).map fun i => l.probOf exp (UInt32.ofNat i)).foldl (· + ·) 0

def masses (exp : F32 → F32) (l : StepLogits) : List F32 := l.logits.map fun v => exp (v - l.top)

theorem denom_eq (exp : F32 → F32) (l : StepLogits) :
    l.denom exp = (l.masses exp).foldl (· + ·) 0 := by
  rw [masses, List.foldl_map]
  rfl

theorem Proper.masses_within (h : l.Proper) (hexp : IsExp exp) :
    ∀ a ∈ l.masses exp, a.Within 0 1 := by
  intro a ha
  obtain ⟨v, hv, rfl⟩ := List.mem_map.mp ha
  exact hexp.unit _ (h.sub_top_le hv)

theorem totalProb_eq (h : l.logits.length ≤ 2 ^ 32) :
    l.totalProb exp = ((l.masses exp).map (· / l.denom exp)).foldl (· + ·) 0 := by
  rw [totalProb]
  congr 1
  apply List.ext_getElem
  · simp [masses]
  · intro i hi _
    rw [List.length_map, List.length_range] at hi
    have hget : l.logits[(UInt32.ofNat i).toNat]? = some l.logits[i] := by
      rw [UInt32.toNat_ofNat', Nat.mod_eq_of_lt (by omega)]
      exact List.getElem?_eq_getElem hi
    rw [List.getElem_map, List.getElem_range, probOf_of_some hget]
    simp [masses]

end StepLogits

theorem sum_div_error {d : F32} {hi : ℚ} (hd : d.Within 1 hi) {xs : List F32}
    (hxs : ∀ a ∈ xs, a.Within 0 1) :
    let p := ((xs.map (· / d)).map F32.val).sum
    |p - (xs.map F32.val).sum / d.val| ≤ p / 2 ^ 24 + xs.length / 2 ^ 150 := by
  induction xs with
  | nil => simp
  | cons a xs ih =>
    obtain ⟨-, herr⟩ := (hxs a List.mem_cons_self).div_error hd
    have hrest := ih fun b hb => hxs b (List.mem_cons_of_mem a hb)
    simp only [List.map_cons, List.sum_cons, List.length_cons]
    unfold roundoff at herr
    rw [add_div]
    push_cast
    rw [abs_le] at herr hrest ⊢
    constructor <;> linarith

/-- The probabilities of up to `2 ^ 20` tokens add up to one but for four roundings of a number
just below `1` for each token. -/
theorem probabilities_sum_to_one (exp : F32 → F32) (hexp : IsExp exp) (l : StepLogits)
    (hl : l.Proper) (hlen : l.logits.length ≤ 2 ^ 20) :
    (l.totalProb exp).Within (1 - l.logits.length / 2 ^ 22) (1 + l.logits.length / 2 ^ 22) := by
  have hmass := hl.masses_within hexp
  have hcount : (l.masses exp).length = l.logits.length := List.length_map _
  have hdenom := hl.denom_within hexp
  have hzero : (0 : F32).Within 0 (2 ^ 24) := F32.within_zero.mono le_rfl (by norm_num)
  obtain ⟨-, hsum⟩ := F32.foldl_add_error hmass hzero
  have hquot := sum_div_error hdenom hmass
  have hprob : ∀ a ∈ (l.masses exp).map (· / l.denom exp), a.Within 0 1 := by
    intro a ha
    obtain ⟨b, hb, rfl⟩ := List.mem_map.mp ha
    exact ((hmass b hb).div_error hdenom).1
  obtain ⟨htotal, hlast⟩ := F32.foldl_add_error hprob hzero
  have hval : (0 : F32).val = 0 := rfl
  have hone : (1 : ℚ) ≤ l.logits.length := by
    obtain ⟨v, hv, -⟩ := hl.unmasked
    exact_mod_cast List.length_pos_of_mem hv
  rw [← StepLogits.denom_eq, hval, zero_add, hcount] at hsum
  rw [hcount] at hquot
  rw [← StepLogits.totalProb_eq hl.length_le, hval] at htotal
  rw [← StepLogits.totalProb_eq hl.length_le, hval, zero_add, List.length_map, hcount] at hlast
  have hclose := abs_total_sub_one_le hone (by exact_mod_cast hlen) hdenom.le_val htotal.le_val hsum
    hquot hlast
  obtain ⟨t, ht, he, -, -⟩ := htotal
  rw [he, F32.val_fin, abs_le] at hclose
  exact ⟨t, ht, he, by linarith [hclose.1], by linarith [hclose.2]⟩

theorem probabilities_sum_to_one_of_three :
    let l : StepLogits := ⟨[0, 1, .negInf]⟩
    (l.totalProb stepExp).Within (1 - l.logits.length / 2 ^ 22) (1 + l.logits.length / 2 ^ 22) :=
  probabilities_sum_to_one stepExp isExp_stepExp _
    ⟨by decide, ⟨1, by decide, F32.negInf_lt_fin⟩, by decide⟩ (by decide)

end ForgeInfer
