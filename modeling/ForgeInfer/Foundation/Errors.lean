import ForgeInfer.Foundation.Monotone
import Mathlib.Algebra.BigOperators.Group.List.Basic
import Mathlib.Tactic.GCongr

/-! # Rounding errors

One rounding is off by at most half a step: by the last of 24 bits of its result, or by half
of the smallest number. A running sum of numbers of the unit interval never falls, so each of
its roundings is off by no more than the last one may be.
-/

namespace Binary32

variable {x : ℚ}

/-- How far a number may be off that is rounded to `r`. -/
def roundoff (r : ℚ) : ℚ := r / 2 ^ 24 + 1 / 2 ^ 150

theorem roundoff_mono {r s : ℚ} (h : r ≤ s) : roundoff r ≤ roundoff s := by
  unfold roundoff
  gcongr

theorem roundoff_nonneg {r : ℚ} (h : 0 ≤ r) : 0 ≤ roundoff r := by
  unfold roundoff
  positivity

theorem abs_roundHalfEven_sub_le (x : ℚ) : |(roundHalfEven x : ℚ) - x| ≤ 1 / 2 := by
  have hlow := Int.floor_le x
  have hhigh := Int.lt_floor_add_one x
  rw [abs_le]
  unfold roundHalfEven
  split_ifs <;> push_cast <;> constructor <;> linarith

theorem abs_nearest_sub_le_ulp (x : ℚ) : |nearest x - x| ≤ 2 ^ ulpExponent x / 2 := by
  have hpos := two_zpow_pos (ulpExponent x)
  have hsplit : nearest x - x =
      (roundHalfEven (x / 2 ^ ulpExponent x) - x / 2 ^ ulpExponent x) * 2 ^ ulpExponent x := by
    rw [sub_mul, div_mul_cancel₀ _ hpos.ne']
    rfl
  rw [hsplit, abs_mul, abs_of_pos hpos]
  have hhalf := abs_roundHalfEven_sub_le (x / 2 ^ ulpExponent x)
  nlinarith

theorem abs_nearest_sub_le (h0 : 0 ≤ x) : |nearest x - x| ≤ roundoff (nearest x) := by
  rcases h0.eq_or_lt with rfl | hx
  · rw [nearest_zero, sub_zero, abs_zero]
    exact roundoff_nonneg le_rfl
  · refine (abs_nearest_sub_le_ulp x).trans ?_
    have hnonneg := nearest_nonneg h0
    unfold roundoff
    rcases le_total (Int.log 2 |x| - 23) (-149) with hsub | hnormal
    · have hu : ulpExponent x = -149 := max_eq_left hsub
      have htiny : (2 : ℚ) ^ (-149 : ℤ) / 2 = 1 / 2 ^ 150 := by norm_num
      rw [hu, htiny]
      linarith [div_nonneg hnonneg (by norm_num : (0 : ℚ) ≤ 2 ^ 24)]
    · have hu : ulpExponent x = Int.log 2 |x| - 23 := max_eq_right hnormal
      have hself : (2 : ℚ) ^ Int.log 2 |x| ≤ x := by
        conv_rhs => rw [← abs_of_pos hx]
        exact two_zpow_log_le hx.ne'
      have hlow := le_nearest (by omega) hself
      have hstep := two_zpow_split (Int.log 2 |x|) 23
      rw [hu]
      norm_num at hstep ⊢
      linarith

namespace F32

def val : F32 → ℚ
  | fin q _ => q
  | _ => 0

@[simp] theorem val_fin {q : ℚ} (h : Representable q) : (fin q h).val = q := rfl

theorem Within.le_val {a : F32} {lo hi : ℚ} (h : a.Within lo hi) : lo ≤ a.val := by
  obtain ⟨q, hq, rfl, h0, -⟩ := h
  exact h0

theorem Within.add_error {a b : F32} (ha : a.Within 0 (2 ^ 24)) (hb : b.Within 0 1) :
    (a + b).Within a.val (2 ^ 24) ∧ |(a + b).val - (a.val + b.val)| ≤ roundoff (a + b).val := by
  obtain ⟨q, hq, rfl, hq0, hq1⟩ := ha
  obtain ⟨r, hr, rfl, hr0, hr1⟩ := hb
  have hup : q ≤ nearest (q + r) := le_nearest_of_representable hq hq0 (by linarith)
  have htop : nearest (q + r) ≤ 2 ^ 24 := by
    rw [← nearest_two_pow_succ]
    exact nearest_mono (by linarith) (by linarith)
  have hfin : |nearest (q + r)| < 2 ^ 128 := by
    rw [abs_of_nonneg (hq0.trans hup)]
    exact htop.trans_lt (by norm_num)
  have hsum : fin q hq + fin r hr = fin (nearest (q + r)) (representable_nearest hfin) :=
    round_eq_fin hfin
  rw [hsum]
  exact ⟨⟨_, _, rfl, hup, htop⟩, abs_nearest_sub_le (by linarith)⟩

/-- A running sum is off by one rounding of itself for each summand. -/
theorem foldl_add_error {xs : List F32} (hxs : ∀ a ∈ xs, a.Within 0 1) {d : F32}
    (hd : d.Within 0 (2 ^ 24)) :
    (xs.foldl (· + ·) d).Within d.val (2 ^ 24) ∧
      |(xs.foldl (· + ·) d).val - (d.val + (xs.map val).sum)| ≤
        xs.length * roundoff (xs.foldl (· + ·) d).val := by
  induction xs generalizing d with
  | nil =>
    obtain ⟨q, hq, rfl, h0, h1⟩ := hd
    exact ⟨⟨q, hq, rfl, le_rfl, h1⟩, by simp⟩
  | cons a xs ih =>
    obtain ⟨hstep, herr⟩ := hd.add_error (hxs a List.mem_cons_self)
    have h0 : 0 ≤ (d + a).val := hd.le_val.trans hstep.le_val
    obtain ⟨hrest, herrs⟩ := ih (fun b hb => hxs b (List.mem_cons_of_mem a hb))
      (hstep.mono hd.le_val le_rfl)
    rw [List.foldl_cons, List.map_cons, List.sum_cons, List.length_cons]
    refine ⟨hrest.mono hstep.le_val le_rfl, ?_⟩
    set s := (xs.foldl (· + ·) (d + a)).val
    have hlast := roundoff_mono hrest.le_val
    calc |s - (d.val + (a.val + (xs.map val).sum))|
        = |(s - ((d + a).val + (xs.map val).sum)) + ((d + a).val - (d.val + a.val))| := by
          congr 1
          ring
      _ ≤ |s - ((d + a).val + (xs.map val).sum)| + |(d + a).val - (d.val + a.val)| := abs_add_le _ _
      _ ≤ xs.length * roundoff s + roundoff s := add_le_add herrs (herr.trans hlast)
      _ = (xs.length + 1 : ℕ) * roundoff s := by
          push_cast
          ring

theorem Within.div_error {a b : F32} {hi : ℚ} (ha : a.Within 0 1) (hb : b.Within 1 hi) :
    (a / b).Within 0 1 ∧ |(a / b).val - a.val / b.val| ≤ roundoff (a / b).val := by
  obtain ⟨q, hq, rfl, hq0, hq1⟩ := ha
  obtain ⟨r, hr, rfl, hr1, -⟩ := hb
  have hpos : 0 < r := zero_lt_one.trans_le hr1
  have h0 : 0 ≤ q / r := div_nonneg hq0 hpos.le
  have hle : nearest (q / r) ≤ 1 :=
    nearest_le_of_representable representable_one h0 ((div_le_one hpos).mpr (hq1.trans hr1))
  have hfin : |nearest (q / r)| < 2 ^ 128 := by
    rw [abs_of_nonneg (nearest_nonneg h0)]
    exact hle.trans_lt (by norm_num)
  have hquot : fin q hq / fin r hr = fin (nearest (q / r)) (representable_nearest hfin) := by
    rw [fin_div_fin hpos.ne', round_eq_fin hfin]
  rw [hquot]
  exact ⟨⟨_, _, rfl, nearest_nonneg h0, hle⟩, abs_nearest_sub_le h0⟩

end F32

end Binary32
