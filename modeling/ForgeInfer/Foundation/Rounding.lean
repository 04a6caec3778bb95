import ForgeInfer.Foundation.Binary32
import Mathlib.Tactic.Positivity
import Mathlib.Tactic.Ring

/-! # Rounding to nearest

A representable number is its own nearest one. Rounding does not cross a power of two, and
it reaches one from below exactly in the last half step of 24 bits.
-/

namespace Binary32

variable {x : ℚ} {n p : ℤ}

@[simp] theorem roundHalfEven_intCast (n : ℤ) : roundHalfEven n = n := by
  simp [roundHalfEven]

theorem le_roundHalfEven (h : (n : ℚ) ≤ x) : n ≤ roundHalfEven x :=
  (Int.le_floor.mpr h).trans (floor_le_roundHalfEven x)

/-- Below an even integer, all but the last half rounds to a smaller one. -/
theorem roundHalfEven_lt_iff (hn : n % 2 = 0) (hx : x < n) :
    roundHalfEven x < n ↔ x < n - 1 / 2 := by
  have hfloor : ⌊x⌋ < n := Int.floor_lt.mpr hx
  by_cases hlast : ⌊x⌋ = n - 1
  · have hodd : ¬(n - 1) % 2 = 0 := by omega
    have hcast : ((n - 1 : ℤ) : ℚ) = n - 1 := by push_cast; ring
    rw [roundHalfEven, hlast, hcast, if_neg hodd]
    constructor
    · split
      · intro _; linarith
      · split <;> omega
    · intro h
      rw [if_pos (by linarith)]
      omega
  · have hceil : ⌈x⌉ ≤ ⌊x⌋ + 1 := Int.ceil_le_floor_add_one x
    have hround := roundHalfEven_le_ceil x
    have hlt : x < (⌊x⌋ : ℚ) + 1 := Int.lt_floor_add_one x
    have hle : (⌊x⌋ : ℚ) + 2 ≤ n := by exact_mod_cast (by omega : ⌊x⌋ + 2 ≤ n)
    constructor
    · intro _; linarith
    · intro _; omega

theorem two_zpow_pos (k : ℤ) : (0 : ℚ) < 2 ^ k := zpow_pos two_pos k

theorem two_zpow_le {j k : ℤ} (h : j ≤ k) : (2 : ℚ) ^ j ≤ 2 ^ k :=
  zpow_le_zpow_right₀ one_le_two h

theorem two_pow_toNat {k : ℤ} (h : 0 ≤ k) : ((2 ^ k.toNat : ℤ) : ℚ) = 2 ^ k := by
  obtain ⟨k, rfl⟩ := Int.eq_ofNat_of_zero_le h
  simp

theorem two_zpow_split (k : ℤ) (j : ℤ) : (2 : ℚ) ^ (k - j) * 2 ^ j = 2 ^ k := by
  rw [← zpow_add₀ two_ne_zero, sub_add_cancel]

@[simp] theorem nearest_zero : nearest 0 = 0 := by
  rw [nearest, zero_div, ← Int.cast_zero, roundHalfEven_intCast, Int.cast_zero, zero_mul]

theorem two_zpow_log_le (hx : x ≠ 0) : (2 : ℚ) ^ Int.log 2 |x| ≤ |x| := by
  exact_mod_cast Int.zpow_log_le_self (b := 2) (by norm_num) (abs_pos.mpr hx)

theorem log_le (hx : x ≠ 0) (h : |x| ≤ 2 ^ p) : Int.log 2 |x| ≤ p :=
  (zpow_le_zpow_iff_right₀ one_lt_two).mp ((two_zpow_log_le hx).trans h)

theorem log_lt (hx : x ≠ 0) (h : |x| < 2 ^ p) : Int.log 2 |x| < p :=
  (zpow_lt_zpow_iff_right₀ one_lt_two).mp ((two_zpow_log_le hx).trans_lt h)

theorem le_log (h : 2 ^ p ≤ |x|) : p ≤ Int.log 2 |x| := by
  have hlt : |x| < (2 : ℚ) ^ (Int.log 2 |x| + 1) := by
    exact_mod_cast Int.lt_zpow_succ_log_self (b := 2) (by norm_num) |x|
  exact Int.lt_add_one_iff.mp ((zpow_lt_zpow_iff_right₀ one_lt_two).mp (h.trans_lt hlt))

theorem abs_nearest_le (hp : -149 ≤ p) (h : |x| ≤ 2 ^ p) : |nearest x| ≤ 2 ^ p := by
  by_cases hx : x = 0
  · rw [hx, nearest_zero, abs_zero]
    exact (two_zpow_pos p).le
  · have hlog := log_le hx h
    have hu : 0 ≤ p - ulpExponent x := by unfold ulpExponent; omega
    have hpos := two_zpow_pos (ulpExponent x)
    have hscaled : |x / 2 ^ ulpExponent x| ≤ (2 ^ (p - ulpExponent x).toNat : ℤ) := by
      rw [two_pow_toNat hu, abs_div, abs_of_pos hpos, div_le_iff₀ hpos, two_zpow_split]
      exact h
    have hround : (|roundHalfEven (x / 2 ^ ulpExponent x)| : ℚ) ≤ 2 ^ (p - ulpExponent x) := by
      rw [← two_pow_toNat hu]
      exact_mod_cast abs_roundHalfEven_le hscaled
    calc |nearest x|
        = |(roundHalfEven (x / 2 ^ ulpExponent x) : ℚ)| * 2 ^ ulpExponent x := by
          rw [nearest, abs_mul, abs_of_pos hpos]
      _ ≤ 2 ^ (p - ulpExponent x) * 2 ^ ulpExponent x := mul_le_mul_of_nonneg_right hround hpos.le
      _ = 2 ^ p := two_zpow_split _ _

theorem le_nearest (hp : -149 ≤ p) (h : 2 ^ p ≤ x) : 2 ^ p ≤ nearest x := by
  have hx : 0 < x := (two_zpow_pos p).trans_le h
  have hlog : p ≤ Int.log 2 |x| := le_log (by rwa [abs_of_pos hx])
  have hself : (2 : ℚ) ^ Int.log 2 |x| ≤ x := by
    conv_rhs => rw [← abs_of_pos hx]
    exact two_zpow_log_le hx.ne'
  have hu : 0 ≤ Int.log 2 |x| - ulpExponent x := by unfold ulpExponent; omega
  have hpos := two_zpow_pos (ulpExponent x)
  have hscaled : ((2 ^ (Int.log 2 |x| - ulpExponent x).toNat : ℤ) : ℚ) ≤
      x / 2 ^ ulpExponent x := by
    rw [two_pow_toNat hu, le_div_iff₀ hpos, two_zpow_split]
    exact hself
  have hround : (2 : ℚ) ^ (Int.log 2 |x| - ulpExponent x) ≤
      roundHalfEven (x / 2 ^ ulpExponent x) := by
    rw [← two_pow_toNat hu]
    exact_mod_cast le_roundHalfEven hscaled
  calc (2 : ℚ) ^ p ≤ 2 ^ Int.log 2 |x| := two_zpow_le hlog
    _ = 2 ^ (Int.log 2 |x| - ulpExponent x) * 2 ^ ulpExponent x := (two_zpow_split _ _).symm
    _ ≤ nearest x := mul_le_mul_of_nonneg_right hround hpos.le

/-- A number below a power of two stays below it unless it is within half a step of it,
where the tie goes up to the even power. -/
theorem nearest_lt_iff (hp : -125 ≤ p) (h0 : 0 ≤ x) (h : x < 2 ^ p) :
    nearest x < 2 ^ p ↔ x < 2 ^ p - 2 ^ (p - 25) := by
  have hhalf : (2 : ℚ) ^ (p - 1) * 2 = 2 ^ p := by
    simpa using two_zpow_split p 1
  have hstep : (2 : ℚ) ^ (p - 25) ≤ 2 ^ (p - 1) := two_zpow_le (by omega)
  have hpos := two_zpow_pos (p - 1)
  rcases lt_or_ge x (2 ^ (p - 1)) with hlow | hhigh
  · have hle : |nearest x| ≤ 2 ^ (p - 1) :=
      abs_nearest_le (by omega) (by rw [abs_of_nonneg h0]; exact hlow.le)
    have := le_abs_self (nearest x)
    constructor
    · intro _; linarith
    · intro _; linarith
  · have hx : 0 < x := hpos.trans_le hhigh
    have hlog : Int.log 2 |x| = p - 1 := by
      have hlt := log_lt hx.ne' (by rwa [abs_of_pos hx] : |x| < 2 ^ p)
      have hle := le_log (by rwa [abs_of_pos hx] : 2 ^ (p - 1) ≤ |x|)
      omega
    have hu : ulpExponent x = p - 24 := by unfold ulpExponent; omega
    have hulp := two_zpow_pos (p - 24)
    have hfull : (2 : ℚ) ^ p = (2 ^ 24 : ℤ) * 2 ^ (p - 24) := by
      rw [← two_zpow_split p (p - 24), sub_sub_cancel]
      norm_num
    have hlast : (2 : ℚ) ^ (p - 25) = 1 / 2 * 2 ^ (p - 24) := by
      have := two_zpow_split (p - 24) 1
      rw [show p - 24 - 1 = p - 25 by ring, zpow_one] at this
      linarith
    have hscaled : x / 2 ^ (p - 24) < (2 ^ 24 : ℤ) := by
      rw [div_lt_iff₀ hulp, ← hfull]
      exact h
    rw [nearest, hu, hfull, mul_lt_mul_iff_left₀ hulp, Int.cast_lt,
      roundHalfEven_lt_iff (by norm_num) hscaled, hlast, ← sub_mul, div_lt_iff₀ hulp]

theorem exists_eq_mul_ulp (h : Representable x) : ∃ k : ℤ, x = k * 2 ^ ulpExponent x := by
  by_cases hx : x = 0
  · exact ⟨0, by rw [hx, Int.cast_zero, zero_mul]⟩
  · obtain ⟨m, e, hm, he, rfl, -⟩ := h
    have habs : |(m : ℚ) * 2 ^ e| = (|m| : ℤ) * 2 ^ e := by
      rw [abs_mul, abs_of_pos (two_zpow_pos e), Int.cast_abs]
    have htop : ((2 ^ 24 : ℤ) : ℚ) * 2 ^ e = 2 ^ (24 + e) := by
      rw [zpow_add₀ two_ne_zero]
      norm_num
    rcases lt_or_eq_of_le hm with hlt | heq
    · -- fewer than 24 bits reach above the last one
      have hlog : Int.log 2 |(m : ℚ) * 2 ^ e| < 24 + e := by
        apply log_lt hx
        rw [habs, ← htop]
        exact mul_lt_mul_of_pos_right (by exact_mod_cast hlt) (two_zpow_pos e)
      have hu : 0 ≤ e - ulpExponent (m * 2 ^ e) := by unfold ulpExponent; omega
      refine ⟨m * 2 ^ (e - ulpExponent (m * 2 ^ e)).toNat, ?_⟩
      have hpow := two_pow_toNat hu
      push_cast at hpow ⊢
      rw [hpow, mul_assoc, two_zpow_split]
    · -- a power of two has a larger step, which still divides it
      have hlog : Int.log 2 |(m : ℚ) * 2 ^ e| ≤ 24 + e := by
        apply log_le hx
        rw [habs, ← htop, ← heq]
      have hu : 0 ≤ 24 + e - ulpExponent (m * 2 ^ e) := by unfold ulpExponent; omega
      have hsign : m = 2 ^ 24 ∨ m = -2 ^ 24 := abs_eq (by norm_num) |>.mp heq
      have hpow := two_pow_toNat hu
      rcases hsign with rfl | rfl
      · refine ⟨2 ^ (24 + e - ulpExponent ((2 ^ 24 : ℤ) * 2 ^ e)).toNat, ?_⟩
        rw [hpow, two_zpow_split, htop]
      · refine ⟨-2 ^ (24 + e - ulpExponent ((-2 ^ 24 : ℤ) * 2 ^ e)).toNat, ?_⟩
        push_cast at hpow htop ⊢
        rw [hpow, neg_mul, neg_mul, two_zpow_split, htop]

theorem nearest_of_representable (h : Representable x) : nearest x = x := by
  obtain ⟨k, hk⟩ := exists_eq_mul_ulp h
  have hdiv : x / 2 ^ ulpExponent x = k := by
    rw [div_eq_iff (two_zpow_pos _).ne']
    exact hk
  rw [nearest, hdiv, roundHalfEven_intCast, ← hk]

theorem representable_nearest_div {j : ℤ} (hj : -149 ≤ ulpExponent x - j)
    (h : |nearest x / 2 ^ j| < 2 ^ 128) : Representable (nearest x / 2 ^ j) := by
  refine ⟨roundHalfEven (x / 2 ^ ulpExponent x), ulpExponent x - j,
    abs_roundHalfEven_le (abs_scaled_le x), hj, ?_, h⟩
  rw [nearest, zpow_sub₀ two_ne_zero, mul_div_assoc]

theorem ulpExponent_natCast_ge (n : ℕ) : -23 ≤ ulpExponent n := by
  have hlog : Int.log 2 |(n : ℚ)| = Nat.log 2 n := by
    rw [Nat.abs_cast, Int.log_natCast]
  unfold ulpExponent
  omega

theorem representable_intCast (h : |n| ≤ 2 ^ 24) : Representable n := by
  refine ⟨n, 0, h, by norm_num, by simp, ?_⟩
  calc |(n : ℚ)| ≤ 2 ^ 24 := by exact_mod_cast h
    _ < 2 ^ 128 := by norm_num

namespace F32

theorem round_eq_fin (h : |nearest x| < 2 ^ 128) :
    round x = fin (nearest x) (representable_nearest h) := dif_pos h

theorem round_of_representable (h : Representable x) : round x = fin x h := by
  have hn := nearest_of_representable h
  have hlt : |nearest x| < 2 ^ 128 := by
    obtain ⟨m, e, -, -, -, hlt⟩ := h
    rwa [hn]
  rw [round_eq_fin hlt]
  simp only [hn]

@[simp] theorem fin_lt_fin {q r : ℚ} {hq : Representable q} {hr : Representable r} :
    fin q hq < fin r hr ↔ q < r := decide_eq_true_iff

theorem fin_div_fin {q r : ℚ} {hq : Representable q} {hr : Representable r} (h : r ≠ 0) :
    fin q hq / fin r hr = round (q / r) := if_neg h

theorem representable_two_pow {j : ℕ} (hj : j < 128) : Representable (2 ^ j) := by
  refine ⟨1, j, by norm_num, by omega, by rw [Int.cast_one, one_mul, zpow_natCast], ?_⟩
  rw [abs_of_pos (by positivity)]
  exact pow_lt_pow_right₀ one_lt_two hj

/-- Scaling an integer of `j` bits to the unit interval loses only what its rounding does. -/
theorem round_natCast_div {n j : ℕ} (hn : n < 2 ^ j) (hj : j ≤ 126) :
    ∃ h, round n / round (2 ^ j) = fin (nearest n / 2 ^ j) h := by
  have hpos : (0 : ℚ) < 2 ^ j := by positivity
  have habs : |nearest (n : ℚ)| ≤ 2 ^ j := by
    have hle : |(n : ℚ)| ≤ 2 ^ (j : ℤ) := by
      rw [Nat.abs_cast, zpow_natCast]
      exact_mod_cast hn.le
    exact_mod_cast abs_nearest_le (by omega) hle
  have hlt : |nearest (n : ℚ)| < 2 ^ 128 :=
    habs.trans_lt (pow_lt_pow_right₀ one_lt_two (by omega))
  have hquot : |nearest (n : ℚ) / 2 ^ j| < 2 ^ 128 := by
    rw [abs_div, abs_of_pos hpos]
    exact ((div_le_one hpos).mpr habs).trans_lt (one_lt_pow₀ one_lt_two (by norm_num))
  have hulp := ulpExponent_natCast_ge n
  have hr : Representable (nearest (n : ℚ) / 2 ^ j) := by
    have := representable_nearest_div (x := n) (j := j) (by omega)
    rw [zpow_natCast] at this
    exact this hquot
  refine ⟨hr, ?_⟩
  rw [round_eq_fin hlt, round_of_representable (representable_two_pow (by omega)),
    fin_div_fin hpos.ne', round_of_representable hr]

theorem round_natCast_div_lt_one_iff {n j : ℕ} (hn : n < 2 ^ j) (h25 : 25 ≤ j) (hj : j ≤ 126) :
    round n / round (2 ^ j) < 1 ↔ n < 2 ^ j - 2 ^ (j - 25) := by
  obtain ⟨h, he⟩ := round_natCast_div hn hj
  have hstep : (2 : ℚ) ^ ((j : ℤ) - 25) = (2 ^ (j - 25) : ℕ) := by
    rw [show (j : ℤ) - 25 = ((j - 25 : ℕ) : ℤ) by omega, zpow_natCast]
    push_cast
    rfl
  have hle : 2 ^ (j - 25) ≤ 2 ^ j := Nat.pow_le_pow_right two_pos (Nat.sub_le _ _)
  have hn' : (n : ℚ) < 2 ^ (j : ℤ) := by
    rw [zpow_natCast]
    exact_mod_cast hn
  have hcast : (n : ℚ) < 2 ^ (j : ℤ) - 2 ^ ((j : ℤ) - 25) ↔ n < 2 ^ j - 2 ^ (j - 25) := by
    rw [hstep, zpow_natCast, lt_sub_iff_add_lt, Nat.lt_sub_iff_add_lt]
    exact_mod_cast Iff.rfl
  rw [he, ← hcast, ← nearest_lt_iff (by omega) n.cast_nonneg hn', zpow_natCast]
  exact fin_lt_fin.trans (div_lt_one (by positivity))

@[simp] theorem negInf_lt_fin {q : ℚ} {hq : Representable q} : negInf < fin q hq := rfl

theorem not_lt_negInf (x : F32) : ¬x < negInf := by
  cases x <;> exact Bool.false_ne_true

theorem round_intCast (h : |n| ≤ 2 ^ 24) : round n = fin n (representable_intCast h) :=
  round_of_representable _

theorem round_intCast_lt_iff {m : ℤ} (hm : |m| ≤ 2 ^ 24) (hn : |n| ≤ 2 ^ 24) :
    round m < round n ↔ m < n := by
  rw [round_intCast hm, round_intCast hn, fin_lt_fin, Int.cast_lt]

theorem round_intCast_sub {m : ℤ} (hm : |m| ≤ 2 ^ 24) (hn : |n| ≤ 2 ^ 24) :
    round m - round n = round ((m - n : ℤ) : ℚ) := by
  rw [round_intCast hm, round_intCast hn, Int.cast_sub]
  rfl

theorem min_fin_fin {q r : ℚ} {hq : Representable q} {hr : Representable r} :
    min (fin q hq) (fin r hr) = if r < q then fin r hr else fin q hq := by
  change (if decide (r < q) = true then _ else _) = _
  exact if_congr decide_eq_true_iff rfl rfl

/-- An integer clamped to a small power of two is exact, however large it was. -/
theorem min_round_two_pow {m k : ℕ} (hk : k ≤ 24) (hm : m ≤ 2 ^ 127) :
    min (round m) (round (2 ^ k)) = round ((min m (2 ^ k) : ℕ) : ℚ) := by
  have hpow : Representable (2 ^ k) := representable_two_pow (by omega)
  have hle : 2 ^ k ≤ 2 ^ 24 := Nat.pow_le_pow_right two_pos hk
  rw [round_of_representable hpow]
  rcases Nat.lt_or_ge (2 ^ k) m with hlt | hge
  · have habs : |nearest (m : ℚ)| ≤ 2 ^ (127 : ℤ) := by
      apply abs_nearest_le (by norm_num)
      rw [Nat.abs_cast]
      exact_mod_cast hm
    have hnear : (2 : ℚ) ^ (k : ℤ) ≤ nearest m := by
      apply le_nearest (by omega)
      rw [zpow_natCast]
      exact_mod_cast hlt.le
    have hfin : |nearest (m : ℚ)| < 2 ^ 128 := habs.trans_lt (by norm_num)
    have hmin : round ((min m (2 ^ k) : ℕ) : ℚ) = fin (2 ^ k) hpow := by
      rw [min_eq_right hlt.le, Nat.cast_pow, Nat.cast_ofNat, round_of_representable hpow]
    rw [hmin, round_eq_fin hfin, min_fin_fin]
    rw [zpow_natCast] at hnear
    rcases lt_or_eq_of_le hnear with h | h
    · exact if_pos h
    · rw [if_neg (by rw [h]; exact lt_irrefl _)]
      simp only [← h]
  · have hint : |(m : ℤ)| ≤ 2 ^ 24 := by
      rw [Nat.abs_cast]
      exact_mod_cast hge.trans hle
    have hcast : ((m : ℤ) : ℚ) = m := Int.cast_natCast m
    rw [min_eq_left hge, ← hcast, round_intCast hint, min_fin_fin, if_neg]
    rw [hcast, not_lt]
    exact_mod_cast hge

end F32

end Binary32
