import Mathlib.Algebra.Order.Field.Rat
import Mathlib.Data.Int.Log
import Mathlib.Data.Rat.Floor
import Mathlib.Tactic.Linarith

/-! # Binary32 arithmetic

Single precision numbers with their values read as rationals. An operation computes the
exact result and rounds it to the nearest representable number, ties to an even
significand. NaN carries no payload, and the two zeros are one value, read as `+0`.
-/

namespace Binary32

/-- Finite values: at most 24 significant bits, and neither too fine nor too large. -/
def Representable (q : ℚ) : Prop :=
  ∃ m e : ℤ, |m| ≤ 2 ^ 24 ∧ -149 ≤ e ∧ q = m * 2 ^ e ∧ |q| < 2 ^ 128

theorem representable_zero : Representable 0 :=
  ⟨0, 0, by norm_num, by norm_num, by norm_num, by norm_num⟩

theorem representable_one : Representable 1 :=
  ⟨1, 0, by norm_num, by norm_num, by norm_num, by norm_num⟩

/-- The nearest integer, ties to even. -/
def roundHalfEven (x : ℚ) : ℤ :=
  if x - ⌊x⌋ < 1 / 2 then ⌊x⌋
  else if 1 / 2 < x - ⌊x⌋ then ⌊x⌋ + 1
  else if ⌊x⌋ % 2 = 0 then ⌊x⌋ else ⌊x⌋ + 1

theorem floor_le_roundHalfEven (x : ℚ) : ⌊x⌋ ≤ roundHalfEven x := by
  unfold roundHalfEven; split_ifs <;> omega

theorem roundHalfEven_le_ceil (x : ℚ) : roundHalfEven x ≤ ⌈x⌉ := by
  have hc : x - ⌊x⌋ < 1 / 2 ∨ ⌊x⌋ + 1 ≤ ⌈x⌉ := by
    by_cases h : x - ⌊x⌋ < 1 / 2
    · exact Or.inl h
    · exact Or.inr (Int.add_one_le_iff.mpr (Int.lt_ceil.mpr (by linarith)))
  have hf := Int.floor_le_ceil x
  unfold roundHalfEven
  split_ifs <;> rcases hc with hc | hc <;> first | omega | contradiction

theorem abs_roundHalfEven_le {x : ℚ} {n : ℤ} (h : |x| ≤ n) : |roundHalfEven x| ≤ n := by
  rw [abs_le] at h ⊢
  constructor
  · exact (Int.le_floor.mpr (by exact_mod_cast h.1)).trans (floor_le_roundHalfEven x)
  · exact (roundHalfEven_le_ceil x).trans (Int.ceil_le.mpr h.2)

/-- The exponent of the last significant bit kept of `x`. -/
def ulpExponent (x : ℚ) : ℤ := max (-149) (Int.log 2 |x| - 23)

/-- `x` rounded to 24 significant bits, with no bound on its size. -/
def nearest (x : ℚ) : ℚ := roundHalfEven (x / 2 ^ ulpExponent x) * 2 ^ ulpExponent x

theorem abs_scaled_le (x : ℚ) : |x / 2 ^ ulpExponent x| ≤ (2 ^ 24 : ℤ) := by
  have hp : (0 : ℚ) < 2 ^ ulpExponent x := zpow_pos (by norm_num) _
  rw [abs_div, abs_of_pos hp, div_le_iff₀ hp]
  have hl : |x| < (2 : ℚ) ^ (Int.log 2 |x| + 1) := by
    exact_mod_cast Int.lt_zpow_succ_log_self (b := 2) (by norm_num) |x|
  have he : Int.log 2 |x| + 1 ≤ 24 + ulpExponent x := by unfold ulpExponent; omega
  calc |x| ≤ (2 : ℚ) ^ (Int.log 2 |x| + 1) := hl.le
    _ ≤ 2 ^ (24 + ulpExponent x) := zpow_le_zpow_right₀ (by norm_num) he
    _ = (2 ^ 24 : ℤ) * 2 ^ ulpExponent x := by
      rw [zpow_add₀ (by norm_num)]; norm_num

theorem representable_nearest {x : ℚ} (h : |nearest x| < 2 ^ 128) :
    Representable (nearest x) :=
  ⟨roundHalfEven (x / 2 ^ ulpExponent x), ulpExponent x,
    abs_roundHalfEven_le (abs_scaled_le x), le_max_left _ _, rfl, h⟩

inductive F32 where
  | nan
  | negInf
  | fin (q : ℚ) (h : Representable q)
  | posInf
  deriving DecidableEq

namespace F32

instance : Zero F32 := ⟨fin 0 representable_zero⟩
instance : One F32 := ⟨fin 1 representable_one⟩

/-- Correct rounding to nearest, overflowing to an infinity. -/
def round (x : ℚ) : F32 :=
  if h : |nearest x| < 2 ^ 128 then fin (nearest x) (representable_nearest h)
  else if 0 < x then posInf else negInf

def ltB : F32 → F32 → Bool
  | nan, _ | _, nan | _, negInf | posInf, _ => false
  | negInf, _ | _, posInf => true
  | fin p _, fin q _ => decide (p < q)

def leB : F32 → F32 → Bool
  | nan, _ | _, nan => false
  | negInf, _ | _, posInf => true
  | _, negInf | posInf, _ => false
  | fin p _, fin q _ => decide (p ≤ q)

instance : LT F32 := ⟨fun x y => ltB x y = true⟩
instance : LE F32 := ⟨fun x y => leB x y = true⟩
instance (x y : F32) : Decidable (x < y) := inferInstanceAs (Decidable (ltB x y = true))
instance (x y : F32) : Decidable (x ≤ y) := inferInstanceAs (Decidable (leB x y = true))

instance : Add F32 where
  add
    | nan, _ | _, nan | posInf, negInf | negInf, posInf => nan
    | posInf, _ | _, posInf => posInf
    | negInf, _ | _, negInf => negInf
    | fin p _, fin q _ => round (p + q)

instance : Sub F32 where
  sub
    | nan, _ | _, nan | posInf, posInf | negInf, negInf => nan
    | posInf, _ | _, negInf => posInf
    | negInf, _ | _, posInf => negInf
    | fin p _, fin q _ => round (p - q)

instance : Div F32 where
  div
    | nan, _ | _, nan | posInf, posInf | posInf, negInf | negInf, posInf | negInf, negInf => nan
    | fin _ _, posInf | fin _ _, negInf => 0
    | posInf, fin q _ => if q < 0 then negInf else posInf
    | negInf, fin q _ => if q < 0 then posInf else negInf
    | fin p _, fin q _ =>
      if q = 0 then if p = 0 then nan else if p < 0 then negInf else posInf else round (p / q)

/-- The larger number; a NaN gives way to the other argument. -/
instance : Max F32 where
  max
    | nan, y => y
    | x, nan => x
    | x, y => if ltB x y then y else x

/-- The smaller number; a NaN gives way to the other argument. -/
instance : Min F32 where
  min
    | nan, y => y
    | x, nan => x
    | x, y => if ltB y x then y else x

end F32

end Binary32
