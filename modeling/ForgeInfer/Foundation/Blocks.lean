import Mathlib.Algebra.Order.Floor.Div
import Mathlib.Tactic.Ring

/-! # Counting blocks

How many blocks of `b` slots hold `n` items, and how that count grows with `n`.
-/

namespace Blocks

variable {b : ℕ}

theorem ceilDiv_mono (hb : 0 < b) {m n : ℕ} (h : m ≤ n) : m ⌈/⌉ b ≤ n ⌈/⌉ b :=
  (gc_mul_ceilDiv hb).monotone_l h

theorem le_ceilDiv_mul (hb : 0 < b) (n : ℕ) : n ≤ n ⌈/⌉ b * b := by
  rw [mul_comm]; exact le_smul_ceilDiv hb

theorem ceilDiv_le_iff (hb : 0 < b) {n k : ℕ} : n ⌈/⌉ b ≤ k ↔ n ≤ k * b := by
  rw [ceilDiv_le_iff_le_mul hb, mul_comm]

theorem ceilDiv_eq_zero_iff (hb : 0 < b) {n : ℕ} : n ⌈/⌉ b = 0 ↔ n = 0 := by
  rw [← Nat.le_zero, ceilDiv_le_iff hb]; omega

theorem mul_add_ceilDiv (hb : 0 < b) (q m : ℕ) : (q * b + m) ⌈/⌉ b = q + m ⌈/⌉ b := by
  apply eq_of_forall_ge_iff
  intro k
  rw [ceilDiv_le_iff hb]
  rcases Nat.lt_or_ge k q with h | h
  · have := Nat.mul_le_mul_right b (show k + 1 ≤ q from h)
    rw [Nat.add_mul] at this
    omega
  · obtain ⟨d, rfl⟩ := Nat.exists_eq_add_of_le h
    rw [Nat.add_mul, Nat.add_le_add_iff_left, Nat.add_le_add_iff_left, ceilDiv_le_iff hb]

theorem slack_lt (hb : 0 < b) (n : ℕ) : n ⌈/⌉ b * b - n < b := by
  rw [Nat.ceilDiv_eq_add_pred_div]
  have := Nat.div_mul_le_self (n + b - 1) b
  omega

/-- Items that fit in the slack take no new block; the others are counted from zero. -/
theorem ceilDiv_add (hb : 0 < b) (n k : ℕ) :
    (n + k) ⌈/⌉ b =
      n ⌈/⌉ b + if k ≤ n ⌈/⌉ b * b - n then 0 else (k - (n ⌈/⌉ b * b - n)) ⌈/⌉ b := by
  have hle := le_ceilDiv_mul hb n
  split
  · next h =>
    apply le_antisymm
    · rw [ceilDiv_le_iff hb]; simpa using (by omega : n + k ≤ n ⌈/⌉ b * b)
    · exact ceilDiv_mono hb (Nat.le_add_right n k)
  · next h =>
    rw [← mul_add_ceilDiv hb]
    congr 1
    omega

theorem ceilDiv_succ_le (hb : 0 < b) (n : ℕ) : (n + 1) ⌈/⌉ b ≤ n ⌈/⌉ b + 1 := by
  rw [ceilDiv_le_iff hb, Nat.add_mul, one_mul]
  exact Nat.add_le_add (le_ceilDiv_mul hb n) hb

end Blocks
