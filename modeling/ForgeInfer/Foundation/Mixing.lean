import Mathlib.Algebra.Ring.Parity
import Mathlib.Data.List.Basic
import Mathlib.Data.Nat.ModEq
import Mathlib.Data.Nat.Prime.Basic

/-! # Mixing machine words

The steps that integer hashes are built from lose nothing: xor with a word, addition of a
word, multiplication by an odd one, and xor with the word's own shift to the right. A fold of
such steps tells lists apart that differ in one place.
-/

namespace Mixing

open Function

theorem eq_zero_of_shiftRight_eq {d k : UInt64} (hk : 0 < k.toNat % 64) (h : d >>> k = d) :
    d = 0 := by
  have hnat := congrArg UInt64.toNat h
  rw [UInt64.toNat_shiftRight, Nat.shiftRight_eq_div_pow] at hnat
  have hpow : 1 < 2 ^ (k.toNat % 64) := Nat.one_lt_two_pow hk.ne'
  apply UInt64.toNat_inj.mp
  by_contra hne
  exact (Nat.div_lt_self (Nat.pos_of_ne_zero hne) hpow).ne hnat

theorem xor_shiftRight_injective {k : UInt64} (hk : 0 < k.toNat % 64) :
    Injective fun h : UInt64 => h ^^^ (h >>> k) := by
  intro a b hab
  -- the difference of the two words is its own shift
  have hdiff : (a ^^^ b) >>> k = a ^^^ b := by
    have hzero : (a ^^^ (a >>> k)) ^^^ (b ^^^ (b >>> k)) = 0 := UInt64.xor_eq_zero_iff.mpr hab
    rw [UInt64.shiftRight_xor, ← UInt64.xor_eq_zero_iff, ← hzero]
    ac_rfl
  exact UInt64.xor_eq_zero_iff.mp (eq_zero_of_shiftRight_eq hk hdiff)

theorem mul_injective {c : UInt64} (hc : c.toNat % 2 = 1) : Injective fun h : UInt64 => h * c := by
  intro a b hab
  have hnat := congrArg UInt64.toNat hab
  simp only [UInt64.toNat_mul] at hnat
  have hcoprime : (2 ^ 64).Coprime c.toNat :=
    Nat.Coprime.pow_left 64 ((Nat.odd_iff.mpr hc).coprime_two_left)
  have hmod : a.toNat ≡ b.toNat [MOD 2 ^ 64] := Nat.ModEq.cancel_right_of_coprime hcoprime hnat
  exact UInt64.toNat_inj.mp (hmod.eq_of_lt_of_lt a.toNat_lt b.toNat_lt)

section Fold

variable {α β : Type*} {step : β → α → β}

theorem foldl_injective (hstep : ∀ x, Injective (step · x)) (xs : List α) :
    Injective (xs.foldl step ·) := by
  induction xs with
  | nil => exact injective_id
  | cons x xs ih => exact ih.comp (hstep x)

/-- It tells lists apart that differ in one place, when its steps tell the elements apart. -/
theorem foldl_ne (hstep : ∀ x, Injective (step · x)) {x y : α} (hne : ∀ s, step s x ≠ step s y)
    (s : β) (us vs : List α) : (us ++ x :: vs).foldl step s ≠ (us ++ y :: vs).foldl step s := by
  rw [List.foldl_append, List.foldl_append, List.foldl_cons, List.foldl_cons]
  exact (foldl_injective hstep vs).ne (hne _)

end Fold

end Mixing
