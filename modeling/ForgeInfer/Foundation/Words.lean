import ForgeInfer.Foundation.Blocks
import Mathlib.Algebra.BigOperators.Group.List.Basic
import Mathlib.Algebra.Order.Ring.Int

/-! # Machine words

Unsigned arithmetic of a fixed width, on the numbers the words stand for. A build either
checks every result and panics, written `none`, on one that does not fit, or wraps it. A
result that fits is exact either way.
-/

namespace Words

/-- The arithmetic of a build: how many words there are, and whether results are checked. -/
structure Profile where
  size : ℕ
  checks : Bool

def usize (checks : Bool) : Profile := ⟨2 ^ 64, checks⟩

namespace Profile

variable {P : Profile} {a b : ℕ}

def fit (P : Profile) (result : ℤ) : Option ℕ :=
  if 0 ≤ result ∧ result < P.size then some result.toNat
  else if P.checks then none
  else some (result % P.size).toNat

def add (P : Profile) (a b : ℕ) : Option ℕ := P.fit (a + b)

def sub (P : Profile) (a b : ℕ) : Option ℕ := P.fit (a - b)

def mul (P : Profile) (a b : ℕ) : Option ℕ := P.fit (a * b)

/-- The quotient rounded up: one is added when there is a remainder. -/
def divCeil (P : Profile) (a b : ℕ) : Option ℕ :=
  if 0 < a % b then P.add (a / b) 1 else some (a / b)

theorem fit_natCast (h : a < P.size) : P.fit a = some a := by
  rw [fit, if_pos ⟨Int.natCast_nonneg a, by exact_mod_cast h⟩, Int.toNat_natCast]

theorem add_eq (h : a + b < P.size) : P.add a b = some (a + b) := by
  rw [add, ← Nat.cast_add]
  exact fit_natCast h

theorem sub_eq (hb : b ≤ a) (ha : a < P.size) : P.sub a b = some (a - b) := by
  rw [sub, ← Nat.cast_sub hb]
  exact fit_natCast ((Nat.sub_le a b).trans_lt ha)

theorem mul_eq (h : a * b < P.size) : P.mul a b = some (a * b) := by
  rw [mul, ← Nat.cast_mul]
  exact fit_natCast h

theorem divCeil_eq (hb : 0 < b) (ha : a < P.size) : P.divCeil a b = some (a ⌈/⌉ b) := by
  have hdiv := Nat.div_add_mod' a b
  have hmod := Nat.mod_lt a hb
  rw [divCeil]
  split
  · next hrem =>
    have hle : a / b + 1 ≤ a := by
      have := Nat.le_mul_of_pos_right (a / b) hb
      omega
    have hceil : a ⌈/⌉ b = a / b + 1 := by
      conv_lhs => rw [← hdiv, Blocks.mul_add_ceilDiv hb]
      congr 1
      apply le_antisymm
      · rw [Blocks.ceilDiv_le_iff hb, one_mul]
        exact hmod.le
      · rw [Nat.one_le_iff_ne_zero, Ne, Blocks.ceilDiv_eq_zero_iff hb]
        exact hrem.ne'
    rw [hceil]
    exact add_eq (hle.trans_lt ha)
  · next hrem =>
    have hzero : a % b = 0 := Nat.eq_zero_of_not_pos hrem
    rw [hzero, Nat.add_zero] at hdiv
    conv_rhs => rw [← hdiv, ← Nat.add_zero (a / b * b), Blocks.mul_add_ceilDiv hb]
    rw [(Blocks.ceilDiv_eq_zero_iff hb).mpr rfl, Nat.add_zero]

/-- A sum whose total fits is exact, and so are its partial sums. -/
theorem foldlM_add_eq {α : Type*} (value : α → ℕ) (word : α → Option ℕ) (l : List α) (total : ℕ)
    (hword : ∀ x ∈ l, word x = some (value x)) (h : total + (l.map value).sum < P.size) :
    l.foldlM (fun total x => do P.add total (← word x)) total =
      some (total + (l.map value).sum) := by
  induction l generalizing total with
  | nil => rfl
  | cons x l ih =>
    rw [List.map_cons, List.sum_cons] at h ⊢
    have hstep : (do P.add total (← word x)) = some (total + value x) := by
      rw [hword x List.mem_cons_self]
      exact add_eq (by omega)
    rw [List.foldlM_cons, hstep]
    have hrest := ih (total + value x) (fun y hy => hword y (List.mem_cons_of_mem x hy)) (by omega)
    exact hrest.trans (congrArg some (Nat.add_assoc _ _ _))

end Profile

end Words
