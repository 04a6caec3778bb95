import Mathlib.Algebra.Order.Ring.Nat
import Mathlib.Data.Finset.Lattice.Fold
import Mathlib.Data.Finset.Max
import Mathlib.Order.Lattice.Nat

/-! # Ascending maps of the numbers

A map that ascends on a finite set only need not extend to one that ascends everywhere, but
it does up to one: its images are spread far enough apart to move the rest in between. And
what ascending maps that agree on a set do to other numbers, they may do differently.
-/

namespace Ascending

variable {S : Finset ℕ} {f : ℕ → ℕ}

def mark (S : Finset ℕ) (n : ℕ) : ℕ := if n ∈ S then 2 * n else 2 * n + 1

theorem strictMono_mark (S : Finset ℕ) : StrictMono (mark S) := by
  intro m n h
  unfold mark
  split <;> split <;> omega

theorem mark_eq_two_mul_iff {n : ℕ} : mark S n = 2 * n ↔ n ∈ S := by
  unfold mark
  split <;> simpa

def spread (gap n : ℕ) : ℕ := (n + 1) * gap

theorem strictMono_spread {gap : ℕ} (h : 0 < gap) : StrictMono (spread gap) := fun _ _ hmn =>
  Nat.mul_lt_mul_of_pos_right (Nat.succ_lt_succ hmn) h

theorem spread_add_le {gap m n : ℕ} (h : m < n) : spread gap m + gap ≤ spread gap n := by
  have hsucc : spread gap m + gap = (m + 1 + 1) * gap := (Nat.succ_mul (m + 1) gap).symm
  rw [hsucc]
  exact Nat.mul_le_mul_right _ (Nat.succ_le_succ h)

/-- Moves the images of the set to their spread places, and every other number along with the
images below it. -/
def lift (S : Finset ℕ) (f : ℕ → ℕ) (gap m : ℕ) : ℕ :=
  m + (S.filter fun n => f n ≤ m).sup fun n => spread gap n - f n

theorem strictMono_lift (S : Finset ℕ) (f : ℕ → ℕ) (gap : ℕ) : StrictMono (lift S f gap) := by
  intro m m' h
  refine Nat.add_lt_add_of_lt_of_le h (Finset.sup_mono ?_)
  exact Finset.monotone_filter_right S fun n _ hn => hn.trans h.le

theorem lift_apply (hf : StrictMonoOn f S) {gap : ℕ} (hgap : ∀ n ∈ S, f n ≤ gap) {n : ℕ}
    (hn : n ∈ S) : lift S f gap (f n) = spread gap n := by
  have hsup : ((S.filter fun i => f i ≤ f n).sup fun i => spread gap i - f i) =
      spread gap n - f n := by
    apply le_antisymm
    · apply Finset.sup_le
      intro i hi
      obtain ⟨hi, hle⟩ := Finset.mem_filter.mp hi
      rcases ((hf.le_iff_le hi hn).mp hle).eq_or_lt with rfl | hlt
      · exact le_rfl
      · have hfar : spread gap i + gap ≤ spread gap n := spread_add_le hlt
        have := hgap n hn
        omega
    · exact Finset.le_sup (f := fun i => spread gap i - f i)
        (Finset.mem_filter.mpr ⟨hn, le_rfl⟩)
  have hle : f n ≤ spread gap n :=
    (hgap n hn).trans (Nat.le_mul_of_pos_left gap (Nat.succ_pos n))
  rw [lift, hsup, Nat.add_sub_cancel' hle]

/-- A map that ascends on a finite set agrees with an everywhere ascending one, up to one. -/
theorem exists_common (hf : StrictMonoOn f S) :
    ∃ a b : ℕ → ℕ, StrictMono a ∧ StrictMono b ∧ ∀ n ∈ S, a (f n) = b n := by
  refine ⟨lift S f (S.sup f + 1), spread (S.sup f + 1), strictMono_lift _ _ _,
    strictMono_spread (Nat.succ_pos _), fun n hn => ?_⟩
  exact lift_apply hf (fun i hi => (Finset.le_sup hi).trans (Nat.le_succ _)) hn

end Ascending
