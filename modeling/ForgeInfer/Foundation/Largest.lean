import Mathlib.Algebra.GroupWithZero.Nat
import Mathlib.Data.List.Sort
import Mathlib.Algebra.Order.BigOperators.Group.List

/-! # The largest entries of a list

The sum of the `b` largest entries bounds the sum of any `b` of them, and it grows with the
list.
-/

namespace Largest

/-- The sum of the `b` largest entries. -/
def sum (b : ℕ) (l : List ℕ) : ℕ := ((l.insertionSort (· ≥ ·)).take b).sum

variable {b : ℕ} {l m : List ℕ}

theorem sum_le_take_of_sublist (hl : l.Pairwise (· ≥ ·)) (h : m.Sublist l) (hb : m.length ≤ b) :
    m.sum ≤ (l.take b).sum := by
  induction l generalizing m b with
  | nil => rw [List.sublist_nil.mp h]; exact Nat.zero_le _
  | cons x l ih =>
    rw [List.pairwise_cons] at hl
    cases m with
    | nil => exact Nat.zero_le _
    | cons y m =>
      cases b with
      | zero => exact absurd hb (Nat.not_succ_le_zero _)
      | succ b =>
        have hyx : y ≤ x := by
          rcases List.mem_cons.mp (h.subset List.mem_cons_self) with rfl | hy
          · exact le_rfl
          · exact hl.1 y hy
        have htail : m.Sublist l := h.tail
        rw [List.take_succ_cons, List.sum_cons, List.sum_cons]
        exact Nat.add_le_add hyx (ih hl.2 htail (Nat.le_of_succ_le_succ hb))

/-- Any `b` entries sum to no more than the `b` largest. -/
theorem sum_le_sum (h : m.Subperm l) (hb : m.length ≤ b) : m.sum ≤ sum b l := by
  have hm := List.perm_insertionSort (· ≥ ·) m
  have hl := List.perm_insertionSort (· ≥ ·) l
  have hs : (m.insertionSort (· ≥ ·)).Sublist (l.insertionSort (· ≥ ·)) := by
    apply List.sublist_of_subperm_of_pairwise (r := (· ≥ ·))
    · exact hm.subperm.trans (h.trans hl.symm.subperm)
    · exact List.pairwise_insertionSort (· ≥ ·) m
    · exact List.pairwise_insertionSort (· ≥ ·) l
  rw [← hm.sum_eq]
  exact sum_le_take_of_sublist (List.pairwise_insertionSort (· ≥ ·) l) hs (hm.length_eq.trans_le hb)

theorem sum_mono (h : m.Subperm l) : sum b m ≤ sum b l := by
  have hm := List.perm_insertionSort (· ≥ ·) m
  have hs : ((m.insertionSort (· ≥ ·)).take b).Subperm l :=
    (List.take_sublist b _).subperm.trans (hm.subperm.trans h)
  exact sum_le_sum hs (List.length_take_le b _)

theorem sum_succ_of_perm {x : ℕ} (h : l.Perm (x :: m)) (hx : ∀ y ∈ m, y ≤ x) :
    sum (b + 1) l = x + sum b m := by
  have hsort : l.insertionSort (· ≥ ·) = x :: m.insertionSort (· ≥ ·) := by
    have hm := List.perm_insertionSort (· ≥ ·) m
    have hperm : (l.insertionSort (· ≥ ·)).Perm (x :: m.insertionSort (· ≥ ·)) :=
      (List.perm_insertionSort (· ≥ ·) l).trans (h.trans (hm.symm.cons x))
    refine hperm.eq_of_pairwise' (List.pairwise_insertionSort (· ≥ ·) l) ?_
    rw [List.pairwise_cons]
    exact ⟨fun y hy => hx y (hm.mem_iff.mp hy), List.pairwise_insertionSort (· ≥ ·) m⟩
  rw [sum, sum, hsort, List.take_succ_cons, List.sum_cons]

@[simp] theorem sum_nil (b : ℕ) : sum b [] = 0 := by
  simp [sum]

@[simp] theorem sum_zero (l : List ℕ) : sum 0 l = 0 := by
  simp [sum]

end Largest
