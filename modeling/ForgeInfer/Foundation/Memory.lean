import ForgeInfer.Foundation.Greedy
import Mathlib.Data.Finset.Card
import Mathlib.Data.Nat.Find
import Mathlib.Data.Set.Function
import Mathlib.Logic.Function.Iterate

/-! # Greedy decoding with a memory

When the next token depends on a summary of the context, decoding is the run of a machine on
summaries. Contexts with one summary are continued alike; and over finitely many summaries a
stop token comes within as many tokens or not at all.
-/

namespace Greedy

open Function

/-- What some run of a function reaches, it reaches before its states repeat. -/
theorem exists_iterate_lt_card {σ : Type*} {f : σ → σ} {S : Finset σ} (hS : Set.MapsTo f S S)
    {s : σ} (hs : s ∈ S) {P : σ → Prop} (h : ∃ k, P (f^[k] s)) : ∃ k < S.card, P (f^[k] s) := by
  classical
  refine ⟨Nat.find h, ?_, Nat.find_spec h⟩
  by_contra hlate
  rw [not_lt] at hlate
  have hmaps : Set.MapsTo (f^[·] s) (Finset.range (S.card + 1)) S := fun k _ => hS.iterate k hs
  obtain ⟨i, hi, j, hj, hne, hij⟩ := Finset.exists_ne_map_eq_of_card_lt_of_maps_to
    (by rw [Finset.card_range]; exact S.card.lt_succ_self) hmaps
  -- of two equal states the later one can be skipped
  have hskip : ∀ {i j : ℕ}, i < j → j < S.card + 1 → f^[i] s = f^[j] s → False := by
    intro i j hlt hj heq
    have hfind := Nat.find_spec h
    rw [show Nat.find h = (Nat.find h - j) + j by omega, iterate_add_apply, ← heq,
      ← iterate_add_apply] at hfind
    exact Nat.find_min h (by omega) hfind
  rcases lt_or_gt_of_ne hne with hlt | hlt
  · exact hskip hlt (Finset.mem_range.mp hj) hij
  · exact hskip hlt (Finset.mem_range.mp hi) hij.symm

variable {α σ : Type*} {next : List α → α}

/-- The contexts of decoding that does not stop. -/
def run (next : List α → α) (k : ℕ) (ctx : List α) : List α := (fun c => c ++ [next c])^[k] ctx

theorem run_eq_append (next : List α → α) (k : ℕ) (ctx : List α) :
    ∃ toks, run next k ctx = ctx ++ toks ∧ toks.length = k ∧ ∀ t ∈ toks, ∃ c, t = next c := by
  induction k with
  | zero => exact ⟨[], (List.append_nil ctx).symm, rfl, by simp⟩
  | succ k ih =>
    obtain ⟨toks, hrun, hlen, htoks⟩ := ih
    refine ⟨toks ++ [next (run next k ctx)], ?_, by simp [hlen], ?_⟩
    · rw [← List.append_assoc, ← hrun]
      exact iterate_succ_apply' _ _ _
    · intro t ht
      rcases List.mem_append.mp ht with hold | hnew
      · exact htoks t hold
      · exact ⟨_, List.mem_singleton.mp hnew⟩

/-- A summary of the contexts in scope, from which the next token and summary follow. -/
structure Memory (next : List α → α) (σ : Type*) where
  scope : List α → Prop
  view : List α → σ
  choose : σ → α
  move : σ → σ
  scope_next : ∀ {ctx}, scope ctx → scope (ctx ++ [next ctx])
  next_eq : ∀ {ctx}, scope ctx → next ctx = choose (view ctx)
  view_next : ∀ {ctx}, scope ctx → view (ctx ++ [next ctx]) = move (view ctx)

namespace Memory

theorem run_spec (M : Memory next σ) {ctx : List α} (hctx : M.scope ctx) (k : ℕ) :
    M.scope (run next k ctx) ∧ M.view (run next k ctx) = M.move^[k] (M.view ctx) := by
  induction k generalizing ctx with
  | zero => exact ⟨hctx, rfl⟩
  | succ k ih =>
    rw [iterate_succ_apply, ← M.view_next hctx]
    exact ih (M.scope_next hctx)

end Memory

variable [DecidableEq α] {stop : α}

theorem mem_decode_iff {ctx : List α} {n : ℕ} :
    stop ∈ decode next stop ctx n ↔ ∃ k < n, next (run next k ctx) = stop := by
  induction n generalizing ctx with
  | zero => simp
  | succ n ih =>
    by_cases hs : next ctx = stop
    · rw [decode_succ_of_stop hs, hs]
      exact iff_of_true (List.mem_singleton_self stop) ⟨0, n.succ_pos, hs⟩
    · rw [decode_succ_of_ne hs, List.mem_cons, ih, or_iff_right (Ne.symm hs)]
      constructor
      · rintro ⟨k, hk, hstop⟩
        exact ⟨k + 1, Nat.succ_lt_succ hk, hstop⟩
      · rintro ⟨k, hk, hstop⟩
        cases k with
        | zero => exact absurd hstop hs
        | succ k => exact ⟨k, Nat.lt_of_succ_lt_succ hk, hstop⟩

theorem mem_decode_of_le {ctx : List α} {n n' : ℕ} (hn : n ≤ n')
    (h : stop ∈ decode next stop ctx n) : stop ∈ decode next stop ctx n' := by
  obtain ⟨k, hk, hstop⟩ := mem_decode_iff.mp h
  exact mem_decode_iff.mpr ⟨k, hk.trans_le hn, hstop⟩

namespace Memory

variable (M : Memory next σ) {ctx ctx' : List α}

theorem decode_eq (hctx : M.scope ctx) (hctx' : M.scope ctx') (hview : M.view ctx = M.view ctx')
    (n : ℕ) : decode next stop ctx n = decode next stop ctx' n := by
  induction n generalizing ctx ctx' with
  | zero => rfl
  | succ n ih =>
    have hnext : next ctx = next ctx' := by
      rw [M.next_eq hctx, M.next_eq hctx', hview]
    by_cases hs : next ctx = stop
    · rw [decode_succ_of_stop hs, decode_succ_of_stop (hnext ▸ hs), hnext]
    · have hmove : M.view (ctx ++ [next ctx]) = M.view (ctx' ++ [next ctx']) := by
        rw [M.view_next hctx, M.view_next hctx', hview]
      rw [decode_succ_of_ne hs, decode_succ_of_ne (hnext ▸ hs),
        ih (M.scope_next hctx) (M.scope_next hctx') hmove, hnext]

/-- Over finitely many summaries, a stop token comes within as many tokens if ever: here of
the context that `a` tokens lead to. -/
theorem stop_within {a : ℕ} (hctx : M.scope (run next a ctx)) {S : Finset σ}
    (hS : Set.MapsTo M.move S S) (hview : M.view (run next a ctx) ∈ S) {n : ℕ}
    (h : stop ∈ decode next stop ctx n) : stop ∈ decode next stop ctx (a + S.card) := by
  have hnext : ∀ k, next (run next (k + a) ctx) =
      M.choose (M.move^[k] (M.view (run next a ctx))) := by
    intro k
    obtain ⟨hscope, hrun⟩ := M.run_spec hctx k
    rw [run, iterate_add_apply, ← hrun]
    exact M.next_eq hscope
  obtain ⟨k, -, hstop⟩ := mem_decode_iff.mp h
  rw [mem_decode_iff]
  by_cases hk : k < a
  · exact ⟨k, by omega, hstop⟩
  · have hlate : M.choose (M.move^[k - a] (M.view (run next a ctx))) = stop := by
      rw [← hnext, Nat.sub_add_cancel (not_lt.mp hk), hstop]
    obtain ⟨j, hj, hfirst⟩ :=
      exists_iterate_lt_card hS hview (P := fun s => M.choose s = stop) ⟨k - a, hlate⟩
    exact ⟨j + a, by omega, (hnext j).trans hfirst⟩

end Memory

end Greedy
