import Mathlib.Data.List.Basic

/-! # Greedy decoding

Repeatedly append the next token of a context, stopping right after a stop token or
when a budget is used up. The result splits at every point: what has been produced,
followed by greedy decoding of the longer context with the rest of the budget.

A guided decoder carries a state that its choices read. It is a greedy decoder exactly
when it chooses as that one does along that one's own output.
-/

namespace Greedy

variable {α : Type*}

section Decode

variable [DecidableEq α]

/-- At most `n` tokens of greedy decoding from `ctx`, the first `stop` included. -/
def decode (next : List α → α) (stop : α) : List α → ℕ → List α
  | _, 0 => []
  | ctx, n + 1 =>
    next ctx :: if next ctx = stop then [] else decode next stop (ctx ++ [next ctx]) n

variable {next : List α → α} {stop : α}

@[simp] theorem decode_zero (ctx : List α) : decode next stop ctx 0 = [] := rfl

theorem decode_succ_of_stop {ctx : List α} (h : next ctx = stop) (n : ℕ) :
    decode next stop ctx (n + 1) = [next ctx] := by
  simp [decode, h]

theorem decode_succ_of_ne {ctx : List α} (h : next ctx ≠ stop) (n : ℕ) :
    decode next stop ctx (n + 1) = next ctx :: decode next stop (ctx ++ [next ctx]) n := by
  simp [decode, h]

theorem decode_ne_nil (ctx : List α) {n : ℕ} (h : 0 < n) : decode next stop ctx n ≠ [] := by
  cases n with
  | zero => omega
  | succ n => simp [decode]

theorem length_decode_le (ctx : List α) (n : ℕ) : (decode next stop ctx n).length ≤ n := by
  induction n generalizing ctx with
  | zero => exact Nat.le_refl 0
  | succ n ih =>
    by_cases hs : next ctx = stop
    · rw [decode_succ_of_stop hs]
      exact Nat.succ_le_succ n.zero_le
    · rw [decode_succ_of_ne hs]
      exact Nat.succ_le_succ (ih _)

/-- One more token: the budget left after it is `0` at the stop token. -/
theorem decode_split (ctx : List α) {n : ℕ} (h : 0 < n) :
    decode next stop ctx n =
      [next ctx] ++ decode next stop (ctx ++ [next ctx])
        (if next ctx = stop then 0 else n - 1) := by
  obtain ⟨n, rfl⟩ := Nat.exists_eq_add_of_lt h
  by_cases hs : next ctx = stop <;> simp [decode, hs]

theorem eq_next_of_decode {ctx : List α} {n i : ℕ} {t : α}
    (h : (decode next stop ctx n)[i]? = some t) :
    t = next (ctx ++ (decode next stop ctx n).take i) := by
  induction n generalizing ctx i with
  | zero => cases h
  | succ n ih =>
    cases i with
    | zero =>
      obtain rfl : next ctx = t := Option.some.inj h
      rw [List.take_zero, List.append_nil]
    | succ i =>
      by_cases hs : next ctx = stop
      · rw [decode_succ_of_stop hs] at h
        cases h
      · rw [decode_succ_of_ne hs] at h ⊢
        rw [ih h, List.take_succ_cons, List.append_assoc, List.singleton_append]

end Decode

variable {σ : Type*}

section Along

def stateAfter (move : σ → List α → σ) : σ → List α → List α → σ
  | s, _, [] => s
  | s, ctx, t :: ts => stateAfter move (move s ctx) (ctx ++ [t]) ts

variable {move : σ → List α → σ} {s : σ} {ctx : List α}

def Along (move : σ → List α → σ) (P : σ → List α → Prop) (s : σ) (ctx toks : List α) : Prop :=
  ∀ i < toks.length, P (stateAfter move s ctx (toks.take i)) (ctx ++ toks.take i)

theorem along_nil (P : σ → List α → Prop) : Along move P s ctx [] := by
  rintro i ⟨⟩

theorem along_cons (P : σ → List α → Prop) (t : α) (ts : List α) :
    Along move P s ctx (t :: ts) ↔ P s ctx ∧ Along move P (move s ctx) (ctx ++ [t]) ts := by
  constructor
  · intro h
    refine ⟨by simpa [stateAfter] using h 0 (by simp), fun i hi => ?_⟩
    simpa [stateAfter] using h (i + 1) (by simpa using hi)
  · rintro ⟨hhead, htail⟩ i hi
    cases i with
    | zero => simpa [stateAfter] using hhead
    | succ i => simpa [stateAfter] using htail i (by simpa using hi)

end Along

section Guided

variable [DecidableEq α]

/-- Decoding by choices that also read a state carried along. -/
def decodeFrom (choose : σ → List α → α) (move : σ → List α → σ) (stop : α) :
    σ → List α → ℕ → List α
  | _, _, 0 => []
  | s, ctx, n + 1 =>
    choose s ctx ::
      if choose s ctx = stop then []
      else decodeFrom choose move stop (move s ctx) (ctx ++ [choose s ctx]) n

variable {choose : σ → List α → α} {move : σ → List α → σ} {next : List α → α} {stop : α}
  {s : σ} {ctx : List α}

@[simp] theorem decodeFrom_zero : decodeFrom choose move stop s ctx 0 = [] := rfl

theorem decodeFrom_succ_of_stop (h : choose s ctx = stop) (n : ℕ) :
    decodeFrom choose move stop s ctx (n + 1) = [choose s ctx] := by
  simp [decodeFrom, h]

theorem decodeFrom_succ_of_ne (h : choose s ctx ≠ stop) (n : ℕ) :
    decodeFrom choose move stop s ctx (n + 1) =
      choose s ctx :: decodeFrom choose move stop (move s ctx) (ctx ++ [choose s ctx]) n := by
  simp [decodeFrom, h]

theorem take_decodeFrom {m n : ℕ} (h : m ≤ n) :
    (decodeFrom choose move stop s ctx n).take m = decodeFrom choose move stop s ctx m := by
  induction m generalizing s ctx n with
  | zero => rfl
  | succ m ih =>
    cases n with
    | zero => exact absurd h (Nat.not_succ_le_zero m)
    | succ n =>
      by_cases hs : choose s ctx = stop
      · rw [decodeFrom_succ_of_stop hs, decodeFrom_succ_of_stop hs, List.take_succ_cons,
          List.take_nil]
      · rw [decodeFrom_succ_of_ne hs, decodeFrom_succ_of_ne hs, List.take_succ_cons,
          ih (Nat.le_of_succ_le_succ h)]

theorem length_decodeFrom_le (n : ℕ) : (decodeFrom choose move stop s ctx n).length ≤ n := by
  rw [← take_decodeFrom (Nat.le_refl n)]
  exact List.length_take_le _ _

theorem last_of_decodeFrom {n i : ℕ} (h : (decodeFrom choose move stop s ctx n)[i]? = some stop) :
    i + 1 = (decodeFrom choose move stop s ctx n).length := by
  induction n generalizing s ctx i with
  | zero => cases h
  | succ n ih =>
    by_cases hs : choose s ctx = stop
    · rw [decodeFrom_succ_of_stop hs] at h ⊢
      obtain ⟨hi, -⟩ := List.getElem?_eq_some_iff.mp h
      exact Nat.le_antisymm (Nat.succ_le_of_lt hi) (Nat.succ_le_succ i.zero_le)
    · rw [decodeFrom_succ_of_ne hs] at h ⊢
      cases i with
      | zero => exact absurd (Option.some.inj h) hs
      | succ i =>
        rw [List.length_cons, ← ih h]

theorem eq_choose_of_decodeFrom {n i : ℕ} {t : α}
    (h : (decodeFrom choose move stop s ctx n)[i]? = some t) :
    ∃ s', t = choose s' (ctx ++ (decodeFrom choose move stop s ctx n).take i) := by
  induction n generalizing s ctx i with
  | zero => cases h
  | succ n ih =>
    cases i with
    | zero =>
      obtain rfl : choose s ctx = t := Option.some.inj h
      exact ⟨s, by rw [List.take_zero, List.append_nil]⟩
    | succ i =>
      by_cases hs : choose s ctx = stop
      · rw [decodeFrom_succ_of_stop hs] at h
        cases h
      · rw [decodeFrom_succ_of_ne hs] at h ⊢
        obtain ⟨s', ht⟩ := ih h
        exact ⟨s', by rw [ht, List.take_succ_cons, List.append_assoc, List.singleton_append]⟩

theorem length_decodeFrom_eq (n : ℕ)
    (h : (decodeFrom choose move stop s ctx n).getLast? ≠ some stop) :
    (decodeFrom choose move stop s ctx n).length = n := by
  induction n generalizing s ctx with
  | zero => rfl
  | succ n ih =>
    by_cases hs : choose s ctx = stop
    · rw [decodeFrom_succ_of_stop hs, hs] at h
      exact absurd rfl h
    · rw [decodeFrom_succ_of_ne hs] at h ⊢
      rw [List.length_cons, ih]
      intro hlast
      apply h
      rw [List.getLast?_cons, hlast]
      rfl

/-- A guided decoder is a greedy one exactly when it chooses as that one does along it. -/
theorem decodeFrom_eq_decode_iff (n : ℕ) :
    decodeFrom choose move stop s ctx n = decode next stop ctx n ↔
      Along move (fun s ctx => choose s ctx = next ctx) s ctx (decode next stop ctx n) := by
  induction n generalizing s ctx with
  | zero => simpa using along_nil _
  | succ n ih =>
    by_cases hc : choose s ctx = next ctx
    · by_cases hs : next ctx = stop
      · rw [decodeFrom_succ_of_stop (hc.trans hs), decode_succ_of_stop hs, along_cons, hc]
        exact iff_of_true rfl ⟨rfl, along_nil _⟩
      · rw [decodeFrom_succ_of_ne (hc ▸ hs), decode_succ_of_ne hs, along_cons, hc,
          List.cons_inj_right, ih]
        exact (and_iff_right rfl).symm
    · obtain ⟨ts, hts⟩ : ∃ ts, decode next stop ctx (n + 1) = next ctx :: ts := ⟨_, rfl⟩
      rw [hts, along_cons]
      exact iff_of_false (fun h => hc (List.cons.inj h).1) fun h => hc h.1

theorem decodeFrom_unit (ctx : List α) (n : ℕ) :
    decodeFrom (fun _ : Unit => next) (fun s _ => s) stop () ctx n = decode next stop ctx n :=
  (decodeFrom_eq_decode_iff n).mpr fun _ _ => rfl

theorem last_of_decode {n i : ℕ} (h : (decode next stop ctx n)[i]? = some stop) :
    i + 1 = (decode next stop ctx n).length := by
  rw [← decodeFrom_unit] at h ⊢
  exact last_of_decodeFrom h

theorem length_decode_eq (n : ℕ) (h : (decode next stop ctx n).getLast? ≠ some stop) :
    (decode next stop ctx n).length = n := by
  rw [← decodeFrom_unit] at h ⊢
  exact length_decodeFrom_eq n h

theorem take_decode (ctx : List α) (n k : ℕ) :
    (decode next stop ctx n).take k = decode next stop ctx (min n k) := by
  rcases Nat.le_total k n with hk | hk
  · rw [Nat.min_eq_right hk, ← decodeFrom_unit, ← decodeFrom_unit]
    exact take_decodeFrom hk
  · rw [Nat.min_eq_left hk]
    exact List.take_of_length_le (Nat.le_trans (length_decode_le ctx n) hk)

theorem eq_length_of_take_decode {n k : ℕ} (hk : k ≤ (decode next stop ctx n).length)
    (h : ((decode next stop ctx n).take k).getLast? = some stop) :
    k = (decode next stop ctx n).length := by
  cases k with
  | zero => cases h
  | succ k =>
    rw [List.getLast?_eq_getElem?, List.length_take_of_le hk, Nat.add_sub_cancel,
      List.getElem?_take_of_lt k.lt_succ_self] at h
    exact last_of_decode h

end Guided

end Greedy
