import Mathlib.Data.List.Chain

/-! # Lossy UTF-8 decoding

A decoder that reads a byte at a time and knows what the character it has started still
needs. A byte that cannot continue that character ends it as one replacement character and
is read again, so every maximal invalid piece of the input becomes one replacement.
-/

namespace Utf8

/-- A started character: the continuation bytes after the next one, the range of the next
one, and the code point read so far. -/
structure Expect where
  more : ℕ
  lo : UInt8
  hi : UInt8
  code : ℕ
  deriving DecidableEq

namespace Expect

def Takes (e : Expect) (b : UInt8) : Prop := e.lo ≤ b ∧ b ≤ e.hi

instance (e : Expect) (b : UInt8) : Decidable (e.Takes b) :=
  inferInstanceAs (Decidable (_ ∧ _))

def push (e : Expect) (b : UInt8) : ℕ := e.code * 64 + b.toNat % 64

end Expect

/-- The character that a byte starts, when it takes more than one byte. -/
def lead (b : UInt8) : Option Expect :=
  if 0xC2 ≤ b ∧ b ≤ 0xDF then some ⟨0, 0x80, 0xBF, b.toNat - 0xC0⟩
  else if b = 0xE0 then some ⟨1, 0xA0, 0xBF, 0⟩
  else if b = 0xED then some ⟨1, 0x80, 0x9F, 0xD⟩
  else if 0xE1 ≤ b ∧ b ≤ 0xEF then some ⟨1, 0x80, 0xBF, b.toNat - 0xE0⟩
  else if b = 0xF0 then some ⟨2, 0x90, 0xBF, 0⟩
  else if b = 0xF4 then some ⟨2, 0x80, 0x8F, 4⟩
  else if 0xF1 ≤ b ∧ b ≤ 0xF3 then some ⟨2, 0x80, 0xBF, b.toNat - 0xF0⟩
  else none

def replacement : Char := '\uFFFD'

def first (b : UInt8) : List Char × Option Expect :=
  match lead b with
  | some e => ([], some e)
  | none => ([if b < 0x80 then Char.ofNat b.toNat else replacement], none)

def feed : Option Expect → UInt8 → List Char × Option Expect
  | none, b => first b
  | some e, b =>
    if e.Takes b then
      match e.more with
      | 0 => ([Char.ofNat (e.push b)], none)
      | k + 1 => ([], some ⟨k, 0x80, 0xBF, e.push b⟩)
    else (replacement :: (first b).1, (first b).2)

/-- The end of the input cuts a started character short. -/
def flush : Option Expect → List Char
  | none => []
  | some _ => [replacement]

def lossyFrom : Option Expect → List UInt8 → List Char
  | p, [] => flush p
  | p, b :: bs => (feed p b).1 ++ lossyFrom (feed p b).2 bs

def lossy (bs : List UInt8) : List Char := lossyFrom none bs

@[simp] theorem lossyFrom_nil (p : Option Expect) : lossyFrom p [] = flush p := rfl

theorem lossyFrom_cons (p : Option Expect) (b : UInt8) (bs : List UInt8) :
    lossyFrom p (b :: bs) = (feed p b).1 ++ lossyFrom (feed p b).2 bs := rfl

theorem first_snd (b : UInt8) : (first b).2 = lead b := by
  unfold first
  split
  · next h => exact h.symm
  · next h => exact h.symm

/-- A byte between characters is a character, or starts one. -/
theorem length_first (b : UInt8) : (first b).1.length + (flush (lead b)).length = 1 := by
  unfold first
  split
  · next h => rw [h]; rfl
  · next h => rw [h]; rfl

theorem lossy_cons (b : UInt8) (bs : List UInt8) :
    lossy (b :: bs) = (first b).1 ++ lossyFrom (lead b) bs := by
  rw [lossy, lossyFrom_cons, feed, first_snd]

theorem lossy_singleton (b : UInt8) : lossy [b] = (first b).1 ++ flush (lead b) :=
  lossy_cons b []

theorem length_lossy_singleton (b : UInt8) : (lossy [b]).length = 1 := by
  rw [lossy_singleton, List.length_append, length_first]

/-- A byte that the started character does not take is read as if after the end of it. -/
theorem lossyFrom_of_not_takes {e : Expect} {b : UInt8} (h : ¬e.Takes b) (bs : List UInt8) :
    lossyFrom (some e) (b :: bs) = replacement :: lossy (b :: bs) := by
  rw [lossyFrom_cons, feed, if_neg h, lossy_cons, first_snd]
  rfl

theorem length_feed_of_takes {e : Expect} {b : UInt8} (h : e.Takes b) :
    (feed (some e) b).1.length + (flush (feed (some e) b).2).length = 1 := by
  rw [feed, if_pos h]
  split
  · rfl
  · rfl

theorem length_lossyFrom_le (p : Option Expect) (bs : List UInt8) :
    (lossyFrom p bs).length ≤ (flush p).length + bs.length := by
  induction bs generalizing p with
  | nil => exact le_rfl
  | cons b bs ih =>
    have hb : (lossy (b :: bs)).length ≤ bs.length + 1 := by
      have hf := length_first b
      have := ih (lead b)
      rw [lossy_cons, List.length_append]
      omega
    cases p with
    | none => simpa [flush, lossy] using hb
    | some e =>
      by_cases h : e.Takes b
      · have hf := length_feed_of_takes h
        have := ih (feed (some e) b).2
        rw [lossyFrom_cons, List.length_append, List.length_cons]
        omega
      · rw [lossyFrom_of_not_takes h, List.length_cons, List.length_cons]
        change _ ≤ 1 + _
        omega

/-- The second byte continues a character that the first one starts. -/
def Joins (b c : UInt8) : Prop := ∃ e ∈ lead b, e.Takes c

instance (b c : UInt8) : Decidable (Joins b c) :=
  inferInstanceAs (Decidable (∃ e ∈ lead b, e.Takes c))

/-- No byte continues what is before it: the started character, then the byte before. -/
def Apart : Option Expect → List UInt8 → Prop
  | _, [] => True
  | p, b :: bs => (∀ e ∈ p, ¬e.Takes b) ∧ Apart (lead b) bs

theorem apart_lead_iff (b : UInt8) (bs : List UInt8) :
    Apart (lead b) bs ↔ (b :: bs).IsChain fun b c => ¬Joins b c := by
  induction bs generalizing b with
  | nil => simp [Apart]
  | cons c bs ih =>
    have hj : (∀ e ∈ lead b, ¬e.Takes c) ↔ ¬Joins b c := by
      rw [Joins]
      push Not
      rfl
    rw [Apart, ih, List.isChain_cons_cons, hj]

theorem apart_none_iff (bs : List UInt8) :
    Apart none bs ↔ bs.IsChain fun b c => ¬Joins b c := by
  cases bs with
  | nil => simp [Apart]
  | cons b bs =>
    rw [Apart, apart_lead_iff]
    simp

theorem length_flatMap_lossy (bs : List UInt8) :
    (bs.flatMap fun b => lossy [b]).length = bs.length := by
  induction bs with
  | nil => rfl
  | cons b bs ih => rw [List.flatMap_cons, List.length_append, length_lossy_singleton, ih,
      List.length_cons, Nat.add_comm]

/-- Decoding byte by byte loses nothing exactly when no two bytes belong to one character:
a byte that is taken makes the whole one character shorter than its pieces. -/
theorem lossyFrom_eq_flatMap_iff (p : Option Expect) (bs : List UInt8) :
    lossyFrom p bs = flush p ++ (bs.flatMap fun b => lossy [b]) ↔ Apart p bs := by
  induction bs generalizing p with
  | nil => simp [Apart]
  | cons b bs ih =>
    have hb : lossy (b :: bs) = lossy [b] ++ (bs.flatMap fun b => lossy [b]) ↔
        Apart (lead b) bs := by
      rw [← ih, lossy_cons, lossy_singleton, List.append_assoc, List.append_cancel_left_eq]
    rw [List.flatMap_cons, Apart]
    cases p with
    | none => simpa [flush, lossy] using hb
    | some e =>
      by_cases h : e.Takes b
      · constructor
        · intro heq
          have hlen := congrArg List.length heq
          have hf := length_feed_of_takes h
          have hle := length_lossyFrom_le (feed (some e) b).2 bs
          rw [lossyFrom_cons, List.length_append, List.length_append, List.length_append,
            length_lossy_singleton, length_flatMap_lossy] at hlen
          have hone : (flush (some e)).length = 1 := rfl
          omega
        · rintro ⟨hn, -⟩
          exact absurd h (hn e rfl)
      · rw [lossyFrom_of_not_takes h, flush, List.singleton_append, List.cons.injEq]
        simpa [h] using hb

theorem lossy_eq_flatMap_iff (bs : List UInt8) :
    lossy bs = (bs.flatMap fun b => lossy [b]) ↔ bs.IsChain fun b c => ¬Joins b c := by
  rw [← apart_none_iff, ← lossyFrom_eq_flatMap_iff]
  rfl

end Utf8
