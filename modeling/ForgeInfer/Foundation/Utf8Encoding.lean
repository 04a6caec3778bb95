import ForgeInfer.Foundation.Utf8

/-! # Lossy decoding of valid UTF-8

The bytes of a character take the decoder from between characters back to there, and yield
that character. Lossy decoding thus gives back every text from its bytes.
-/

namespace Utf8

variable {b : UInt8} {e : Expect} {k n code : ℕ} {lo hi : UInt8}

theorem lossy_of_lead (h : lead b = some e) (bs : List UInt8) :
    lossy (b :: bs) = lossyFrom (some e) bs := by
  rw [lossy_cons, h, first, h]
  rfl

theorem lossyFrom_last (hb : lo ≤ b ∧ b ≤ hi) (bs : List UInt8) :
    lossyFrom (some ⟨0, lo, hi, code⟩) (b :: bs) =
      Char.ofNat (code * 64 + b.toNat % 64) :: lossy bs := by
  have ht : Expect.Takes ⟨0, lo, hi, code⟩ b := hb
  rw [lossyFrom_cons, feed, if_pos ht]
  rfl

theorem lossyFrom_more (hb : lo ≤ b ∧ b ≤ hi) (bs : List UInt8) :
    lossyFrom (some ⟨k + 1, lo, hi, code⟩) (b :: bs) =
      lossyFrom (some ⟨k, 0x80, 0xBF, code * 64 + b.toNat % 64⟩) bs := by
  have ht : Expect.Takes ⟨k + 1, lo, hi, code⟩ b := hb
  rw [lossyFrom_cons, feed, if_pos ht]
  rfl

theorem toNat_ofNat_of_lt (h : n < 256) : (UInt8.ofNat n).toNat = n := by
  rw [UInt8.toNat_ofNat', Nat.mod_eq_of_lt h]

theorem ofNat_mem_iff (h : n < 256) :
    (lo ≤ UInt8.ofNat n ∧ UInt8.ofNat n ≤ hi) ↔ lo.toNat ≤ n ∧ n ≤ hi.toNat := by
  rw [UInt8.le_iff_toNat_le, UInt8.le_iff_toNat_le, toNat_ofNat_of_lt h]

theorem ofNat_eq_iff (h : n < 256) : UInt8.ofNat n = b ↔ n = b.toNat := by
  rw [← UInt8.toNat_inj, toNat_ofNat_of_lt h]

theorem lead_ofNat (h : n < 256) : lead (UInt8.ofNat n) =
    if 0xC2 ≤ n ∧ n ≤ 0xDF then some ⟨0, 0x80, 0xBF, n - 0xC0⟩
    else if n = 0xE0 then some ⟨1, 0xA0, 0xBF, 0⟩
    else if n = 0xED then some ⟨1, 0x80, 0x9F, 0xD⟩
    else if 0xE1 ≤ n ∧ n ≤ 0xEF then some ⟨1, 0x80, 0xBF, n - 0xE0⟩
    else if n = 0xF0 then some ⟨2, 0x90, 0xBF, 0⟩
    else if n = 0xF4 then some ⟨2, 0x80, 0x8F, 4⟩
    else if 0xF1 ≤ n ∧ n ≤ 0xF3 then some ⟨2, 0x80, 0xBF, n - 0xF0⟩
    else none := by
  simp only [lead, ofNat_mem_iff h, ofNat_eq_iff h, toNat_ofNat_of_lt h]
  rfl

def continuation (n : ℕ) : UInt8 := UInt8.ofNat (n % 64 + 0x80)

theorem continuation_mem (n : ℕ) : 0x80 ≤ continuation n ∧ continuation n ≤ 0xBF := by
  rw [continuation, ofNat_mem_iff (by omega)]
  change 128 ≤ _ ∧ _ ≤ 191
  omega

theorem continuation_toNat_mod (n : ℕ) : (continuation n).toNat % 64 = n % 64 := by
  rw [continuation, toNat_ofNat_of_lt (by omega)]
  omega

theorem lossyFrom_continuation_last (n : ℕ) (bs : List UInt8) :
    lossyFrom (some ⟨0, 0x80, 0xBF, n / 64⟩) (continuation n :: bs) =
      Char.ofNat n :: lossy bs := by
  rw [lossyFrom_last (continuation_mem n), continuation_toNat_mod, Nat.div_add_mod']

theorem lossyFrom_continuation_more (k n : ℕ) (bs : List UInt8)
    (h : lo ≤ continuation n ∧ continuation n ≤ hi) :
    lossyFrom (some ⟨k + 1, lo, hi, n / 64⟩) (continuation n :: bs) =
      lossyFrom (some ⟨k, 0x80, 0xBF, n⟩) bs := by
  rw [lossyFrom_more h, continuation_toNat_mod, Nat.div_add_mod']

theorem lossy_one (h : n < 0x80) (bs : List UInt8) :
    lossy (UInt8.ofNat n :: bs) = Char.ofNat n :: lossy bs := by
  have hn : n < 256 := by omega
  have hlead : lead (UInt8.ofNat n) = none := by
    rw [lead_ofNat hn]
    repeat rw [if_neg (by omega)]
  have hascii : UInt8.ofNat n < 0x80 := by
    rw [UInt8.lt_iff_toNat_lt, toNat_ofNat_of_lt hn]
    exact h
  rw [lossy_cons, hlead, first, hlead, if_pos hascii, toNat_ofNat_of_lt hn]
  rfl

theorem lossy_two (hlo : 0x80 ≤ n) (hhi : n ≤ 0x7FF) (bs : List UInt8) :
    lossy (UInt8.ofNat (n / 64 % 0x20 + 0xC0) :: continuation n :: bs) =
      Char.ofNat n :: lossy bs := by
  have hlead : lead (UInt8.ofNat (n / 64 % 0x20 + 0xC0)) = some ⟨0, 0x80, 0xBF, n / 64⟩ := by
    have hcode : n / 64 % 0x20 + 0xC0 - 0xC0 = n / 64 := by omega
    rw [lead_ofNat (by omega), if_pos (by omega), hcode]
  rw [lossy_of_lead hlead, lossyFrom_continuation_last]

/-- The first of three bytes: `0xE0` and `0xED` narrow the range of the second, which keeps
out what two bytes can say and the surrogates. -/
theorem lead_three (hlo : 0x800 ≤ n) (hhi : n ≤ 0xFFFF) (hs : n < 0xD800 ∨ 0xDFFF < n) :
    ∃ lo hi, lead (UInt8.ofNat (n / 4096 % 0x10 + 0xE0)) = some ⟨1, lo, hi, n / 64 / 64⟩ ∧
      lo ≤ continuation (n / 64) ∧ continuation (n / 64) ≤ hi := by
  rw [lead_ofNat (by omega), if_neg (by omega)]
  simp only [continuation, ofNat_mem_iff (show n / 64 % 64 + 128 < 256 by omega)]
  split
  · have hcode : n / 64 / 64 = 0 := by omega
    exact ⟨0xA0, 0xBF, by rw [hcode], by change 160 ≤ _ ∧ _ ≤ 191; omega⟩
  · split
    · have hcode : n / 64 / 64 = 0xD := by omega
      exact ⟨0x80, 0x9F, by rw [hcode], by change 128 ≤ _ ∧ _ ≤ 159; omega⟩
    · have hcode : n / 4096 % 0x10 + 0xE0 - 0xE0 = n / 64 / 64 := by omega
      rw [if_pos (by omega)]
      exact ⟨0x80, 0xBF, by rw [hcode], by change 128 ≤ _ ∧ _ ≤ 191; omega⟩

theorem lossy_three (hlo : 0x800 ≤ n) (hhi : n ≤ 0xFFFF) (hs : n < 0xD800 ∨ 0xDFFF < n)
    (bs : List UInt8) :
    lossy (UInt8.ofNat (n / 4096 % 0x10 + 0xE0) :: continuation (n / 64) :: continuation n :: bs) =
      Char.ofNat n :: lossy bs := by
  obtain ⟨lo, hi, hlead, hmem⟩ := lead_three hlo hhi hs
  rw [lossy_of_lead hlead, lossyFrom_continuation_more _ _ _ hmem, lossyFrom_continuation_last]

/-- The first of four bytes: `0xF0` keeps out what three bytes can say, and `0xF4` what is
beyond the last code point. -/
theorem lead_four (hlo : 0x10000 ≤ n) (hhi : n ≤ 0x10FFFF) :
    ∃ lo hi, lead (UInt8.ofNat (n / 262144 % 0x08 + 0xF0)) =
        some ⟨2, lo, hi, n / 64 / 64 / 64⟩ ∧
      lo ≤ continuation (n / 64 / 64) ∧ continuation (n / 64 / 64) ≤ hi := by
  rw [lead_ofNat (by omega), if_neg (by omega), if_neg (by omega), if_neg (by omega),
    if_neg (by omega)]
  simp only [continuation, ofNat_mem_iff (show n / 64 / 64 % 64 + 128 < 256 by omega)]
  split
  · have hcode : n / 64 / 64 / 64 = 0 := by omega
    exact ⟨0x90, 0xBF, by rw [hcode], by change 144 ≤ _ ∧ _ ≤ 191; omega⟩
  · split
    · have hcode : n / 64 / 64 / 64 = 4 := by omega
      exact ⟨0x80, 0x8F, by rw [hcode], by change 128 ≤ _ ∧ _ ≤ 143; omega⟩
    · have hcode : n / 262144 % 0x08 + 0xF0 - 0xF0 = n / 64 / 64 / 64 := by omega
      rw [if_pos (by omega)]
      exact ⟨0x80, 0xBF, by rw [hcode], by change 128 ≤ _ ∧ _ ≤ 191; omega⟩

theorem lossy_four (hlo : 0x10000 ≤ n) (hhi : n ≤ 0x10FFFF) (bs : List UInt8) :
    lossy (UInt8.ofNat (n / 262144 % 0x08 + 0xF0) :: continuation (n / 64 / 64) ::
      continuation (n / 64) :: continuation n :: bs) = Char.ofNat n :: lossy bs := by
  obtain ⟨lo, hi, hlead, hmem⟩ := lead_four hlo hhi
  rw [lossy_of_lead hlead, lossyFrom_continuation_more _ _ _ hmem,
    lossyFrom_continuation_more _ _ _ (continuation_mem _), lossyFrom_continuation_last]

theorem lossy_utf8EncodeChar (c : Char) (bs : List UInt8) :
    lossy (String.utf8EncodeChar c ++ bs) = c :: lossy bs := by
  have hvalid : c.toNat < 0xD800 ∨ 0xDFFF < c.toNat ∧ c.toNat < 0x110000 := c.valid
  have hthird : c.toNat / 4096 = c.toNat / 64 / 64 := by omega
  have hchar : Char.ofNat c.toNat = c := Char.ofNat_toNat c
  conv_rhs => rw [← hchar]
  unfold String.utf8EncodeChar
  change lossy ((if c.toNat ≤ 0x7F then _ else _) ++ bs) = _
  split
  · next h => exact lossy_one (n := c.toNat) (by omega) bs
  · change lossy ((if c.toNat ≤ 0x7FF then _ else _) ++ bs) = _
    split
    · next h => exact lossy_two (n := c.toNat) (by omega) h bs
    · change lossy ((if c.toNat ≤ 0xFFFF then _ else _) ++ bs) = _
      split
      · next h => exact lossy_three (n := c.toNat) (by omega) h (by omega) bs
      · have := lossy_four (n := c.toNat) (by omega) (by omega) bs
        rw [← hthird] at this
        exact this

theorem lossy_flatMap_utf8EncodeChar (cs : List Char) :
    lossy (cs.flatMap String.utf8EncodeChar) = cs := by
  induction cs with
  | nil => rfl
  | cons c cs ih => rw [List.flatMap_cons, lossy_utf8EncodeChar, ih]

theorem flatMap_lossy_of_isValidUTF8 {bs : List UInt8} (h : bs.toByteArray.IsValidUTF8) :
    (lossy bs).flatMap String.utf8EncodeChar = bs := by
  obtain ⟨cs, hcs⟩ := h
  obtain rfl : bs = cs.flatMap String.utf8EncodeChar := List.toByteArray_inj.mp hcs
  rw [lossy_flatMap_utf8EncodeChar]

end Utf8
