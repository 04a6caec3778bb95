import ForgeInfer.Foundation.Utf8Encoding
import ForgeInfer.Tokeniser.Basic

/-! # Round trips of the tokeniser

Encoding and decoding are inverse to each other between texts and the byte tokens of valid
UTF-8. Tokens that carry no byte do not show in the text, wherever they stand.
-/

namespace ForgeInfer.Tokeniser

def tokenOf (b : UInt8) : TokenId := b.toUInt32 + 1

theorem encode_eq (text : String) :
    encode text = (text.toList.flatMap String.utf8EncodeChar).map tokenOf := rfl

theorem toNat_tokenOf (b : UInt8) : (tokenOf b).toNat = b.toNat + 1 := by
  have hlt := b.toNat_lt
  rw [tokenOf, UInt32.toNat_add, UInt8.toNat_toUInt32, UInt32.toNat_one]
  omega

theorem isByte_iff {t : TokenId} : IsByte t ↔ 1 ≤ t.toNat ∧ t.toNat ≤ 256 := by
  rw [IsByte, UInt32.le_iff_toNat_le, UInt32.le_iff_toNat_le]
  rfl

theorem isByte_tokenOf (b : UInt8) : IsByte (tokenOf b) := by
  have hlt := b.toNat_lt
  rw [isByte_iff, toNat_tokenOf]
  omega

theorem byteOf_tokenOf (b : UInt8) : byteOf (tokenOf b) = some b := by
  rw [byteOf_of_isByte (isByte_tokenOf b), tokenOf, UInt32.add_sub_cancel, UInt8.toUInt8_toUInt32]

theorem tokenOf_of_byteOf {t : TokenId} {b : UInt8} (h : byteOf t = some b) : tokenOf b = t := by
  by_cases ht : IsByte t
  · obtain ⟨hlo, hhi⟩ := isByte_iff.mp ht
    rw [byteOf_of_isByte ht, Option.some.injEq] at h
    subst h
    apply UInt32.toNat_inj.mp
    have hone : (1 : TokenId) ≤ t := ht.1
    rw [toNat_tokenOf, UInt32.toNat_toUInt8, UInt32.toNat_sub_of_le _ _ hone, UInt32.toNat_one]
    omega
  · rw [byteOf_of_not_isByte ht] at h
    cases h

theorem filterMap_byteOf_map_tokenOf (bs : List UInt8) :
    (bs.map tokenOf).filterMap byteOf = bs := by
  rw [List.filterMap_map]
  have hbyte : byteOf ∘ tokenOf = some := funext byteOf_tokenOf
  rw [hbyte, List.filterMap_some]

theorem map_tokenOf_filterMap_byteOf (ts : List TokenId) :
    (ts.filterMap byteOf).map tokenOf = ts.filter fun t => decide (IsByte t) := by
  induction ts with
  | nil => rfl
  | cons t ts ih =>
    by_cases ht : IsByte t
    · have hb := byteOf_of_isByte ht
      rw [List.filterMap_cons_some hb, List.map_cons, ih, tokenOf_of_byteOf hb, List.filter_cons,
        if_pos (decide_eq_true ht)]
    · rw [List.filterMap_cons_none (byteOf_of_not_isByte ht), ih, List.filter_cons,
        if_neg (by simpa using ht)]

/-- The second list is the first one with eos and reserved tokens put in anywhere. -/
inductive Inserted : List TokenId → List TokenId → Prop
  | nil : Inserted [] []
  | keep {base ts : List TokenId} (t : TokenId) : Inserted base ts → Inserted (t :: base) (t :: ts)
  | insert {base ts : List TokenId} {t : TokenId} (h : t = 0 ∨ 256 < t) :
      Inserted base ts → Inserted base (t :: ts)

theorem not_isByte_of_reserved {t : TokenId} (h : t = 0 ∨ 256 < t) : ¬IsByte t := by
  rw [isByte_iff]
  rintro ⟨hlo, hhi⟩
  rcases h with rfl | hgt
  · exact absurd hlo (by decide)
  · rw [UInt32.lt_iff_toNat_lt] at hgt
    exact absurd hhi (not_le.mpr hgt)

theorem Inserted.filterMap_byteOf {base ts : List TokenId} (h : Inserted base ts) :
    ts.filterMap byteOf = base.filterMap byteOf := by
  induction h with
  | nil => rfl
  | keep t _ ih => rw [List.filterMap_cons, List.filterMap_cons, ih]
  | insert h _ ih =>
    rw [List.filterMap_cons_none (byteOf_of_not_isByte (not_isByte_of_reserved h)), ih]

theorem decode_eq (ts : List TokenId) :
    decode ts = String.ofList (Utf8.lossy (ts.filterMap byteOf)) := by
  rw [decode, decodeLoop_eq]

/-- A text comes back from its tokens, whatever non-byte tokens are put between them, and
tokens whose bytes are valid UTF-8 come back from their text without the others. -/
theorem round_trip (text : String) (tokens : List TokenId) :
    (Inserted (encode text) tokens → decode tokens = text) ∧
      (∀ t ∈ encode text, 1 ≤ t ∧ t ≤ 256) ∧
      ((tokens.filterMap byteOf).toByteArray.IsValidUTF8 →
        encode (decode tokens) = tokens.filter fun t => 1 ≤ t ∧ t ≤ 256) := by
  refine ⟨?_, ?_, ?_⟩
  · intro h
    rw [decode_eq, h.filterMap_byteOf, encode_eq, filterMap_byteOf_map_tokenOf,
      Utf8.lossy_flatMap_utf8EncodeChar, String.ofList_toList]
  · intro t ht
    obtain ⟨b, -, rfl⟩ := List.mem_map.mp ht
    exact isByte_tokenOf b
  · intro h
    rw [decode_eq, encode_eq, String.toList_ofList, Utf8.flatMap_lossy_of_isValidUTF8 h,
      map_tokenOf_filterMap_byteOf]
    rfl

/-- A reserved token between the two bytes of one character, and eos around them. -/
theorem round_trip_split_character :
    decode [0, 196, 300, 170, 0] = "é" ∧
      (∀ t ∈ encode "é", 1 ≤ t ∧ t ≤ 256) ∧
      encode (decode [0, 196, 300, 170, 0]) = [196, 170] := by
  have hencode : encode "é" = [196, 170] := by decide
  have hinserted : Inserted (encode "é") [0, 196, 300, 170, 0] := by
    rw [hencode]
    exact .insert (by decide) (.keep _ (.insert (by decide) (.keep _ (.insert (by decide) .nil))))
  have hvalid : (List.filterMap byteOf [0, 196, 300, 170, 0]).toByteArray.IsValidUTF8 :=
    ⟨['é'], by decide⟩
  obtain ⟨hdecode, hrange, hreencode⟩ := round_trip "é" [0, 196, 300, 170, 0]
  exact ⟨hdecode hinserted, hrange, (hreencode hvalid).trans (by decide)⟩

end ForgeInfer.Tokeniser
