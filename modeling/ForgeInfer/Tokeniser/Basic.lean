import ForgeInfer.Foundation.Utf8
import ForgeInfer.Model.Basic

/-! # The tokeniser

One token for each byte of a text, offset by one so that token `0` is left for eos. A
token that carries no byte decodes to nothing.
-/

namespace ForgeInfer.Tokeniser

/-- The vocabulary size: 256 byte values and a small reserved range. -/
def vocabSize : ℕ := 320

def eosToken : TokenId := 0

def encode (text : String) : List TokenId :=
  (text.toList.flatMap String.utf8EncodeChar).map fun b => b.toUInt32 + 1

def IsByte (t : TokenId) : Prop := 1 ≤ t ∧ t ≤ 256

instance (t : TokenId) : Decidable (IsByte t) := inferInstanceAs (Decidable (_ ∧ _))

/-- The loop of `decode`: the bytes of the tokens, without eos and out-of-range ids. -/
def decodeLoop : List TokenId → List UInt8
  | [] => []
  | t :: ts =>
    if t = eosToken then decodeLoop ts
    else if IsByte t then (t - 1).toUInt8 :: decodeLoop ts
    else decodeLoop ts

def decode (tokens : List TokenId) : String := String.ofList (Utf8.lossy (decodeLoop tokens))

def decodeOne (token : TokenId) : String :=
  if IsByte token then String.ofList (Utf8.lossy [(token - 1).toUInt8]) else ""

def byteOf (t : TokenId) : Option UInt8 := if IsByte t then some (t - 1).toUInt8 else none

theorem byteOf_of_isByte {t : TokenId} (h : IsByte t) : byteOf t = some (t - 1).toUInt8 :=
  if_pos h

theorem byteOf_of_not_isByte {t : TokenId} (h : ¬IsByte t) : byteOf t = none :=
  if_neg h

theorem decodeLoop_eq (ts : List TokenId) : decodeLoop ts = ts.filterMap byteOf := by
  induction ts with
  | nil => rfl
  | cons t ts ih =>
    rw [decodeLoop, ih]
    split
    · next h => rw [h]; rfl
    · by_cases hb : IsByte t
      · rw [if_pos hb, List.filterMap_cons_some (byteOf_of_isByte hb)]
      · rw [if_neg hb, List.filterMap_cons_none (byteOf_of_not_isByte hb)]

/-- No byte of the tokens continues a character that the byte before it starts. -/
def Separate (ts : List TokenId) : Prop :=
  (ts.filterMap byteOf).IsChain fun b c => ¬Utf8.Joins b c

instance (ts : List TokenId) : Decidable (Separate ts) :=
  inferInstanceAs (Decidable (List.IsChain _ _))

theorem toList_join_decodeOne (ts : List TokenId) :
    (String.join (ts.map decodeOne)).toList =
      (ts.filterMap byteOf).flatMap fun b => Utf8.lossy [b] := by
  rw [String.toList_join]
  induction ts with
  | nil => rfl
  | cons t ts ih =>
    rw [List.map_cons, List.flatMap_cons, ih]
    by_cases hb : IsByte t
    · rw [List.filterMap_cons_some (byteOf_of_isByte hb), List.flatMap_cons, decodeOne, if_pos hb,
        String.toList_ofList]
    · rw [List.filterMap_cons_none (byteOf_of_not_isByte hb), decodeOne, if_neg hb]
      rfl

/-- The fragments make up the text exactly when no character spans two tokens. -/
theorem join_decodeOne_iff (ts : List TokenId) :
    String.join (ts.map decodeOne) = decode ts ↔ Separate ts := by
  rw [← String.toList_inj, toList_join_decodeOne, decode, String.toList_ofList, decodeLoop_eq,
    eq_comm]
  exact Utf8.lossy_eq_flatMap_iff _

/-- A text of ASCII characters is decoded the same either way. -/
example : String.join ((encode "hi").map decodeOne) = decode (encode "hi") :=
  (join_decodeOne_iff _).mpr (by decide)

end ForgeInfer.Tokeniser
