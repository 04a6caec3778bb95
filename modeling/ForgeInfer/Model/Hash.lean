import ForgeInfer.Foundation.Mixing
import ForgeInfer.Model.TinyTransformer
import ForgeInfer.Speculative.Basic

/-! # What the hashes read

The model's hash reads the last eight tokens and the acceptance draw's hash all of them. What
they read they tell apart: contexts that differ in one such token never collide.
-/

namespace ForgeInfer

open Function

theorem toUInt64_injective : Injective UInt32.toUInt64 := by
  intro s t h
  apply UInt32.toNat_inj.mp
  simpa using congrArg UInt64.toNat h

namespace TinyTransformer

def window (context : List TokenId) : List TokenId := context.drop (context.length - 8)

theorem window_append {v : List TokenId} (hv : 8 ≤ v.length) (u : List TokenId) :
    window (u ++ v) = window v := by
  have hsplit : u.length + v.length - 8 = u.length + (v.length - 8) := by omega
  rw [window, window, List.length_append, hsplit, List.drop_append]
  simp

theorem window_append_cons {v : List TokenId} (hv : v.length < 8) (u : List TokenId)
    (s : TokenId) :
    window (u ++ s :: v) = u.drop (u.length - (7 - v.length)) ++ s :: v := by
  have hsplit : (u ++ s :: v).length - 8 = u.length - (7 - v.length) := by
    rw [List.length_append, List.length_cons]
    omega
  rw [window, hsplit, List.drop_append_of_le_length (Nat.sub_le _ _)]

/-- The rounds of the hash after a token is mixed in, and the last one. -/
def mixRound (h : UInt64) : UInt64 :=
  let h := h * 0xBF58476D1CE4E5B9
  h ^^^ (h >>> 27)

def finish (h : UInt64) : UInt64 :=
  let h := h * 0x94D049BB133111EB
  h ^^^ (h >>> 31)

def mixToken (h : UInt64) (tokPos : TokenId × ℕ) : UInt64 :=
  mixRound (h ^^^ (tokPos.1.toUInt64 + ((0x9E3779B9 + UInt64.ofNat tokPos.2) <<< 6)))

theorem hashContext_eq (m : TinyTransformer) (context : List TokenId) :
    m.hashContext context = finish ((window context).zipIdx.foldl mixToken m.seed) := rfl

theorem mixRound_injective : Injective mixRound :=
  (Mixing.xor_shiftRight_injective (by decide)).comp (Mixing.mul_injective (by decide))

theorem finish_injective : Injective finish :=
  (Mixing.xor_shiftRight_injective (by decide)).comp (Mixing.mul_injective (by decide))

theorem mixToken_injective (tokPos : TokenId × ℕ) : Injective (mixToken · tokPos) :=
  fun _ _ h => (UInt64.xor_left_inj _).mp (mixRound_injective h)

theorem mixToken_ne {s t : TokenId} (hst : s ≠ t) (pos : ℕ) (seed : UInt64) :
    mixToken seed (s, pos) ≠ mixToken seed (t, pos) := by
  intro h
  have hsum := (UInt64.xor_right_inj _).mp (mixRound_injective h)
  exact hst (toUInt64_injective ((UInt64.add_left_inj _).mp hsum))

/-- Changing one token changes the hash exactly when it is among the last eight. -/
theorem hashContext_eq_iff (m : TinyTransformer) (u v : List TokenId) (s t : TokenId) :
    m.hashContext (u ++ s :: v) = m.hashContext (u ++ t :: v) ↔ s = t ∨ 8 ≤ v.length := by
  constructor
  · intro h
    by_contra hne
    obtain ⟨hst, hv⟩ := not_or.mp hne
    rw [hashContext_eq, hashContext_eq, window_append_cons (not_le.mp hv),
      window_append_cons (not_le.mp hv), List.zipIdx_append, List.zipIdx_append,
      List.zipIdx_cons, List.zipIdx_cons] at h
    exact Mixing.foldl_ne mixToken_injective (mixToken_ne hst _) m.seed _ _ (finish_injective h)
  · rintro (rfl | hv)
    · rfl
    · have hdrop : ∀ r, window (u ++ r :: v) = window v := by
        intro r
        rw [← List.singleton_append, ← List.append_assoc, window_append hv]
      rw [hashContext_eq, hashContext_eq, hdrop, hdrop]

end TinyTransformer

namespace SpeculativeDecoder

def mixContext (h : UInt64) (t : TokenId) : UInt64 := (h ^^^ t.toUInt64) * 0x100000001B3

theorem acceptanceHash_eq (context : List TokenId) (position : ℕ) :
    acceptanceHash context position =
      (context.foldl mixContext 0xD1B54A32D192ED03 ^^^ UInt64.ofNat position) *
        0x2545F4914F6CDD1D := rfl

theorem mixContext_injective (t : TokenId) : Injective (mixContext · t) :=
  fun _ _ h => (UInt64.xor_left_inj _).mp (Mixing.mul_injective (by decide) h)

theorem mixContext_ne {s t : TokenId} (hst : s ≠ t) (seed : UInt64) :
    mixContext seed s ≠ mixContext seed t := by
  intro h
  have hxor : seed ^^^ s.toUInt64 = seed ^^^ t.toUInt64 := Mixing.mul_injective (by decide) h
  exact hst (toUInt64_injective ((UInt64.xor_right_inj _).mp hxor))

theorem acceptanceHash_eq_iff (u v : List TokenId) (s t : TokenId) (i : ℕ) :
    acceptanceHash (u ++ s :: v) i = acceptanceHash (u ++ t :: v) i ↔ s = t := by
  have hmul : Injective fun h : UInt64 => h * 0x2545F4914F6CDD1D := Mixing.mul_injective (by decide)
  constructor
  · intro h
    by_contra hst
    rw [acceptanceHash_eq, acceptanceHash_eq] at h
    exact Mixing.foldl_ne mixContext_injective (mixContext_ne hst) _ u v
      ((UInt64.xor_left_inj _).mp (hmul h))
  · rintro rfl
    rfl

theorem acceptanceHash_position_iff (ctx : List TokenId) (i j : ℕ) :
    acceptanceHash ctx i = acceptanceHash ctx j ↔ i % 2 ^ 64 = j % 2 ^ 64 := by
  have hmul : Injective fun h : UInt64 => h * 0x2545F4914F6CDD1D := Mixing.mul_injective (by decide)
  rw [acceptanceHash_eq, acceptanceHash_eq, hmul.eq_iff, UInt64.xor_right_inj,
    ← UInt64.toNat_inj, UInt64.toNat_ofNat', UInt64.toNat_ofNat']

/-- Contexts that differ in one token have the same model hash exactly when the token is not
among the last eight, and never the same hash of a draw; nor have two positions. -/
theorem hashes_tell_contexts_apart (m : TinyTransformer) (u v : List TokenId) (s t : TokenId)
    (i j : ℕ) :
    (m.hashContext (u ++ s :: v) = m.hashContext (u ++ t :: v) ↔ s = t ∨ 8 ≤ v.length) ∧
      (acceptanceHash (u ++ s :: v) i = acceptanceHash (u ++ t :: v) i ↔ s = t) ∧
      (acceptanceHash u i = acceptanceHash u j ↔ i % 2 ^ 64 = j % 2 ^ 64) :=
  ⟨m.hashContext_eq_iff u v s t, acceptanceHash_eq_iff u v s t i,
    acceptanceHash_position_iff u i j⟩

end SpeculativeDecoder

end ForgeInfer
