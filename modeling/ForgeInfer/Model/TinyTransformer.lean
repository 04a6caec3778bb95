import ForgeInfer.Foundation.Rounding
import ForgeInfer.Model.Basic
import Mathlib.Data.List.AList

/-! # The deterministic model

A hash of the last eight tokens, or a pin of the whole context, picks a peak. The logits
fall off from it on both sides, and short contexts mask the eos. A forward pass panics,
written `none`, on an empty vocabulary and on a masked eos outside of it.
-/

namespace ForgeInfer

open Binary32

structure TinyTransformer where
  vocab : ℕ
  layers : ℕ
  eos : TokenId
  seed : UInt64
  draftDivergence : Option UInt8
  pinned : AList (fun _ : List TokenId => TokenId)

namespace TinyTransformer

def new (vocab layers : ℕ) : TinyTransformer where
  vocab := vocab
  layers := layers
  eos := 0
  seed := 0x9E3779B97F4A7C15
  draftDivergence := none
  pinned := ∅

/-- The draft of `new`: it diverges on about a quarter of the contexts. -/
def draft (vocab layers : ℕ) : TinyTransformer :=
  { new vocab layers with draftDivergence := some 4 }

def withEos (m : TinyTransformer) (eos : TokenId) : TinyTransformer := { m with eos := eos }

def pin (m : TinyTransformer) (context : List TokenId) (next : TokenId) : TinyTransformer :=
  { m with pinned := m.pinned.insert context next }

/-- The hash of the last eight tokens in 64-bit wrapping arithmetic. -/
def hashContext (m : TinyTransformer) (context : List TokenId) : UInt64 :=
  let window := context.drop (context.length - 8)
  let h := window.zipIdx.foldl (fun h tokPos =>
    let h := h ^^^ (tokPos.1.toUInt64 + ((0x9E3779B9 + UInt64.ofNat tokPos.2) <<< 6))
    let h := h * 0xBF58476D1CE4E5B9
    h ^^^ (h >>> 27)) m.seed
  let h := h * 0x94D049BB133111EB
  h ^^^ (h >>> 31)

/-- The token with the largest logit before masking. A draft shifts it when its period
divides the hash; only zero is a multiple of a period of zero. -/
def peak (m : TinyTransformer) (context : List TokenId) : ℕ :=
  match m.pinned.lookup context with
  | some pinned => pinned.toNat % m.vocab
  | none =>
    let h := (m.hashContext context).toNat
    let base := h % m.vocab
    match m.draftDivergence with
    | some period => if period.toNat ∣ h then (base + 7) % m.vocab else base
    | none => base

/-- The logit of token `i`: six at the peak, less the distance from it clamped to eight. -/
def profile (peak i : ℕ) : F32 :=
  F32.round 6 - min (F32.round (((i : ℤ) - peak).natAbs : ℕ)) (F32.round 8)

def forward (m : TinyTransformer) (context : List TokenId) : Option StepLogits :=
  -- the remainder by an empty vocabulary
  if m.vocab = 0 then none
  else
    let logits := (List.range m.vocab).map (profile (m.peak context))
    if context.length < 4 then
      if m.eos.toNat < m.vocab then some ⟨logits.set m.eos.toNat .negInf⟩ else none
    else some ⟨logits⟩

/-- The vocabularies in scope: at least two tokens, each a `u32`, the eos among them. -/
structure WellFormed (m : TinyTransformer) : Prop where
  two_le : 2 ≤ m.vocab
  vocab_le : m.vocab ≤ 2 ^ 32
  eos_lt : m.eos.toNat < m.vocab

variable {m : TinyTransformer} {context : List TokenId} {peak i j : ℕ}

def falloff (peak i : ℕ) : ℕ := min ((i : ℤ) - peak).natAbs 8

theorem abs_logit_le (peak i : ℕ) : |(6 - falloff peak i : ℤ)| ≤ 2 ^ 24 := by
  unfold falloff
  rw [abs_le]
  omega

theorem profile_eq (hi : i ≤ 2 ^ 32) (hp : peak ≤ 2 ^ 32) :
    profile peak i = F32.round ((6 - falloff peak i : ℤ) : ℚ) := by
  have hdist : ((i : ℤ) - peak).natAbs ≤ 2 ^ 127 := by omega
  have hclamp := F32.min_round_two_pow (k := 3) (by norm_num) hdist
  have height : (8 : ℚ) = 2 ^ 3 := by norm_num
  have hcast : ((falloff peak i : ℤ) : ℚ) = ((min ((i : ℤ) - peak).natAbs (2 ^ 3) : ℕ) : ℚ) := rfl
  have hsmall : |(falloff peak i : ℤ)| ≤ 2 ^ 24 := by
    unfold falloff
    rw [abs_le]
    omega
  rw [profile, height, hclamp, ← hcast]
  exact F32.round_intCast_sub (by norm_num) hsmall

theorem profile_lt_iff (hi : i ≤ 2 ^ 32) (hj : j ≤ 2 ^ 32) (hp : peak ≤ 2 ^ 32) :
    profile peak i < profile peak j ↔ falloff peak j < falloff peak i := by
  rw [profile_eq hi hp, profile_eq hj hp,
    F32.round_intCast_lt_iff (abs_logit_le peak i) (abs_logit_le peak j)]
  omega

theorem negInf_lt_profile (hi : i ≤ 2 ^ 32) (hp : peak ≤ 2 ^ 32) : .negInf < profile peak i := by
  rw [profile_eq hi hp, F32.round_intCast (abs_logit_le peak i)]
  exact F32.negInf_lt_fin

theorem peak_lt (h : 0 < m.vocab) (context : List TokenId) : m.peak context < m.vocab := by
  unfold TinyTransformer.peak
  split
  · exact Nat.mod_lt _ h
  · dsimp only
    split
    · split
      · exact Nat.mod_lt _ h
      · exact Nat.mod_lt _ h
    · exact Nat.mod_lt _ h

def logit (m : TinyTransformer) (context : List TokenId) (i : ℕ) : F32 :=
  if context.length < 4 ∧ i = m.eos.toNat then .negInf else profile (m.peak context) i

theorem forward_eq (h : m.WellFormed) (context : List TokenId) :
    m.forward context = some ⟨(List.range m.vocab).map (m.logit context)⟩ := by
  have hvocab : m.vocab ≠ 0 := by have := h.two_le; omega
  rw [forward, if_neg hvocab]
  dsimp only
  by_cases hshort : context.length < 4
  · rw [if_pos hshort, if_pos h.eos_lt]
    congr 2
    apply List.ext_getElem
    · rw [List.length_set, List.length_map, List.length_map]
    · intro i hi _
      rw [List.getElem_set, List.getElem_map, List.getElem_map, List.getElem_range, logit]
      by_cases heos : i = m.eos.toNat
      · rw [if_pos heos.symm, if_pos ⟨hshort, heos⟩]
      · rw [if_neg (Ne.symm heos), if_neg fun hc => heos hc.2]
  · rw [if_neg hshort]
    congr 2
    apply List.map_congr_left
    intro i _
    rw [logit, if_neg fun hc => hshort hc.1]

theorem getElem?_logits (m : TinyTransformer) (context : List TokenId) {u : F32}
    (h : ((List.range m.vocab).map (m.logit context))[i]? = some u) :
    i < m.vocab ∧ u = m.logit context i := by
  rw [List.getElem?_map, Option.map_eq_some_iff] at h
  obtain ⟨k, hk, rfl⟩ := h
  obtain ⟨hlt, rfl⟩ := List.getElem?_eq_some_iff.mp hk
  rw [List.length_range] at hlt
  exact ⟨hlt, by rw [List.getElem_range]⟩

/-- A token whose unmasked logit no other unmasked one exceeds, and none before it reaches. -/
theorem argmax_of_least (h : m.WellFormed) {k : ℕ} (hk : k < m.vocab)
    (hmask : ¬(context.length < 4 ∧ k = m.eos.toNat))
    (hbefore : ∀ j < k, ¬(context.length < 4 ∧ j = m.eos.toNat) →
      falloff (m.peak context) k < falloff (m.peak context) j)
    (hafter : ∀ j, k < j → ¬(context.length < 4 ∧ j = m.eos.toNat) →
      falloff (m.peak context) k ≤ falloff (m.peak context) j) :
    (StepLogits.mk ((List.range m.vocab).map (m.logit context))).argmax = UInt32.ofNat k := by
  have hle := h.vocab_le
  have hpeak : m.peak context ≤ 2 ^ 32 := by
    have := peak_lt (by omega : 0 < m.vocab) context
    omega
  have hlogit : m.logit context k = profile (m.peak context) k := if_neg hmask
  refine StepLogits.argmax_eq (v := m.logit context k) ?_ ?_ ?_ ?_
  · rw [List.getElem?_map, List.getElem?_range hk]
    rfl
  · rw [hlogit]
    exact negInf_lt_profile (by omega) hpeak
  · intro j u hj hu
    obtain ⟨hlt, rfl⟩ := m.getElem?_logits context hu
    rw [hlogit]
    by_cases hm : context.length < 4 ∧ j = m.eos.toNat
    · rw [logit, if_pos hm]
      exact negInf_lt_profile (by omega) hpeak
    · rw [logit, if_neg hm]
      exact (profile_lt_iff (by omega) (by omega) hpeak).mpr (hbefore j hj hm)
  · intro j u hj hu
    obtain ⟨hlt, rfl⟩ := m.getElem?_logits context hu
    rw [hlogit]
    by_cases hm : context.length < 4 ∧ j = m.eos.toNat
    · rw [logit, if_pos hm]
      exact F32.not_lt_negInf _
    · rw [logit, if_neg hm, profile_lt_iff (by omega) (by omega) hpeak]
      exact not_lt.mpr (hafter j hj hm)

/-- The greedy token: the peak, or its nearest neighbour when the peak is masked. -/
def greedyToken (m : TinyTransformer) (context : List TokenId) : ℕ :=
  if context.length < 4 ∧ m.peak context = m.eos.toNat then
    if m.eos.toNat = 0 then 1 else m.eos.toNat - 1
  else m.peak context

theorem greedyToken_lt (h : m.WellFormed) (context : List TokenId) :
    m.greedyToken context < m.vocab := by
  obtain ⟨h2, -, heos⟩ := h
  have hpeak := peak_lt (by omega : 0 < m.vocab) context
  unfold greedyToken
  split
  · split <;> omega
  · exact hpeak

theorem greedyToken_ne_eos (hshort : context.length < 4) :
    m.greedyToken context ≠ m.eos.toNat := by
  unfold greedyToken
  split
  · split <;> omega
  · next hne => exact fun he => hne ⟨hshort, he⟩

theorem greedyToken_of_masked (hshort : context.length < 4) (hpeak : m.peak context = m.eos.toNat) :
    m.greedyToken context = if m.eos.toNat = 0 then 1 else m.eos.toNat - 1 :=
  if_pos ⟨hshort, hpeak⟩

theorem greedyToken_of_not_masked (h : ¬(context.length < 4 ∧ m.peak context = m.eos.toNat)) :
    m.greedyToken context = m.peak context :=
  if_neg h

/-- No token that is not masked is nearer to the peak, and none before it is as near. -/
theorem falloff_greedyToken (hmask : ¬(context.length < 4 ∧ j = m.eos.toNat)) :
    falloff (m.peak context) (m.greedyToken context) ≤ falloff (m.peak context) j ∧
      (j < m.greedyToken context →
        falloff (m.peak context) (m.greedyToken context) < falloff (m.peak context) j) := by
  by_cases hc : context.length < 4 ∧ m.peak context = m.eos.toNat
  · have hne : j ≠ m.eos.toNat := fun he => hmask ⟨hc.1, he⟩
    rw [greedyToken_of_masked hc.1 hc.2]
    unfold falloff
    split <;> omega
  · rw [greedyToken_of_not_masked hc]
    unfold falloff
    omega

theorem argmax_logits (h : m.WellFormed) (context : List TokenId) :
    (StepLogits.mk ((List.range m.vocab).map (m.logit context))).argmax =
      UInt32.ofNat (m.greedyToken context) := by
  apply argmax_of_least h (m.greedyToken_lt h context)
  · rintro ⟨hshort, he⟩
    exact greedyToken_ne_eos hshort he
  · exact fun j hj hmask => (falloff_greedyToken hmask).2 hj
  · exact fun j _ hmask => (falloff_greedyToken hmask).1

theorem toNat_greedyToken (h : m.WellFormed) (context : List TokenId) :
    (UInt32.ofNat (m.greedyToken context)).toNat = m.greedyToken context := by
  have hlt := m.greedyToken_lt h context
  have hle := h.vocab_le
  rw [UInt32.toNat_ofNat', Nat.mod_eq_of_lt (by omega)]

theorem isSome_forward (h : m.WellFormed) (context : List TokenId) :
    (m.forward context).isSome := by
  rw [forward_eq h]
  rfl

def toModel (m : TinyTransformer) (h : m.WellFormed) : Model where
  vocabSize := m.vocab
  numLayers := m.layers
  eosToken := m.eos
  forward context := (m.forward context).get (isSome_forward h context)

theorem next_toModel (h : m.WellFormed) (context : List TokenId) :
    (m.toModel h).next context = UInt32.ofNat (m.greedyToken context) := by
  rw [← argmax_logits h context]
  apply congrArg StepLogits.argmax
  exact Option.get_of_eq_some _ (forward_eq h context)

theorem peak_of_pinned {t : TokenId} (hpin : m.pinned.lookup context = some t)
    (ht : t.toNat < m.vocab) : m.peak context = t.toNat := by
  rw [TinyTransformer.peak, hpin]
  exact Nat.mod_eq_of_lt ht

theorem peak_of_unpinned (hpin : m.pinned.lookup context = none) :
    m.peak context =
      if ∃ period ∈ m.draftDivergence, period.toNat ∣ (m.hashContext context).toNat then
        ((m.hashContext context).toNat % m.vocab + 7) % m.vocab
      else (m.hashContext context).toNat % m.vocab := by
  simp only [TinyTransformer.peak, hpin]
  cases m.draftDivergence with
  | none => exact (if_neg (by simp)).symm
  | some period => exact if_congr (by simp) rfl rfl

theorem peak_eq (m : TinyTransformer) (context : List TokenId) :
    m.peak context =
      ((m.pinned.lookup context).map fun t => t.toNat % m.vocab).getD
        (if ∃ period ∈ m.draftDivergence, period.toNat ∣ (m.hashContext context).toNat then
          ((m.hashContext context).toNat % m.vocab + 7) % m.vocab
        else (m.hashContext context).toNat % m.vocab) := by
  cases hpin : m.pinned.lookup context with
  | some t => rw [TinyTransformer.peak, hpin]; rfl
  | none => exact peak_of_unpinned hpin

/-- The forward pass completes and its greedy token is the peak, which a pin or the hash of
the context picks, or the nearest neighbour of a masked eos. So no eos follows fewer than
four tokens, also along greedy decoding, and a pinned token of the vocabulary is emitted
unless it is such an eos. -/
theorem greedy_closed_form (m : TinyTransformer) (h : m.WellFormed) (context : List TokenId) :
    let hash := (m.hashContext context).toNat
    let peak := ((m.pinned.lookup context).map fun t => t.toNat % m.vocab).getD
      (if ∃ period ∈ m.draftDivergence, period.toNat ∣ hash then (hash % m.vocab + 7) % m.vocab
      else hash % m.vocab)
    (∃ logits, m.forward context = some logits ∧ logits.argmax.toNat < m.vocab ∧
      logits.argmax.toNat =
        (if context.length < 4 ∧ peak = m.eos.toNat then
          if m.eos.toNat = 0 then 1 else m.eos.toNat - 1
        else peak) ∧
      (context.length < 4 → logits.argmax ≠ m.eos) ∧
      ∀ t, m.pinned.lookup context = some t → t.toNat < m.vocab →
        ¬(context.length < 4 ∧ t = m.eos) → logits.argmax = t) ∧
    ∀ n i, ((m.toModel h).greedy context n)[i]? = some m.eos → 4 ≤ context.length + i := by
  intro hash peak
  have hgreedy := toNat_greedyToken h
  have hne : ∀ ctx : List TokenId, ctx.length < 4 →
      UInt32.ofNat (m.greedyToken ctx) ≠ m.eos := by
    intro ctx hshort he
    exact greedyToken_ne_eos hshort (by rw [← he, hgreedy])
  refine ⟨⟨_, forward_eq h context, ?_⟩, ?_⟩
  · rw [argmax_logits h context, hgreedy]
    refine ⟨m.greedyToken_lt h context, ?_, hne context, ?_⟩
    · rw [greedyToken, m.peak_eq context]
    · intro t hpin ht hmask
      have hpeak := peak_of_pinned hpin ht
      have hc : ¬(context.length < 4 ∧ m.peak context = m.eos.toNat) := by
        rintro ⟨hshort, he⟩
        exact hmask ⟨hshort, UInt32.toNat_inj.mp (hpeak.symm.trans he)⟩
      rw [greedyToken_of_not_masked hc, hpeak, UInt32.ofNat_toNat]
  · intro n i hi
    by_contra hlt
    have hnext := Greedy.eq_next_of_decode hi
    rw [next_toModel] at hnext
    refine hne _ ?_ hnext.symm
    rw [List.length_append]
    have := List.length_take_le i ((m.toModel h).greedy context n)
    exact (Nat.add_le_add_left this _).trans_lt (not_le.mp hlt)

theorem greedy_closed_form_of_pinned_eos :
    let m := ((draft 64 4).withEos 5).pin [7, 8] 5
    let hash := (m.hashContext [7, 8]).toNat
    let peak := ((m.pinned.lookup [7, 8]).map fun t => t.toNat % m.vocab).getD
      (if ∃ period ∈ m.draftDivergence, period.toNat ∣ hash then (hash % m.vocab + 7) % m.vocab
      else hash % m.vocab)
    ∃ h : m.WellFormed,
      (∃ logits, m.forward [7, 8] = some logits ∧ logits.argmax.toNat < m.vocab ∧
        logits.argmax.toNat =
          (if [7, 8].length < 4 ∧ peak = m.eos.toNat then
            if m.eos.toNat = 0 then 1 else m.eos.toNat - 1
          else peak) ∧
        ([7, 8].length < 4 → logits.argmax ≠ m.eos) ∧
        ∀ t, m.pinned.lookup [7, 8] = some t → t.toNat < m.vocab →
          ¬([7, 8].length < 4 ∧ t = m.eos) → logits.argmax = t) ∧
      ∀ n i, ((m.toModel h).greedy [7, 8] n)[i]? = some m.eos → 4 ≤ [7, 8].length + i := by
  intro m hash peak
  have h : m.WellFormed := ⟨by decide, by decide, by decide⟩
  exact ⟨h, greedy_closed_form m h [7, 8]⟩

/-- A pinned token of the vocabulary is emitted. -/
example :
    (((draft 64 4).pin [10, 11, 12, 13] 42).forward [10, 11, 12, 13]).map StepLogits.argmax =
      some 42 := by
  decide +kernel

end TinyTransformer

end ForgeInfer
