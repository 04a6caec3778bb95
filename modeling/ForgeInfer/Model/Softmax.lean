import ForgeInfer.Foundation.Monotone
import ForgeInfer.Model.TinyTransformer

/-! # The softmax

Single precision probabilities are numbers of the unit interval whatever the logits are: the
largest logit contributes one to the denominator, which stops growing at `2 ^ 24`. The greedy
choice gets the largest probability, and a positive one.
-/

namespace ForgeInfer

open Binary32

/-- What the softmax relies on: `1` at zero, `0` at minus infinity, and the unit interval for
everything up to zero. -/
structure IsExp (exp : F32 → F32) : Prop where
  zero : exp 0 = 1
  negInf : exp .negInf = 0
  unit : ∀ v, v ≤ 0 → (exp v).Within 0 1

namespace StepLogits

/-- Numbers, or minus infinity for a masked token, and not all of them masked. -/
structure Proper (l : StepLogits) : Prop where
  number : ∀ v ∈ l.logits, v ≠ .nan ∧ v ≠ .posInf
  unmasked : ∃ v ∈ l.logits, .negInf < v
  length_le : l.logits.length ≤ 2 ^ 32

variable {l : StepLogits} {exp : F32 → F32} {token : TokenId} {lo : ℚ}

def top (l : StepLogits) : F32 := l.logits.foldl max .negInf

def denom (exp : F32 → F32) (l : StepLogits) : F32 :=
  l.logits.foldl (fun d v => d + exp (v - l.top)) 0

theorem probOf_eq (exp : F32 → F32) (l : StepLogits) (token : TokenId) :
    l.probOf exp token =
      match l.logits[token.toNat]? with
      | none => 0
      | some v => exp (v - l.top) / l.denom exp := rfl

theorem Proper.top_spec (h : l.Proper) :
    (∃ t ht, l.top = .fin t ht) ∧ l.top ∈ l.logits ∧ ∀ v ∈ l.logits, v ≤ l.top := by
  obtain ⟨hmem, -, hall⟩ := F32.foldl_max_spec (a := .negInf) (by simp) fun v hv =>
    (h.number v hv).1
  obtain ⟨v, hv, hpos⟩ := h.unmasked
  have hle : v ≤ l.top := hall v hv
  have htop : l.top ≠ .negInf := by
    intro he
    rw [he] at hle
    exact F32.not_lt_of_le hle hpos
  have hin : l.top ∈ l.logits := hmem.resolve_left htop
  obtain ⟨hnan, hinf⟩ := h.number _ hin
  refine ⟨?_, hin, hall⟩
  cases ht : l.top with
  | nan => exact absurd ht hnan
  | negInf => exact absurd ht htop
  | fin t hr => exact ⟨t, hr, rfl⟩
  | posInf => exact absurd ht hinf

theorem Proper.sub_top_le (h : l.Proper) {v : F32} (hv : v ∈ l.logits) : v - l.top ≤ 0 := by
  obtain ⟨⟨t, ht, htop⟩, -, hall⟩ := h.top_spec
  have hle := hall v hv
  rw [htop] at hle ⊢
  cases v with
  | nan => exact absurd rfl (h.number _ hv).1
  | negInf => rfl
  | fin q hq =>
    have hsub : q - t ≤ 0 := sub_nonpos.mpr (F32.fin_le_fin.mp hle)
    change F32.round (q - t) ≤ 0
    rw [F32.round]
    split
    · exact F32.fin_le_fin.mpr (nearest_nonpos hsub)
    · rw [if_neg (not_lt.mpr hsub)]
      rfl
  | posInf => exact absurd rfl (h.number _ hv).2

theorem Proper.exp_top (h : l.Proper) (hexp : IsExp exp) : exp (l.top - l.top) = 1 := by
  obtain ⟨⟨t, ht, htop⟩, -, -⟩ := h.top_spec
  rw [htop]
  change exp (F32.round (t - t)) = 1
  rw [sub_self, F32.round_of_representable representable_zero]
  exact hexp.zero

theorem within_foldl_add {vs : List F32} {f : F32 → F32} {d : F32} (hlo : Representable lo)
    (h0 : 0 ≤ lo) (hd : d.Within lo (2 ^ 24)) (hf : ∀ v ∈ vs, (f v).Within 0 1) :
    (vs.foldl (fun d v => d + f v) d).Within lo (2 ^ 24) := by
  induction vs generalizing d with
  | nil => exact hd
  | cons v vs ih =>
    have hnext : (d + f v).Within lo (2 ^ 24) :=
      hd.add_unit (hf v List.mem_cons_self) h0 le_rfl hlo h0 (by rw [add_zero])
    exact ih hnext fun u hu => hf u (List.mem_cons_of_mem v hu)

/-- The denominator counts the largest logit once, and never overflows. -/
theorem Proper.denom_within (h : l.Proper) (hexp : IsExp exp) :
    (l.denom exp).Within 1 (2 ^ 24) := by
  obtain ⟨-, hin, -⟩ := h.top_spec
  obtain ⟨pre, post, hsplit⟩ := List.append_of_mem hin
  have hunit : ∀ v ∈ l.logits, (exp (v - l.top)).Within 0 1 := fun v hv =>
    hexp.unit _ (h.sub_top_le hv)
  have hone := h.exp_top hexp
  rw [denom]
  generalize l.top = t at hunit hsplit hone ⊢
  rw [hsplit] at hunit ⊢
  rw [List.foldl_append, List.foldl_cons, hone]
  apply within_foldl_add representable_one zero_le_one
  · have hpre : (pre.foldl (fun d v => d + exp (v - t)) 0).Within 0 (2 ^ 24) :=
      within_foldl_add representable_zero le_rfl (F32.within_zero.mono le_rfl (by norm_num))
        fun v hv => hunit v (List.mem_append_left _ hv)
    exact hpre.add_unit F32.within_one le_rfl zero_le_one representable_one zero_le_one (by simp)
  · exact fun v hv => hunit v (List.mem_append_right _ (List.mem_cons_of_mem t hv))

theorem probOf_of_some {v : F32} (hv : l.logits[token.toNat]? = some v) :
    l.probOf exp token = exp (v - l.top) / l.denom exp := by
  rw [probOf_eq, hv]

theorem probOf_of_none (h : l.logits.length ≤ token.toNat) : l.probOf exp token = 0 := by
  rw [probOf_eq, List.getElem?_eq_none h]

theorem Proper.getElem?_argmax (h : l.Proper) : l.logits[l.argmax.toNat]? = some l.top := by
  obtain ⟨⟨t, ht, htop⟩, hin, hall⟩ := h.top_spec
  have hlt : l.logits.idxOf l.top < l.logits.length := List.idxOf_lt_length_of_mem hin
  have hget : l.logits[l.logits.idxOf l.top]? = some l.top := by
    rw [List.getElem?_eq_getElem hlt, List.getElem_idxOf]
  have hargmax : l.argmax = UInt32.ofNat (l.logits.idxOf l.top) := by
    apply argmax_eq hget
    · rw [htop]
      exact F32.negInf_lt_fin
    · intro j u hj hu
      obtain ⟨hjlt, rfl⟩ := List.getElem?_eq_some_iff.mp hu
      refine F32.lt_of_le_of_ne (hall _ (List.getElem_mem hjlt)) ?_
      have hnot := List.not_of_lt_findIdx hj
      simpa using hnot
    · intro j u _ hu
      exact F32.not_lt_of_le (hall u (List.mem_of_getElem? hu))
  have hle := h.length_le
  rw [hargmax, UInt32.toNat_ofNat', Nat.mod_eq_of_lt (by omega)]
  exact hget

theorem Proper.probOf_argmax (h : l.Proper) (hexp : IsExp exp) :
    l.probOf exp l.argmax = 1 / l.denom exp := by
  rw [probOf_of_some h.getElem?_argmax, h.exp_top hexp]

theorem Proper.exp_within (h : l.Proper) (hexp : IsExp exp) {v : F32} {i : ℕ}
    (hv : l.logits[i]? = some v) : (exp (v - l.top)).Within 0 1 :=
  hexp.unit _ (h.sub_top_le (List.mem_of_getElem? hv))

theorem Proper.probOf_within (h : l.Proper) (hexp : IsExp exp) (token : TokenId) :
    (l.probOf exp token).Within 0 1 := by
  rw [probOf_eq]
  cases hv : l.logits[token.toNat]? with
  | none => exact F32.within_zero.mono le_rfl zero_le_one
  | some v =>
    have hz : (0 : ℚ) / 2 ^ 24 = 0 := zero_div _
    have hquot := (h.exp_within hexp hv).div_unit (h.denom_within hexp) le_rfl
      (by rw [hz]; exact representable_zero)
    rwa [hz] at hquot

theorem Proper.probOf_argmax_within (h : l.Proper) (hexp : IsExp exp) :
    (l.probOf exp l.argmax).Within (1 / 2 ^ 24) 1 := by
  rw [h.probOf_argmax hexp]
  apply F32.within_one.div_unit (h.denom_within hexp) zero_le_one
  exact ⟨1, -24, by norm_num, by norm_num, by norm_num, by rw [abs_of_pos] <;> norm_num⟩

theorem Proper.probOf_le_argmax (h : l.Proper) (hexp : IsExp exp) (token : TokenId) :
    l.probOf exp token ≤ l.probOf exp l.argmax := by
  rw [h.probOf_argmax hexp]
  have hdenom := h.denom_within hexp
  have hone := F32.within_one
  rw [probOf_eq]
  cases hv : l.logits[token.toNat]? with
  | none =>
    obtain ⟨q, hq, he, hlow, -⟩ := h.probOf_argmax_within hexp
    rw [h.probOf_argmax hexp] at he
    rw [he]
    exact F32.fin_le_fin.mpr ((by norm_num : (0 : ℚ) ≤ 1 / 2 ^ 24).trans hlow)
  | some v => exact (h.exp_within hexp hv).div_le_div hone le_rfl hdenom

theorem Proper.probOf_masked (h : l.Proper) (hexp : IsExp exp)
    (hmask : l.logits[token.toNat]? = some .negInf) : l.probOf exp token = 0 := by
  obtain ⟨⟨t, ht, htop⟩, -, -⟩ := h.top_spec
  obtain ⟨d, hd, hdenom, hone, -⟩ := h.denom_within hexp
  have hsub : F32.negInf - l.top = .negInf := by
    rw [htop]
    rfl
  rw [probOf_of_some hmask, hsub, hexp.negInf, hdenom]
  change F32.fin 0 representable_zero / _ = _
  rw [F32.fin_div_fin (zero_lt_one.trans_le hone).ne', zero_div,
    F32.round_of_representable representable_zero]
  rfl

end StepLogits

def Model.Proper (m : Model) : Prop := ∀ ctx, (m.forward ctx).Proper

namespace TinyTransformer

theorem proper_toModel (m : TinyTransformer) (h : m.WellFormed) : (m.toModel h).Proper := by
  intro ctx
  have hforward : (m.toModel h).forward ctx = ⟨(List.range m.vocab).map (m.logit ctx)⟩ :=
    Option.get_of_eq_some _ (forward_eq h ctx)
  have htwo := h.two_le
  have hvocab := h.vocab_le
  have hpeak := peak_lt (by omega : 0 < m.vocab) ctx
  have hprofile : ∀ i < m.vocab, ∃ q hq, profile (m.peak ctx) i = .fin q hq := fun i hi => by
    rw [profile_eq (by omega) (by omega), F32.round_intCast (abs_logit_le _ _)]
    exact ⟨_, _, rfl⟩
  rw [hforward]
  constructor
  · intro v hv
    obtain ⟨i, hi, rfl⟩ := List.mem_map.mp hv
    rw [logit]
    split
    · simp
    · obtain ⟨q, hq, he⟩ := hprofile i (List.mem_range.mp hi)
      simp [he]
  · refine ⟨m.logit ctx (m.greedyToken ctx),
      List.mem_map_of_mem (List.mem_range.mpr (m.greedyToken_lt h ctx)), ?_⟩
    have hmask : ¬(ctx.length < 4 ∧ m.greedyToken ctx = m.eos.toNat) := by
      rintro ⟨hshort, he⟩
      exact greedyToken_ne_eos hshort he
    obtain ⟨q, hq, he⟩ := hprofile _ (m.greedyToken_lt h ctx)
    rw [logit, if_neg hmask, he]
    exact F32.negInf_lt_fin
  · rw [List.length_map, List.length_range]
    exact hvocab

end TinyTransformer

/-- Every probability is a number of the unit interval, however many logits there are. None is
larger than that of the greedy choice, which is at least `2 ^ -24`, and a token that is masked
or outside of the vocabulary has none. -/
theorem softmax_favours_greedy (exp : F32 → F32) (hexp : IsExp exp) (l : StepLogits)
    (hl : l.Proper) :
    (∀ token, (l.probOf exp token).Within 0 1 ∧
      l.probOf exp token ≤ l.probOf exp l.argmax) ∧
    (l.probOf exp l.argmax).Within (1 / 2 ^ 24) 1 ∧
    ∀ token, l.logits.length ≤ token.toNat ∨ l.logits[token.toNat]? = some .negInf →
      l.probOf exp token = 0 := by
  refine ⟨fun token => ?_, hl.probOf_argmax_within hexp, ?_⟩
  · exact ⟨hl.probOf_within hexp token, hl.probOf_le_argmax hexp token⟩
  · rintro token (hout | hmask)
    · exact StepLogits.probOf_of_none hout
    · exact hl.probOf_masked hexp hmask

/-- An exponential for logits that are equal, one apart or masked. -/
def stepExp (v : F32) : F32 :=
  if v = 0 then 1 else if v = F32.round (-1) then F32.round (12343986 / 2 ^ 25) else 0

theorem isExp_stepExp : IsExp stepExp where
  zero := if_pos rfl
  negInf := by
    have hrep : Representable (-1) := ⟨-1, 0, by norm_num, by norm_num, by norm_num, by norm_num⟩
    have hone : F32.round (-1) ≠ .negInf := by
      rw [F32.round_of_representable hrep]
      exact F32.noConfusion
    rw [stepExp, if_neg F32.noConfusion, if_neg hone.symm]
  unit v _ := by
    rw [stepExp]
    split
    · exact F32.within_one.mono zero_le_one le_rfl
    · split
      · exact F32.within_round representable_zero representable_one le_rfl (by norm_num)
          (by norm_num)
      · exact F32.within_zero.mono le_rfl zero_le_one

theorem softmax_favours_greedy_of_three :
    let l : StepLogits := ⟨[0, 1, .negInf]⟩
    (∀ token, (l.probOf stepExp token).Within 0 1 ∧
      l.probOf stepExp token ≤ l.probOf stepExp l.argmax) ∧
    (l.probOf stepExp l.argmax).Within (1 / 2 ^ 24) 1 ∧
    ∀ token, l.logits.length ≤ token.toNat ∨ l.logits[token.toNat]? = some .negInf →
      l.probOf stepExp token = 0 :=
  softmax_favours_greedy stepExp isExp_stepExp _
    ⟨by decide, ⟨1, by decide, F32.negInf_lt_fin⟩, by decide⟩

end ForgeInfer
