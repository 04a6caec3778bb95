import ForgeInfer.Model.Softmax
import ForgeInfer.Speculative.Limit
import ForgeInfer.Speculative.SelfDraft

/-! # What a round can emit

A proposal is the draft's greedy choice, so its draft probability is positive: the guard
against a division by zero never applies, and the acceptance probability is a number of the
unit interval. No draw is below zero, so a token that the target masks is never kept.
-/

namespace ForgeInfer

open Binary32

namespace SpeculativeDecoder

variable {d : SpeculativeDecoder} {exp : F32 → F32} {ctx : List TokenId} {p q : F32}

theorem acceptProb_of_pos (hq : q.Within (1 / 2 ^ 24) 1) : acceptProb p q = min (p / q) 1 := by
  obtain ⟨r, hr, rfl, hlow, -⟩ := hq
  apply if_neg
  change ¬F32.fin r hr ≤ .fin 0 representable_zero
  rw [F32.fin_le_fin, not_le]
  exact lt_of_lt_of_le (by norm_num) hlow

theorem acceptProb_within (hp : p.Within 0 1) (hq : q.Within (1 / 2 ^ 24) 1) :
    (acceptProb p q).Within 0 1 := by
  rw [acceptProb_of_pos hq]
  obtain ⟨s, hs, rfl, hs0, hs1⟩ := hp
  obtain ⟨r, hr, rfl, hlow, hr1⟩ := hq
  have hpos : 0 < r := lt_of_lt_of_le (by norm_num) hlow
  have htop : Representable (2 ^ 24) := F32.representable_two_pow (by norm_num)
  have hquot : (F32.round (s / r)).Within 0 (2 ^ 24) := by
    apply F32.within_round representable_zero htop le_rfl (div_nonneg hs0 hpos.le)
    rw [div_le_iff₀ hpos]
    linarith
  obtain ⟨t, ht, he, ht0, -⟩ := hquot
  rw [F32.fin_div_fin hpos.ne', he]
  change (min (F32.fin t ht) (F32.fin 1 representable_one)).Within 0 1
  rw [F32.min_fin_fin]
  split
  · exact F32.within_one.mono zero_le_one le_rfl
  · next hle => exact ⟨t, ht, rfl, ht0, not_lt.mp hle⟩

theorem acceptProb_of_zero (hq : q.Within (1 / 2 ^ 24) 1) : acceptProb 0 q = 0 := by
  rw [acceptProb_of_pos hq]
  obtain ⟨r, hr, rfl, hlow, -⟩ := hq
  have hpos : 0 < r := lt_of_lt_of_le (by norm_num) hlow
  change min (F32.fin 0 representable_zero / F32.fin r hr) (F32.fin 1 representable_one) = 0
  rw [F32.fin_div_fin hpos.ne', zero_div, F32.round_of_representable representable_zero,
    F32.min_fin_fin, if_neg (by norm_num)]
  rfl

-- at a variable: unfolded at a hash, the kernel would start to round
theorem draw_nonneg {n : ℕ} (hn : n < 2 ^ 53) : ¬F32.round n / F32.round (2 ^ 53) < 0 :=
  F32.round_natCast_div_nonneg hn (by norm_num)

theorem acceptanceDraw_nonneg (ctx : List TokenId) (pos : ℕ) : ¬acceptanceDraw ctx pos < 0 := by
  have hshift : (acceptanceHash ctx pos >>> 11).toNat =
      (acceptanceHash ctx pos).toNat / 2 ^ 11 := by
    rw [UInt64.toNat_shiftRight, Nat.shiftRight_eq_div_pow]
    rfl
  have hlt := (acceptanceHash ctx pos).toNat_lt
  have hbits : (acceptanceHash ctx pos >>> 11).toNat < 2 ^ 53 := by omega
  have hdraw := congrFun (congrFun acceptanceDraw_eq ctx) pos
  have hn := draw_nonneg hbits
  rwa [← hdraw] at hn

theorem argmax_of_mem_draftLoop {draft : Model} {k : ℕ} {tok : TokenId} {logits : StepLogits}
    (h : (tok, logits) ∈ draftLoop draft k ctx) :
    ∃ ctx', logits = draft.forward ctx' ∧ tok = logits.argmax := by
  induction k generalizing ctx with
  | zero => cases h
  | succ k ih =>
    rw [draftLoop_succ] at h
    rcases List.mem_cons.mp h with he | hrest
    · cases he
      exact ⟨ctx, rfl, rfl⟩
    · split at hrest
      · cases hrest
      · exact ih hrest

theorem draftProb_within (hexp : IsExp exp) (hdraft : d.draft.Proper) {tok : TokenId}
    {logits : StepLogits} (h : (tok, logits) ∈ d.draftRun ctx) :
    (logits.probOf exp tok).Within (1 / 2 ^ 24) 1 := by
  obtain ⟨ctx', rfl, rfl⟩ := argmax_of_mem_draftLoop h
  exact (hdraft ctx').probOf_argmax_within hexp

/-- A token that is masked, or that has no logit, is never accepted. -/
theorem accepts_of_no_prob (prob : ProbOf) {pos : ℕ} {targetLogits draftLogits : StepLogits}
    {tok : TokenId} (hp : prob targetLogits tok = 0)
    (hq : (prob draftLogits tok).Within (1 / 2 ^ 24) 1) :
    accepts prob ctx pos targetLogits draftLogits tok = false := by
  rw [accepts, hp, acceptProb_of_zero hq, decide_eq_false_iff_not]
  exact acceptanceDraw_nonneg ctx pos

/-- What the target can emit after a context: a token with an unmasked logit. -/
def CanEmit (m : Model) (ctx : List TokenId) (tok : TokenId) : Prop :=
  ∃ v, (m.forward ctx).logits[tok.toNat]? = some v ∧ v ≠ .negInf

theorem canEmit_next {m : Model} (h : m.Proper) (ctx : List TokenId) :
    CanEmit m ctx (m.next ctx) := by
  obtain ⟨⟨t, ht, htop⟩, -, -⟩ := (h ctx).top_spec
  refine ⟨_, (h ctx).getElem?_argmax, ?_⟩
  rw [htop]
  exact F32.noConfusion

theorem canEmit_of_keeps (hexp : IsExp exp) (hdraft : d.draft.Proper) (htarget : d.target.Proper)
    {pos : ℕ} (h : d.keeps (accepts (StepLogits.probOf exp)) pos ctx = true) :
    CanEmit d.target ctx (d.draft.next ctx) := by
  by_contra hnot
  have hq := (hdraft ctx).probOf_argmax_within hexp
  have hp : (d.target.forward ctx).probOf exp (d.draft.next ctx) = 0 := by
    cases hv : (d.target.forward ctx).logits[(d.draft.next ctx).toNat]? with
    | none => rw [StepLogits.probOf_eq, hv]
    | some v =>
      obtain rfl : v = .negInf := by
        by_contra hne
        exact hnot ⟨v, hv, hne⟩
      exact (htarget ctx).probOf_masked hexp hv
  rw [keeps, Bool.and_eq_true] at h
  rw [accepts_of_no_prob (StepLogits.probOf exp) hp hq] at h
  exact Bool.false_ne_true h.2

theorem canEmit_choose (hexp : IsExp exp) (hdraft : d.draft.Proper) (htarget : d.target.Proper)
    (pos : ℕ) (ctx : List TokenId) :
    CanEmit d.target ctx (d.choose (accepts (StepLogits.probOf exp)) pos ctx) := by
  cases hkeep : d.keeps (accepts (StepLogits.probOf exp)) pos ctx with
  | true =>
    rw [choose_of_keeps hkeep]
    exact canEmit_of_keeps hexp hdraft htarget hkeep
  | false =>
    rw [choose_of_not_keeps hkeep]
    exact canEmit_next htarget ctx

/-- In every round, the proposal under test has a draft probability of at least `2 ^ -24`. So the
test compares its draw with the ratio of the two probabilities cut at one, a number of the unit
interval, and the guard for a draft probability of zero never applies. -/
theorem guard_never_applies (d : SpeculativeDecoder) (exp : F32 → F32) (hexp : IsExp exp)
    (hdraft : d.draft.Proper) (htarget : d.target.Proper) (ctx : List TokenId) :
    ∀ proposal ∈ d.draftRun ctx, ∀ ctx' : List TokenId,
      let p := (d.target.forward ctx').probOf exp proposal.1
      let q := proposal.2.probOf exp proposal.1
      q.Within (1 / 2 ^ 24) 1 ∧ acceptProb p q = min (p / q) 1 ∧ (acceptProb p q).Within 0 1 := by
  rintro ⟨tok, logits⟩ hmem ctx'
  have hq := draftProb_within hexp hdraft hmem
  exact ⟨hq, acceptProb_of_pos hq, acceptProb_within ((htarget ctx').probOf_within hexp tok) hq⟩

theorem guard_never_applies_to_neighbours :
    let draft : Model := ⟨3, 1, 2, fun _ => ⟨[0, 1, .negInf]⟩⟩
    let target : Model := ⟨3, 1, 2, fun _ => ⟨[1, 0, 0]⟩⟩
    let d : SpeculativeDecoder := ⟨draft, target, 2, by decide, rfl⟩
    ∀ proposal ∈ d.draftRun [7], ∀ ctx' : List TokenId,
      let p := (d.target.forward ctx').probOf stepExp proposal.1
      let q := proposal.2.probOf stepExp proposal.1
      q.Within (1 / 2 ^ 24) 1 ∧ acceptProb p q = min (p / q) 1 ∧
        (acceptProb p q).Within 0 1 := by
  intro draft target d
  have hdraft : StepLogits.Proper ⟨[0, 1, .negInf]⟩ :=
    ⟨by decide, ⟨1, by decide, F32.negInf_lt_fin⟩, by decide⟩
  have htarget : StepLogits.Proper ⟨[1, 0, 0]⟩ :=
    ⟨by decide, ⟨1, by decide, F32.negInf_lt_fin⟩, by decide⟩
  exact guard_never_applies d stepExp isExp_stepExp (fun _ => hdraft) (fun _ => htarget) [7]

/-- Speculative generation only emits what the target can: after the prompt and the tokens before
it, every token has an unmasked logit of the target, whatever the draft proposes. -/
theorem generate_within_support (d : SpeculativeDecoder) (exp : F32 → F32) (hexp : IsExp exp)
    (hdraft : d.draft.Proper) (htarget : d.target.Proper) (prompt : List TokenId) (maxNew : ℕ) :
    let toks := (d.generate (StepLogits.probOf exp) prompt maxNew).1
    ∀ i tok, toks[i]? = some tok → CanEmit d.target (prompt ++ toks.take i) tok := by
  intro toks i tok htok
  have htoks : toks = d.tokenwise (accepts (StepLogits.probOf exp)) 0 prompt maxNew :=
    generateWith_eq d _ prompt maxNew
  rw [htoks] at htok ⊢
  obtain ⟨pos, rfl⟩ := Greedy.eq_choose_of_decodeFrom htok
  exact canEmit_choose hexp hdraft htarget pos _

theorem generate_within_support_of_masked_proposals :
    let draft : Model := ⟨3, 1, 2, fun _ => ⟨[0, 1, 0]⟩⟩
    let target : Model := ⟨3, 1, 2, fun _ => ⟨[1, .negInf, 0]⟩⟩
    let d : SpeculativeDecoder := ⟨draft, target, 2, by decide, rfl⟩
    let toks := (d.generate (StepLogits.probOf stepExp) [7] 5).1
    ∀ i tok, toks[i]? = some tok → CanEmit d.target ([7] ++ toks.take i) tok := by
  intro draft target d
  have hdraft : StepLogits.Proper ⟨[0, 1, 0]⟩ :=
    ⟨by decide, ⟨1, by decide, F32.negInf_lt_fin⟩, by decide⟩
  have htarget : StepLogits.Proper ⟨[1, .negInf, 0]⟩ :=
    ⟨by decide, ⟨1, by decide, F32.negInf_lt_fin⟩, by decide⟩
  exact generate_within_support d stepExp isExp_stepExp (fun _ => hdraft) (fun _ => htarget) [7] 5

end SpeculativeDecoder

end ForgeInfer
