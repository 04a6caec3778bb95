import ForgeInfer.Model.TinyTransformer
import ForgeInfer.Speculative.SelfDraft
import Mathlib.Data.Nat.ModEq
import Mathlib.Data.Nat.Prime.Basic

/-! # The deterministic draft

It is the target but for the contexts whose hash its period divides. On the others the two
forward passes are the same, so that a round keeps every proposal before the first divergence
and generation without one is plain decoding.
-/

namespace ForgeInfer

open Binary32

namespace TinyTransformer

def drafting (m : TinyTransformer) (period : UInt8) : TinyTransformer :=
  { m with draftDivergence := some period }

/-- The draft shifts the peak of the context to another token. -/
def Diverges (m : TinyTransformer) (period : UInt8) (ctx : List TokenId) : Prop :=
  m.pinned.lookup ctx = none ∧ period.toNat ∣ (m.hashContext ctx).toNat ∧ m.vocab ≠ 7

instance (m : TinyTransformer) (period : UInt8) (ctx : List TokenId) :
    Decidable (m.Diverges period ctx) :=
  inferInstanceAs (Decidable (_ ∧ _ ∧ _))

variable {m : TinyTransformer} {period : UInt8} {ctx : List TokenId}

theorem add_seven_mod_iff {v : ℕ} (hv : 2 ≤ v) (n : ℕ) : (n + 7) % v = n % v ↔ v = 7 := by
  have hdvd : (n + 7) % v = n % v ↔ v ∣ 7 := Nat.add_modEq_left_iff
  rw [hdvd, Nat.dvd_prime (by decide)]
  exact or_iff_right (by omega)

theorem peak_drafting_iff (h : 2 ≤ m.vocab) (hm : m.draftDivergence = none) :
    (m.drafting period).peak ctx = m.peak ctx ↔ ¬m.Diverges period ctx := by
  have hhash : (m.drafting period).hashContext ctx = m.hashContext ctx := rfl
  have hpinned : (m.drafting period).pinned = m.pinned := rfl
  rw [TinyTransformer.peak, TinyTransformer.peak, hhash, hpinned, hm, Diverges]
  cases hpin : m.pinned.lookup ctx with
  | some t => simp [drafting]
  | none =>
    by_cases hdvd : period.toNat ∣ (m.hashContext ctx).toNat
    · simp [drafting, hdvd, add_seven_mod_iff h]
    · simp [drafting, hdvd]

theorem falloff_eq_of_profile_eq {p q i : ℕ} (hi : i ≤ 2 ^ 32) (hp : p ≤ 2 ^ 32) (hq : q ≤ 2 ^ 32)
    (h : profile p i = profile q i) : falloff p i = falloff q i := by
  rw [profile_eq hi hp, profile_eq hi hq, F32.round_intCast (abs_logit_le p i),
    F32.round_intCast (abs_logit_le q i), F32.fin.injEq] at h
  have hint : (6 - falloff p i : ℤ) = 6 - falloff q i := by exact_mod_cast h
  omega

theorem peak_eq_of_profile_eq {p q : ℕ} (hp : p ≤ 2 ^ 32) (hq : q ≤ 2 ^ 32)
    (h : profile q p = profile p p) : q = p := by
  have hfall := falloff_eq_of_profile_eq hp hq hp h
  unfold falloff at hfall
  omega

/-- The logits of a forward pass tell where its peak is, since one token at most is masked. -/
theorem peak_eq_of_logit_eq {m' : TinyTransformer} (h : m.WellFormed) (heos : m'.eos = m.eos)
    (hpeak : m'.peak ctx < m.vocab) (hlogit : ∀ i < m.vocab, m'.logit ctx i = m.logit ctx i) :
    m'.peak ctx = m.peak ctx := by
  have hlt := peak_lt (Nat.lt_of_lt_of_le Nat.zero_lt_two h.two_le) ctx
  have hle := h.vocab_le
  by_cases hmask : ctx.length < 4 ∧ m.peak ctx = m.eos.toNat
  · by_cases hmask' : ctx.length < 4 ∧ m'.peak ctx = m.eos.toNat
    · rw [hmask.2, hmask'.2]
    · have hi := hlogit _ hpeak
      rw [logit, logit, heos, if_neg hmask', if_neg hmask'] at hi
      exact (peak_eq_of_profile_eq (by omega) (by omega) hi.symm).symm
  · have hi := hlogit _ hlt
    rw [logit, logit, heos, if_neg hmask, if_neg hmask] at hi
    exact peak_eq_of_profile_eq (by omega) (by omega) hi

theorem forward_drafting_iff (h : m.WellFormed) (hm : m.draftDivergence = none) :
    (m.drafting period).forward ctx = m.forward ctx ↔ ¬m.Diverges period ctx := by
  have hd : (m.drafting period).WellFormed := ⟨h.two_le, h.vocab_le, h.eos_lt⟩
  rw [← peak_drafting_iff h.two_le hm, forward_eq h, forward_eq hd]
  constructor
  · intro heq
    refine peak_eq_of_logit_eq h (show (m.drafting period).eos = m.eos from rfl) ?_ ?_
    · exact peak_lt (Nat.lt_of_lt_of_le Nat.zero_lt_two hd.two_le) ctx
    · have hmap := congrArg StepLogits.logits (Option.some.inj heq)
      exact fun i hi => List.map_inj_left.mp hmap i (List.mem_range.mpr hi)
  · intro hpeak
    have hlogit : (m.drafting period).logit ctx = m.logit ctx := by
      funext i
      rw [logit, logit, hpeak]
      rfl
    rw [hlogit]
    rfl

end TinyTransformer

namespace SpeculativeDecoder

variable {d : SpeculativeDecoder} {prob : ProbOf} {ctx : List TokenId} {pos : ℕ}

theorem passes_of_forward_eq (h : d.draft.forward ctx = d.target.forward ctx) :
    d.passes (accepts prob) pos ctx = true ↔ ¬HashAtTop ctx pos := by
  rw [← acceptanceDraw_lt_one_iff]
  refine decide_eq_true_iff.trans ?_
  rw [h, acceptProb_self]

end SpeculativeDecoder

namespace TinyTransformer

open SpeculativeDecoder

theorem wellFormed_drafting {m : TinyTransformer} (h : m.WellFormed) (period : UInt8) :
    (m.drafting period).WellFormed :=
  ⟨h.two_le, h.vocab_le, h.eos_lt⟩

def decoder (m : TinyTransformer) (h : m.WellFormed) (period : UInt8) (lookahead : ℕ)
    (hk : 1 ≤ lookahead) : SpeculativeDecoder where
  draft := (m.drafting period).toModel (wellFormed_drafting h period)
  target := m.toModel h
  lookahead := lookahead
  lookahead_pos := hk
  vocab_eq := rfl

/-- The draft's forward pass is the target's unless it diverges on the context. A round keeps
all proposals before the first divergence but for a draw at the top, and generation whose
tokens follow no divergence is the target's plain decoding. -/
theorem draft_speculates_until_divergence (m : TinyTransformer) (h : m.WellFormed)
    (hm : m.draftDivergence = none) (period : UInt8) (k : ℕ) (hk : 1 ≤ k) (prob : ProbOf) :
    let d := m.decoder h period k hk
    (∀ ctx, d.draft.forward ctx = d.target.forward ctx ↔ ¬m.Diverges period ctx) ∧
      (∀ ctx, let ds := d.draft.greedy ctx k
        ∀ j ≤ ds.length, (∀ i < j, ¬m.Diverges period (ctx ++ ds.take i) ∧
          ¬HashAtTop (ctx ++ ds.take i) i) → j ≤ (d.step prob ctx).accepted) ∧
      ∀ prompt n, let toks := d.target.greedy prompt n
        (∀ i < toks.length, ¬m.Diverges period (prompt ++ toks.take i)) →
          (d.generate prob prompt n).1 = toks := by
  intro d
  have hagree : ∀ ctx, d.draft.forward ctx = d.target.forward ctx ↔ ¬m.Diverges period ctx := by
    intro ctx
    rw [← forward_drafting_iff h hm]
    change Option.get _ _ = Option.get _ _ ↔ _
    rw [Option.get_inj]
  refine ⟨hagree, ?_, ?_⟩
  · intro ctx ds j hj hbefore
    have hshape := d.shape_stepWith (accepts prob) ctx
    have hopen : ∀ i, i + 1 < j → ds[i]? ≠ some d.target.eosToken := by
      intro i hi
      exact eos_not_before_last rfl ctx (hi.trans_le hj)
    apply (hshape.le_accepted_iff hj hopen).mpr
    intro i hi
    obtain ⟨hdiv, htop⟩ := hbefore i hi
    exact (passes_of_forward_eq ((hagree _).mpr hdiv)).mpr htop
  · intro prompt n toks hdiv
    refine generateWith_of_agreement (fun i hi => ?_) (accepts prob)
    exact congrArg StepLogits.argmax ((hagree _).mpr (hdiv i hi))

theorem draft_speculates_until_divergence_of_pin :
    let m := (new 64 4).pin [10, 11, 12, 13] 42
    let prob : ProbOf := fun _ _ => 1
    m.drafting 4 = (draft 64 4).pin [10, 11, 12, 13] 42 ∧
      ∃ h : m.WellFormed, let d := m.decoder h 4 3 (by decide)
        (∀ ctx, d.draft.forward ctx = d.target.forward ctx ↔ ¬m.Diverges 4 ctx) ∧
          (∀ ctx, let ds := d.draft.greedy ctx 3
            ∀ j ≤ ds.length, (∀ i < j, ¬m.Diverges 4 (ctx ++ ds.take i) ∧
              ¬HashAtTop (ctx ++ ds.take i) i) → j ≤ (d.step prob ctx).accepted) ∧
          ∀ prompt n, let toks := d.target.greedy prompt n
            (∀ i < toks.length, ¬m.Diverges 4 (prompt ++ toks.take i)) →
              (d.generate prob prompt n).1 = toks := by
  intro m prob
  have h : m.WellFormed := ⟨by decide, by decide, by decide⟩
  exact ⟨rfl, h, draft_speculates_until_divergence m h rfl 4 3 (by decide) prob⟩

end TinyTransformer

end ForgeInfer
