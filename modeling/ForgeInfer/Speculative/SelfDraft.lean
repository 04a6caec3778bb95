import ForgeInfer.Foundation.Rounding
import ForgeInfer.Speculative.Round

/-! # A model as its own draft

The two probabilities of a proposal are then the same, so it is kept when its draw is below
one. The draw divides the top 53 bits of a hash by `2 ^ 53`, and single precision rounds
the largest of them up to `2 ^ 53`: such a draw is one, and refuses the proposal.
-/

namespace ForgeInfer

open Binary32

namespace SpeculativeDecoder

def selfDraft (m : Model) (lookahead : ℕ) (h : 1 ≤ lookahead) : SpeculativeDecoder where
  draft := m
  target := m
  lookahead := lookahead
  lookahead_pos := h
  vocab_eq := rfl

/-- The hash is within `2 ^ 39` of the end of its range. -/
def HashAtTop (ctx : List TokenId) (pos : ℕ) : Prop :=
  2 ^ 64 - 2 ^ 39 ≤ (acceptanceHash ctx pos).toNat

instance (ctx : List TokenId) (pos : ℕ) : Decidable (HashAtTop ctx pos) :=
  inferInstanceAs (Decidable (_ ≤ _))

-- as functions: unfolded at arguments, the kernel would start to round
theorem acceptanceDraw_eq : acceptanceDraw = fun ctx pos =>
    F32.round ((acceptanceHash ctx pos >>> 11).toNat : ℚ) / F32.round (2 ^ 53) := rfl

theorem draw_lt_one_iff {n : ℕ} (hn : n < 2 ^ 53) :
    F32.round n / F32.round (2 ^ 53) < 1 ↔ n < 2 ^ 53 - 2 ^ 28 :=
  F32.round_natCast_div_lt_one_iff hn (by norm_num) (by norm_num)

theorem acceptanceDraw_lt_one_iff (ctx : List TokenId) (pos : ℕ) :
    acceptanceDraw ctx pos < 1 ↔ ¬HashAtTop ctx pos := by
  have hdraw := congrFun (congrFun acceptanceDraw_eq ctx) pos
  have hshift : (acceptanceHash ctx pos >>> 11).toNat =
      (acceptanceHash ctx pos).toNat / 2 ^ 11 := by
    rw [UInt64.toNat_shiftRight, Nat.shiftRight_eq_div_pow]
    rfl
  have hlt := (acceptanceHash ctx pos).toNat_lt
  have hbits : (acceptanceHash ctx pos >>> 11).toNat < 2 ^ 53 := by omega
  have hiff : (acceptanceHash ctx pos >>> 11).toNat < 2 ^ 53 - 2 ^ 28 ↔ ¬HashAtTop ctx pos := by
    rw [hshift, HashAtTop]
    omega
  rw [← hiff, ← draw_lt_one_iff hbits, hdraw]

/-- Equal probabilities are accepted with probability one, also when they are not numbers. -/
theorem acceptProb_self (p : F32) : acceptProb p p = 1 := by
  rw [acceptProb]
  split
  · rfl
  · next hpos =>
    cases p with
    | nan => rfl
    | negInf => exact absurd rfl hpos
    | posInf => rfl
    | fin q hq =>
      have hne : q ≠ 0 := by
        rintro rfl
        exact hpos rfl
      rw [F32.fin_div_fin hne, div_self hne, F32.round_of_representable representable_one]
      rfl

variable {m : Model} {k : ℕ} {hk : 1 ≤ k} {prob : ProbOf} {ctx : List TokenId} {pos : ℕ}

theorem passes_selfDraft_iff :
    (selfDraft m k hk).passes (accepts prob) pos ctx = true ↔ ¬HashAtTop ctx pos := by
  rw [← acceptanceDraw_lt_one_iff]
  refine decide_eq_true_iff.trans ?_
  rw [show (selfDraft m k hk).target = (selfDraft m k hk).draft from rfl, acceptProb_self]

/-- A model that drafts for itself has its whole run accepted exactly when no hash along the
run is at the top of its range, which is when the draws are below one. -/
theorem selfDraft_accepts_iff (m : Model) (k : ℕ) (hk : 1 ≤ k) (prob : ProbOf)
    (ctx : List TokenId) :
    let ds := m.greedy ctx k
    let r := (selfDraft m k hk).step prob ctx
    (∀ pos, acceptanceDraw ctx pos < 1 ↔ ¬HashAtTop ctx pos) ∧
      ((r.accepted = r.drafted ∧
          r.tokens = ds ++ if ds.getLast? = some m.eosToken then []
            else [(m.forward (ctx ++ ds)).argmax]) ↔
        ∀ i < ds.length, ¬HashAtTop (ctx ++ ds.take i) i) := by
  intro ds r
  have h : (selfDraft m k hk).Shape (accepts prob) 0 ctx ds r :=
    shape_stepWith (selfDraft m k hk) (accepts prob) ctx
  have hdrafted : r.drafted = ds.length := drafted_stepWith (selfDraft m k hk) (accepts prob) ctx
  refine ⟨acceptanceDraw_lt_one_iff ctx, ?_⟩
  constructor
  · rintro ⟨haccepted, -⟩ i hi
    have hpass := h.passed i (by rw [haccepted, hdrafted]; exact hi)
    rw [Nat.zero_add] at hpass
    exact passes_selfDraft_iff.mp hpass
  · intro hdraws
    have hall : r.accepted = ds.length := by
      by_contra hne
      have hlt : r.accepted < ds.length := lt_of_le_of_ne h.accepted_le hne
      rcases h.stopped hlt with heos | hfail
      · exact hne (Greedy.eq_length_of_take_decode h.accepted_le heos)
      · rw [Nat.zero_add] at hfail
        exact Bool.eq_false_iff.mp hfail (passes_selfDraft_iff.mpr (hdraws _ hlt))
    have htokens := h.tokens_eq
    rw [hall, List.take_length] at htokens
    exact ⟨hall.trans hdrafted.symm, htokens⟩

theorem selfDraft_accepts_iff_run_of_three :
    let m : Model :=
      ⟨4, 1, 0, fun ctx => ⟨if ctx.length % 2 = 0 then [0, 1, 0, 0] else [0, 0, 1, 0]⟩⟩
    let prob : ProbOf := fun _ _ => 1
    let ds := m.greedy [3] 3
    let r := (selfDraft m 3 (by decide)).step prob [3]
    (∀ pos, acceptanceDraw [3] pos < 1 ↔ ¬HashAtTop [3] pos) ∧
      ((r.accepted = r.drafted ∧
          r.tokens = ds ++ if ds.getLast? = some m.eosToken then []
            else [(m.forward ([3] ++ ds)).argmax]) ↔
        ∀ i < ds.length, ¬HashAtTop ([3] ++ ds.take i) i) :=
  selfDraft_accepts_iff _ 3 (by decide) _ _

/-- A context whose hash is at the top: the only proposal is refused, though both
probabilities are the same, and no bonus token is emitted. -/
theorem selfDraft_refuses :
    let exp : F32 → F32 := fun x => if x = 0 then 1 else F32.round (12343986 / 2 ^ 25)
    let m : Model := ⟨4, 1, 0, fun _ => ⟨[0, 1, 0, 0]⟩⟩
    let ctx : List TokenId := [2, 2, 3, 3, 3, 2, 1, 1, 1, 2, 3, 1, 3, 3, 3]
    let r := (selfDraft m 1 le_rfl).step (StepLogits.probOf exp) ctx
    acceptanceDraw ctx 0 = 1 ∧ 0 < StepLogits.probOf exp (m.forward ctx) 1 ∧
      m.greedy ctx 1 = [1] ∧ r = ⟨[1], 0, 1⟩ ∧ r.accepted ≠ r.drafted := by
  decide +kernel

end SpeculativeDecoder

end ForgeInfer
