import ForgeInfer.Foundation.Blocks
import ForgeInfer.Speculative.Rounds

/-! # What a round is worth

A round of `k` proposals emits `k + 1` tokens for one batch of the target, when all of them
are accepted, and a generation goes on only after such a round or one with a rejection. So
the rounds of a generation lie between those of full acceptance and what the rejections add.
-/

namespace ForgeInfer.SpeculativeDecoder

def rejectedIn (rounds : List SpeculationResult) : ℕ :=
  rounds.countP fun r => r.accepted < r.drafted

variable {d : SpeculativeDecoder} {test : AcceptTest} {ctx : List TokenId}
  {rounds : List SpeculationResult}

theorem Rounds.exists_of_mem (h : d.Rounds test ctx rounds) {r : SpeculationResult}
    (hr : r ∈ rounds) : ∃ c, r = d.stepWith test c := by
  induction h with
  | nil ctx => cases hr
  | cons ctx _ ih =>
    rcases List.mem_cons.mp hr with rfl | hr
    · exact ⟨ctx, rfl⟩
    · exact ih hr

/-- A round without an eos is worth `k + 1` tokens, less what a rejection costs. -/
theorem lookahead_lt_of_open (heos : d.draft.eosToken = d.target.eosToken) (ctx : List TokenId)
    (hopen : d.target.eosToken ∉ (d.stepWith test ctx).tokens) :
    d.lookahead + 1 ≤ (d.stepWith test ctx).tokens.length +
      if (d.stepWith test ctx).accepted < (d.stepWith test ctx).drafted then d.lookahead else 0 := by
  have hshape := d.shape_stepWith test ctx
  set r := d.stepWith test ctx
  set ds := d.draft.greedy ctx d.lookahead
  have hkept : (ds.take r.accepted).getLast? ≠ some d.target.eosToken := by
    intro hlast
    apply hopen
    rw [hshape.tokens_eq]
    exact List.mem_append_left _ (List.mem_of_getLast? hlast)
  have hlen : r.tokens.length = r.accepted + 1 := by
    rw [hshape.length_tokens, length_tail, if_neg hkept]
  split
  · omega
  · next hall =>
    -- all proposals were accepted, so that none of them is an eos and the run is whole
    have hdrafted : r.drafted = ds.length := d.drafted_stepWith test ctx
    have hacc : ds.length ≤ r.accepted := by omega
    rw [List.take_of_length_le hacc, ← heos] at hkept
    have hwhole : ds.length = d.lookahead := Greedy.length_decode_eq d.lookahead hkept
    omega

theorem length_mul_le_of_open (heos : d.draft.eosToken = d.target.eosToken)
    (hrounds : ∀ r ∈ rounds, ∃ c, r = d.stepWith test c)
    (hopen : d.target.eosToken ∉ tokensOfRounds rounds) :
    rounds.length * (d.lookahead + 1) ≤
      (tokensOfRounds rounds).length + rejectedIn rounds * d.lookahead := by
  induction rounds with
  | nil => simp
  | cons r rounds ih =>
    rw [tokensOfRounds_cons, List.mem_append, not_or] at hopen
    obtain ⟨c, rfl⟩ := hrounds r List.mem_cons_self
    have hhead := lookahead_lt_of_open heos c hopen.1
    have hrest := ih (fun r hr => hrounds r (List.mem_cons_of_mem _ hr)) hopen.2
    rw [List.length_cons, tokensOfRounds_cons, List.length_append, Nat.succ_mul, rejectedIn,
      List.countP_cons, ← rejectedIn, Nat.add_mul]
    simp only [decide_eq_true_eq]
    split at hhead
    · next hrej =>
      rw [if_pos hrej]
      omega
    · next hall =>
      rw [if_neg hall]
      omega

theorem acceptedIn_add_rejectedIn_le (hrounds : ∀ r ∈ rounds, ∃ c, r = d.stepWith test c) :
    acceptedIn rounds + rejectedIn rounds ≤ draftedIn rounds := by
  induction rounds with
  | nil => simp [rejectedIn]
  | cons r rounds ih =>
    obtain ⟨c, rfl⟩ := hrounds r List.mem_cons_self
    have hhead := d.accepted_le_drafted test c
    have hrest := ih fun r hr => hrounds r (List.mem_cons_of_mem _ hr)
    rw [acceptedIn_cons, draftedIn_cons, rejectedIn, List.countP_cons, ← rejectedIn]
    simp only [decide_eq_true_eq]
    split <;> omega

theorem eos_notMem_of_needed (d : SpeculativeDecoder) (test : AcceptTest) (prompt : List TokenId)
    (maxNew : ℕ) {init : List SpeculationResult} {last : SpeculationResult}
    (h : d.roundsOf test prompt maxNew = init ++ [last]) :
    d.target.eosToken ∉ tokensOfRounds init := by
  have htraced := d.traced_generateWith test prompt maxNew
  have hneeded := htraced.needed init last h
  have hgen := htraced.generated_eq
  rw [h] at hgen
  intro hmem
  obtain ⟨i, hi, heos⟩ := List.mem_iff_getElem.mp hmem
  simp only [List.length_nil, Nat.zero_add, List.nil_append, Nat.sub_zero] at hneeded hgen
  have hlen : (d.generateWith test prompt maxNew).generated.length ≤ maxNew := by
    rw [hgen]
    exact List.length_take_le _ _
  have hat : (d.generateWith test prompt maxNew).generated[i]? = some d.target.eosToken := by
    rw [hgen, List.getElem?_take_of_lt (by omega), tokensOfRounds_append,
      List.getElem?_append_left hi, List.getElem?_eq_getElem hi, heos]
  rw [generateWith_eq] at hat hneeded
  have hlast : i + 1 = (d.tokenwise test 0 prompt maxNew).length := Greedy.last_of_decodeFrom hat
  omega

theorem ceilDiv_le_length_roundsOf (d : SpeculativeDecoder) (test : AcceptTest)
    (prompt : List TokenId) (maxNew : ℕ) :
    (d.generateWith test prompt maxNew).generated.length ⌈/⌉ (d.lookahead + 1) ≤
      (d.roundsOf test prompt maxNew).length := by
  have htraced := d.traced_generateWith test prompt maxNew
  obtain ⟨htokens, hle, -, hdraft⟩ := htraced.chain.bounds
  have hcut : (d.generateWith test prompt maxNew).generated.length ≤
      (tokensOfRounds (d.roundsOf test prompt maxNew)).length := by
    rw [htraced.generated_eq]
    exact List.length_take_le' _ _
  rw [Blocks.ceilDiv_le_iff (Nat.add_one_pos _), Nat.mul_succ]
  omega

theorem length_roundsOf_le (heos : d.draft.eosToken = d.target.eosToken) (test : AcceptTest)
    (prompt : List TokenId) (maxNew : ℕ) :
    (d.roundsOf test prompt maxNew).length ≤
      ((d.generateWith test prompt maxNew).generated.length +
        rejectedIn (d.roundsOf test prompt maxNew) * d.lookahead) ⌈/⌉ (d.lookahead + 1) := by
  have htraced := d.traced_generateWith test prompt maxNew
  rcases List.eq_nil_or_concat (d.roundsOf test prompt maxNew) with hnil | ⟨init, last, hlast⟩
  · rw [hnil]
    exact Nat.zero_le _
  · rw [List.concat_eq_append] at hlast
    have hneeded := htraced.needed init last hlast
    have hworth := length_mul_le_of_open heos
      (fun r hr => htraced.chain.exists_of_mem (hlast ▸ List.mem_append_left _ hr))
      (d.eos_notMem_of_needed test prompt maxNew hlast)
    have hrej : rejectedIn init * d.lookahead ≤
        rejectedIn (d.roundsOf test prompt maxNew) * d.lookahead := by
      apply Nat.mul_le_mul_right
      rw [hlast, rejectedIn, rejectedIn, List.countP_append]
      exact Nat.le_add_right _ _
    have hlen : (d.roundsOf test prompt maxNew).length = init.length + 1 := by
      rw [hlast, List.length_append, List.length_singleton]
    rw [hlen, Nat.succ_le_iff, ← not_le, Blocks.ceilDiv_le_iff (Nat.add_one_pos _)]
    simp only [List.length_nil, Nat.zero_add] at hneeded
    omega

/-- A generation of `t` tokens takes at least the rounds that full acceptance needs, and no
more than these when a rejection is counted as `k` more tokens; without a rejection it takes
just as many. -/
theorem rounds_within_rejections (d : SpeculativeDecoder)
    (heos : d.draft.eosToken = d.target.eosToken) (test : AcceptTest) (prompt : List TokenId)
    (maxNew : ℕ) :
    let g := d.generateWith test prompt maxNew
    let rounds := d.roundsOf test prompt maxNew
    d.Rounds test prompt rounds ∧ g.generated = (tokensOfRounds rounds).take maxNew ∧
      g.totalDrafted = draftedIn rounds ∧
      g.generated.length ⌈/⌉ (d.lookahead + 1) ≤ rounds.length ∧
      rounds.length ≤
        (g.generated.length + rejectedIn rounds * d.lookahead) ⌈/⌉ (d.lookahead + 1) ∧
      (g.totalAccepted = g.totalDrafted →
        rounds.length = g.generated.length ⌈/⌉ (d.lookahead + 1)) := by
  intro g rounds
  have htraced : d.Traced test maxNew ⟨prompt, [], 0, 0⟩ g rounds :=
    d.traced_generateWith test prompt maxNew
  have hacc : g.totalAccepted = acceptedIn rounds := htraced.accepted_eq.trans (Nat.zero_add _)
  have hdrafted : g.totalDrafted = draftedIn rounds := htraced.drafted_eq.trans (Nat.zero_add _)
  have hlower : g.generated.length ⌈/⌉ (d.lookahead + 1) ≤ rounds.length :=
    d.ceilDiv_le_length_roundsOf test prompt maxNew
  have hupper : rounds.length ≤
      (g.generated.length + rejectedIn rounds * d.lookahead) ⌈/⌉ (d.lookahead + 1) :=
    length_roundsOf_le heos test prompt maxNew
  refine ⟨htraced.chain, htraced.generated_eq, hdrafted, hlower, hupper, ?_⟩
  intro hall
  have hnone := acceptedIn_add_rejectedIn_le fun r hr => htraced.chain.exists_of_mem hr
  rw [← hacc, ← hdrafted, hall] at hnone
  have hzero : rejectedIn rounds = 0 := by omega
  rw [hzero, Nat.zero_mul, Nat.add_zero] at hupper
  exact le_antisymm hupper hlower

/-- A rejection in the first round, and a limit inside of the third. -/
theorem rounds_within_rejections_of_two :
    let m : Model := ⟨3, 1, 2, fun _ => ⟨[0, 1, 0]⟩⟩
    let d : SpeculativeDecoder := ⟨m, m, 2, by decide, rfl⟩
    let test : AcceptTest := fun ctx pos _ _ _ => pos = 0 || 2 < ctx.length
    let g := d.generateWith test [0] 7
    let rounds := d.roundsOf test [0] 7
    d.Rounds test [0] rounds ∧ g.generated = (tokensOfRounds rounds).take 7 ∧
      g.totalDrafted = draftedIn rounds ∧
      g.generated.length ⌈/⌉ (d.lookahead + 1) ≤ rounds.length ∧
      rounds.length ≤
        (g.generated.length + rejectedIn rounds * d.lookahead) ⌈/⌉ (d.lookahead + 1) ∧
      (g.totalAccepted = g.totalDrafted →
        rounds.length = g.generated.length ⌈/⌉ (d.lookahead + 1)) :=
  rounds_within_rejections _ rfl _ _ _

end ForgeInfer.SpeculativeDecoder
