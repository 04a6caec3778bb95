import ForgeInfer.Speculative.Round

/-! # Limits and tests

The generation loop ends, and its limit only cuts the output short. When the draft always
chooses as the target does, no outcome of the acceptance tests shows in the output.
-/

namespace ForgeInfer

namespace SpeculativeDecoder

/-- The `while` loop of `generate` for a number of passes, the last of which finds its
condition false; `none` when the loop goes on. -/
def generateWhile (d : SpeculativeDecoder) (test : AcceptTest) (maxNew : ℕ) :
    ℕ → Generation → Option Generation
  | 0, _ => none
  | n + 1, g =>
    if g.generated.length < maxNew then
      let r := d.generateRound test maxNew g
      if r.2 then some r.1 else generateWhile d test maxNew n r.1
    else some g

variable {d : SpeculativeDecoder} {test : AcceptTest} {maxNew : ℕ} {g : Generation}

/-- Induction on the tokens still wanted: the loop ends within as many passes, and one more
to find that it has. -/
theorem generateWhile_eq {n fuel : ℕ} (hn : maxNew - g.generated.length ≤ n) (hfuel : n < fuel) :
    d.generateWhile test maxNew fuel g = some (d.generateLoop test maxNew n g) := by
  induction fuel generalizing n g with
  | zero => exact absurd hfuel n.not_lt_zero
  | succ fuel ih =>
    rw [generateWhile]
    by_cases hroom : g.generated.length < maxNew
    · obtain ⟨n, rfl⟩ : ∃ k, n = k + 1 := Nat.exists_eq_add_one_of_ne_zero (by omega)
      have hless : g.generated.length < (d.generateRound test maxNew g).1.generated.length :=
        length_lt_generateRound hroom
      rw [if_pos hroom, generateLoop_of_room hroom]
      dsimp only
      cases (d.generateRound test maxNew g).2 with
      | true => rfl
      | false => exact ih (by omega) (Nat.lt_of_succ_lt_succ hfuel)
    · rw [if_neg hroom, generateLoop_of_done (not_lt.mp hroom)]

theorem generateWhile_eq_generateWith (d : SpeculativeDecoder) (test : AcceptTest)
    (prompt : List TokenId) {maxNew fuel : ℕ} (hfuel : maxNew < fuel) :
    d.generateWhile test maxNew fuel ⟨prompt, [], 0, 0⟩ =
      some (d.generateWith test prompt maxNew) :=
  generateWhile_eq (Nat.sub_le _ _) hfuel

theorem totals_appendLoop (eos : TokenId) (maxNew : ℕ) (toks : List TokenId) (g : Generation) :
    (appendLoop eos maxNew toks g).1.totalAccepted = g.totalAccepted ∧
      (appendLoop eos maxNew toks g).1.totalDrafted = g.totalDrafted := by
  induction toks generalizing g with
  | nil => exact ⟨rfl, rfl⟩
  | cons tok toks ih =>
    rw [appendLoop]
    split
    · exact ⟨rfl, rfl⟩
    · dsimp only
      split
      · exact ⟨rfl, rfl⟩
      · exact ih _

theorem totals_generateRound (h : g.totalAccepted ≤ g.totalDrafted) :
    (d.generateRound test maxNew g).1.totalAccepted ≤
      (d.generateRound test maxNew g).1.totalDrafted := by
  have hround := d.accepted_le_drafted test g.ctx
  rw [generateRound, (totals_appendLoop _ _ _ _).1, (totals_appendLoop _ _ _ _).2]
  exact Nat.add_le_add h hround

theorem totals_generateLoop (n : ℕ) (h : g.totalAccepted ≤ g.totalDrafted) :
    (d.generateLoop test maxNew n g).totalAccepted ≤
      (d.generateLoop test maxNew n g).totalDrafted := by
  induction n generalizing g with
  | zero => exact h
  | succ n ih =>
    by_cases hroom : g.generated.length < maxNew
    · rw [generateLoop_of_room hroom]
      split
      · exact totals_generateRound h
      · exact ih (totals_generateRound h)
    · rwa [generateLoop_of_done (not_lt.mp hroom)]

/-- A smaller limit cuts the output of a larger one short. Generation ends, within its limit,
and short of it only with the target's eos, which is never followed by a token. -/
theorem limit_truncates (d : SpeculativeDecoder) (test : AcceptTest) (prompt : List TokenId)
    {m n : ℕ} (hmn : m ≤ n) :
    let toks := (d.generateWith test prompt n).generated
    (d.generateWith test prompt m).generated = toks.take m ∧
      (∀ fuel, n < fuel → d.generateWhile test n fuel ⟨prompt, [], 0, 0⟩ =
        some (d.generateWith test prompt n)) ∧
      toks.length ≤ n ∧
      (∀ i, toks[i]? = some d.target.eosToken → i + 1 = toks.length) ∧
      (toks.getLast? ≠ some d.target.eosToken → toks.length = n) ∧
      (d.generateWith test prompt n).totalAccepted ≤
        (d.generateWith test prompt n).totalDrafted := by
  intro toks
  have htoks : toks = d.tokenwise test 0 prompt n := generateWith_eq d test prompt n
  refine ⟨?_, fun fuel => d.generateWhile_eq_generateWith test prompt, ?_, ?_, ?_,
    totals_generateLoop n le_rfl⟩
  · rw [generateWith_eq, htoks]
    exact (Greedy.take_decodeFrom hmn).symm
  · rw [htoks]
    exact Greedy.length_decodeFrom_le n
  · rw [htoks]
    exact fun i => Greedy.last_of_decodeFrom
  · rw [htoks]
    exact Greedy.length_decodeFrom_eq n

/-- The limit falls inside the first round, and the target's eos ends the second. -/
theorem limit_truncates_within_round :
    let draft : Model := ⟨3, 1, 2, fun _ => ⟨[0, 1, 0]⟩⟩
    let target : Model :=
      ⟨3, 1, 2, fun ctx => ⟨if ctx.length < 5 then [1, 0, 0] else [0, 0, 1]⟩⟩
    let d : SpeculativeDecoder := ⟨draft, target, 3, by decide, rfl⟩
    let test : AcceptTest := fun _ pos _ _ _ => pos < 2
    let toks := (d.generateWith test [0] 7).generated
    (d.generateWith test [0] 2).generated = toks.take 2 ∧
      (∀ fuel, 7 < fuel → d.generateWhile test 7 fuel ⟨[0], [], 0, 0⟩ =
        some (d.generateWith test [0] 7)) ∧
      toks.length ≤ 7 ∧
      (∀ i, toks[i]? = some d.target.eosToken → i + 1 = toks.length) ∧
      (toks.getLast? ≠ some d.target.eosToken → toks.length = 7) ∧
      (d.generateWith test [0] 7).totalAccepted ≤ (d.generateWith test [0] 7).totalDrafted :=
  limit_truncates _ _ _ (by decide)

/-- With a draft that always chooses as the target does, generation is the target's plain
decoding, whatever the acceptance tests decide. -/
theorem generate_of_agreeing_draft (d : SpeculativeDecoder)
    (hagree : ∀ ctx, (d.draft.forward ctx).argmax = (d.target.forward ctx).argmax)
    (test : AcceptTest) (prompt : List TokenId) (maxNew fuel : ℕ) (hfuel : maxNew < fuel) :
    (d.generateWhile test maxNew fuel ⟨prompt, [], 0, 0⟩).map Generation.generated =
      some (d.target.greedy prompt maxNew) := by
  rw [d.generateWhile_eq_generateWith test prompt hfuel, Option.map_some, generateWith_eq]
  congr 1
  refine (Greedy.decodeFrom_eq_decode_iff maxNew).mpr fun i _ => ?_
  exact choose_eq_iff.mpr fun _ => hagree _

/-- The draft's eos is the target's choice and cuts every drafted run short; every other
proposal is refused. -/
theorem generate_of_agreeing_draft_alternating :
    let draft : Model := ⟨3, 1, 1, fun _ => ⟨[0, 1, .negInf]⟩⟩
    let target : Model := ⟨3, 1, 2, fun _ => ⟨[.negInf, 0, .negInf]⟩⟩
    let d : SpeculativeDecoder := ⟨draft, target, 4, by decide, rfl⟩
    let test : AcceptTest := fun ctx _ _ _ _ => ctx.length % 2 = 0
    (d.generateWhile test 5 6 ⟨[0], [], 0, 0⟩).map Generation.generated =
      some (d.target.greedy [0] 5) := by
  have hchoice : (⟨[0, 1, .negInf]⟩ : StepLogits).argmax =
      (⟨[.negInf, 0, .negInf]⟩ : StepLogits).argmax := by decide
  exact generate_of_agreeing_draft _ (fun _ => hchoice) _ _ 5 6 (by decide)

end SpeculativeDecoder

end ForgeInfer
