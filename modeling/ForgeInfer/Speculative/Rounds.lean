import ForgeInfer.Foundation.Monotone
import ForgeInfer.Speculative.Limit

/-! # Generation as a sequence of rounds

The generation loop appends the tokens of a round one by one and can stop in the middle of
one, but only at its limit: an eos ends its round. So the output is made of whole rounds, each
stepped on the prompt and everything before it, and cut once at the end.
-/

namespace ForgeInfer

open Binary32

def SpeculationResult.acceptanceRate (r : SpeculationResult) : F32 :=
  if r.drafted = 0 then 0 else F32.round r.accepted / F32.round r.drafted

namespace SpeculativeDecoder

/-- Rounds in a row, each on the context that those before it leave. -/
inductive Rounds (d : SpeculativeDecoder) (test : AcceptTest) :
    List TokenId → List SpeculationResult → Prop where
  | nil (ctx : List TokenId) : Rounds d test ctx []
  | cons (ctx : List TokenId) {rest : List SpeculationResult}
    (h : Rounds d test (ctx ++ (d.stepWith test ctx).tokens) rest) :
    Rounds d test ctx (d.stepWith test ctx :: rest)

def tokensOfRounds (rounds : List SpeculationResult) : List TokenId := rounds.flatMap (·.tokens)

def acceptedIn (rounds : List SpeculationResult) : ℕ := (rounds.map (·.accepted)).sum

def draftedIn (rounds : List SpeculationResult) : ℕ := (rounds.map (·.drafted)).sum

@[simp] theorem tokensOfRounds_nil : tokensOfRounds [] = [] := rfl

@[simp] theorem tokensOfRounds_cons (r : SpeculationResult) (rounds : List SpeculationResult) :
    tokensOfRounds (r :: rounds) = r.tokens ++ tokensOfRounds rounds := rfl

@[simp] theorem tokensOfRounds_append (rounds rounds' : List SpeculationResult) :
    tokensOfRounds (rounds ++ rounds') = tokensOfRounds rounds ++ tokensOfRounds rounds' :=
  List.flatMap_append

@[simp] theorem acceptedIn_nil : acceptedIn [] = 0 := rfl

@[simp] theorem acceptedIn_cons (r : SpeculationResult) (rounds : List SpeculationResult) :
    acceptedIn (r :: rounds) = r.accepted + acceptedIn rounds := by
  simp [acceptedIn]

@[simp] theorem draftedIn_nil : draftedIn [] = 0 := rfl

@[simp] theorem draftedIn_cons (r : SpeculationResult) (rounds : List SpeculationResult) :
    draftedIn (r :: rounds) = r.drafted + draftedIn rounds := by
  simp [draftedIn]

variable {d : SpeculativeDecoder} {test : AcceptTest} {maxNew : ℕ} {g last : Generation}
  {ctx : List TokenId} {rounds : List SpeculationResult}

theorem stepWith_bounds (d : SpeculativeDecoder) (test : AcceptTest) (ctx : List TokenId) :
    (d.stepWith test ctx).tokens.length ≤ (d.stepWith test ctx).accepted + 1 ∧
      (d.stepWith test ctx).accepted ≤ (d.stepWith test ctx).drafted ∧
      1 ≤ (d.stepWith test ctx).drafted ∧ (d.stepWith test ctx).drafted ≤ d.lookahead := by
  have hshape := d.shape_stepWith test ctx
  refine ⟨?_, d.accepted_le_drafted test ctx, ?_, ?_⟩
  · rw [hshape.length_tokens, length_tail]
    split <;> omega
  · rw [drafted_stepWith]
    exact List.length_pos_of_ne_nil (Greedy.decode_ne_nil ctx d.lookahead_pos)
  · rw [drafted_stepWith]
    exact Greedy.length_decode_le ctx d.lookahead

theorem Rounds.bounds (h : d.Rounds test ctx rounds) :
    (tokensOfRounds rounds).length ≤ acceptedIn rounds + rounds.length ∧
      acceptedIn rounds ≤ draftedIn rounds ∧ rounds.length ≤ draftedIn rounds ∧
      draftedIn rounds ≤ rounds.length * d.lookahead := by
  induction h with
  | nil ctx => simp
  | cons ctx _ ih =>
    obtain ⟨htokens, hacc, hpos, hdraft⟩ := d.stepWith_bounds test ctx
    obtain ⟨h₁, h₂, h₃, h₄⟩ := ih
    simp only [tokensOfRounds_cons, acceptedIn_cons, draftedIn_cons, List.length_append,
      List.length_cons, Nat.succ_mul]
    omega

/-- Appending the tokens of a round cuts them at the limit only, when an eos can only be the
last of them. -/
theorem appendLoop_eq {eos : TokenId} {toks : List TokenId} (maxNew : ℕ)
    (heos : ∀ i, toks[i]? = some eos → i + 1 = toks.length) (g : Generation) :
    (appendLoop eos maxNew toks g).1.generated =
        g.generated ++ toks.take (maxNew - g.generated.length) ∧
      (appendLoop eos maxNew toks g).1.ctx = g.ctx ++ toks.take (maxNew - g.generated.length) := by
  induction toks generalizing g with
  | nil => simp [appendLoop]
  | cons tok toks ih =>
    by_cases hroom : g.generated.length < maxNew
    · obtain ⟨n, hn⟩ := Nat.exists_eq_succ_of_ne_zero (Nat.sub_ne_zero_of_lt hroom)
      have hn' : maxNew - (g.push tok).generated.length = n := by
        rw [Generation.push, List.length_append, List.length_singleton]
        omega
      rw [appendLoop_of_room hroom, hn, List.take_succ_cons]
      split
      · next h =>
        obtain rfl : toks = [] := by
          have hlast := heos 0 (congrArg some h)
          rw [List.length_cons] at hlast
          exact List.length_eq_zero_iff.mp (by omega)
        rw [List.take_nil]
        exact ⟨rfl, rfl⟩
      · have hrest : ∀ i, toks[i]? = some eos → i + 1 = toks.length := by
          intro i hi
          have hlast := heos (i + 1) (by rwa [List.getElem?_cons_succ])
          rw [List.length_cons] at hlast
          omega
        obtain ⟨hgen, hctx⟩ := ih hrest (g.push tok)
        rw [hgen, hctx, hn', Generation.push]
        simp
    · rw [appendLoop_of_full (not_lt.mp hroom), Nat.sub_eq_zero_of_le (not_lt.mp hroom)]
      simp

theorem generateRound_eq (d : SpeculativeDecoder) (test : AcceptTest) (maxNew : ℕ)
    (g : Generation) :
    let kept := (d.stepWith test g.ctx).tokens.take (maxNew - g.generated.length)
    (d.generateRound test maxNew g).1.generated = g.generated ++ kept ∧
      (d.generateRound test maxNew g).1.ctx = g.ctx ++ kept ∧
      (d.generateRound test maxNew g).1.totalAccepted =
        g.totalAccepted + (d.stepWith test g.ctx).accepted ∧
      (d.generateRound test maxNew g).1.totalDrafted =
        g.totalDrafted + (d.stepWith test g.ctx).drafted := by
  have hshape := d.shape_stepWith test g.ctx
  obtain ⟨hgen, hctx⟩ := appendLoop_eq maxNew (fun i hi => hshape.eos_is_last hi)
    { g with
      totalAccepted := g.totalAccepted + (d.stepWith test g.ctx).accepted
      totalDrafted := g.totalDrafted + (d.stepWith test g.ctx).drafted }
  exact ⟨hgen, hctx, totals_appendLoop _ _ _ _⟩

def roundsLoop (d : SpeculativeDecoder) (test : AcceptTest) (maxNew : ℕ) :
    ℕ → Generation → List SpeculationResult
  | 0, _ => []
  | n + 1, g =>
    if g.generated.length < maxNew then
      d.stepWith test g.ctx ::
        if (d.generateRound test maxNew g).2 then []
        else roundsLoop d test maxNew n (d.generateRound test maxNew g).1
    else []

def roundsOf (d : SpeculativeDecoder) (test : AcceptTest) (prompt : List TokenId)
    (maxNew : ℕ) : List SpeculationResult :=
  d.roundsLoop test maxNew maxNew ⟨prompt, [], 0, 0⟩

theorem roundsLoop_of_done (h : maxNew ≤ g.generated.length) (n : ℕ) :
    d.roundsLoop test maxNew n g = [] := by
  cases n with
  | zero => rfl
  | succ n => exact if_neg (not_lt.mpr h)

/-- What a generation did: whole rounds, cut at the limit, and the totals over them. The last
round was needed. -/
structure Traced (d : SpeculativeDecoder) (test : AcceptTest) (maxNew : ℕ) (g last : Generation)
    (rounds : List SpeculationResult) : Prop where
  chain : d.Rounds test g.ctx rounds
  generated_eq : last.generated =
    g.generated ++ (tokensOfRounds rounds).take (maxNew - g.generated.length)
  accepted_eq : last.totalAccepted = g.totalAccepted + acceptedIn rounds
  drafted_eq : last.totalDrafted = g.totalDrafted + draftedIn rounds
  length_le : g.generated.length + rounds.length ≤ last.generated.length
  needed : ∀ init r, rounds = init ++ [r] →
    g.generated.length + (tokensOfRounds init).length < last.generated.length

theorem Traced.refl (g : Generation) : d.Traced test maxNew g g [] where
  chain := .nil _
  generated_eq := by simp
  accepted_eq := rfl
  drafted_eq := rfl
  length_le := le_rfl
  needed init r h := absurd h (List.append_ne_nil_of_right_ne_nil init (List.cons_ne_nil r [])).symm

/-- A pass of the loop and what follows it. Where tokens were left out, the limit is reached
and nothing follows. -/
theorem Traced.pass (hroom : g.generated.length < maxNew)
    (h : (d.stepWith test g.ctx).tokens.length ≤ maxNew - g.generated.length ∧
        d.Traced test maxNew (d.generateRound test maxNew g).1 last rounds ∨
      rounds = [] ∧ last = (d.generateRound test maxNew g).1) :
    d.Traced test maxNew g last (d.stepWith test g.ctx :: rounds) := by
  obtain ⟨hgen, hctx, hacc, hdraft⟩ := d.generateRound_eq test maxNew g
  have hless : g.generated.length < (d.generateRound test maxNew g).1.generated.length :=
    length_lt_generateRound hroom
  rcases h with ⟨hwhole, h⟩ | ⟨rfl, rfl⟩
  · rw [List.take_of_length_le hwhole] at hgen hctx
    obtain ⟨hrounds, hout, ha, hd, hlen, hneeded⟩ := h
    constructor
    · rw [hctx] at hrounds
      exact .cons g.ctx hrounds
    · rw [hout, hgen, tokensOfRounds_cons, List.take_append, List.take_of_length_le hwhole,
        List.append_assoc, List.length_append, Nat.sub_sub]
    · rw [ha, hacc, acceptedIn_cons, Nat.add_assoc]
    · rw [hd, hdraft, draftedIn_cons, Nat.add_assoc]
    · rw [List.length_cons]
      omega
    · intro init r h
      cases init with
      | nil =>
        rw [tokensOfRounds_nil, List.length_nil]
        omega
      | cons r₀ init =>
        obtain ⟨rfl, hrest⟩ := List.cons.inj h
        have hlast := hneeded init r hrest
        rw [hgen, List.length_append] at hlast
        rw [tokensOfRounds_cons, List.length_append]
        omega
  · constructor
    · exact .cons g.ctx (.nil _)
    · rw [hgen, tokensOfRounds_cons, tokensOfRounds_nil, List.append_nil]
    · rw [hacc, acceptedIn_cons, acceptedIn_nil, Nat.add_zero]
    · rw [hdraft, draftedIn_cons, draftedIn_nil, Nat.add_zero]
    · rw [List.length_singleton]
      exact hless
    · intro init r h
      rcases List.singleton_eq_append_iff.mp h with ⟨rfl, -⟩ | ⟨-, hr⟩
      · exact hless
      · cases hr

theorem traced_generateLoop (d : SpeculativeDecoder) (test : AcceptTest) (maxNew n : ℕ)
    (g : Generation) (hn : maxNew - g.generated.length ≤ n) :
    d.Traced test maxNew g (d.generateLoop test maxNew n g) (d.roundsLoop test maxNew n g) := by
  induction n generalizing g with
  | zero => exact .refl g
  | succ n ih =>
    rw [roundsLoop]
    by_cases hroom : g.generated.length < maxNew
    · have hless : g.generated.length < (d.generateRound test maxNew g).1.generated.length :=
        length_lt_generateRound hroom
      rw [generateLoop_of_room hroom, if_pos hroom]
      apply Traced.pass hroom
      split
      · exact Or.inr ⟨rfl, rfl⟩
      · by_cases hwhole :
          (d.stepWith test g.ctx).tokens.length ≤ maxNew - g.generated.length
        · exact Or.inl ⟨hwhole, ih (d.generateRound test maxNew g).1 (by omega)⟩
        · have hfull : maxNew ≤ (d.generateRound test maxNew g).1.generated.length := by
            rw [(d.generateRound_eq test maxNew g).1, List.length_append, List.length_take]
            omega
          exact Or.inr ⟨roundsLoop_of_done hfull n, generateLoop_of_done hfull n⟩
    · rw [generateLoop_of_done (not_lt.mp hroom), if_neg hroom]
      exact .refl g

theorem traced_generateWith (d : SpeculativeDecoder) (test : AcceptTest) (prompt : List TokenId)
    (maxNew : ℕ) :
    d.Traced test maxNew ⟨prompt, [], 0, 0⟩ (d.generateWith test prompt maxNew)
      (d.roundsOf test prompt maxNew) :=
  d.traced_generateLoop test maxNew maxNew _ (Nat.sub_le _ _)

theorem totalAccepted_generateWith (d : SpeculativeDecoder) (test : AcceptTest)
    (prompt : List TokenId) (maxNew : ℕ) :
    (d.generateWith test prompt maxNew).totalAccepted =
      acceptedIn (d.roundsOf test prompt maxNew) :=
  (d.traced_generateWith test prompt maxNew).accepted_eq.trans (Nat.zero_add _)

theorem totalDrafted_generateWith (d : SpeculativeDecoder) (test : AcceptTest)
    (prompt : List TokenId) (maxNew : ℕ) :
    (d.generateWith test prompt maxNew).totalDrafted =
      draftedIn (d.roundsOf test prompt maxNew) :=
  (d.traced_generateWith test prompt maxNew).drafted_eq.trans (Nat.zero_add _)

theorem length_roundsOf_le_generated (d : SpeculativeDecoder) (test : AcceptTest)
    (prompt : List TokenId) (maxNew : ℕ) :
    (d.roundsOf test prompt maxNew).length ≤ (d.generateWith test prompt maxNew).generated.length :=
  (Nat.zero_add _).symm.le.trans (d.traced_generateWith test prompt maxNew).length_le

/-- Generation is a sequence of whole rounds, each stepped on the prompt and all tokens of the
rounds before it, and cut once at the limit. There are no more rounds than tokens, and no more
tokens than accepted proposals and rounds together. -/
theorem generate_concatenates_rounds (d : SpeculativeDecoder) (test : AcceptTest)
    (prompt : List TokenId) (maxNew : ℕ) :
    ∃ rounds,
      let g := d.generateWith test prompt maxNew
      d.Rounds test prompt rounds ∧ g.generated = (tokensOfRounds rounds).take maxNew ∧
      g.totalAccepted = acceptedIn rounds ∧ g.totalDrafted = draftedIn rounds ∧
      rounds.length ≤ g.generated.length ∧
      g.generated.length ≤ g.totalAccepted + rounds.length ∧
      rounds.length ≤ g.totalDrafted ∧ g.totalDrafted ≤ rounds.length * d.lookahead := by
  have h := d.traced_generateWith test prompt maxNew
  have hacc := d.totalAccepted_generateWith test prompt maxNew
  have hdrafted := d.totalDrafted_generateWith test prompt maxNew
  obtain ⟨htokens, -, hpos, hdraft⟩ := h.chain.bounds
  have hgen : (d.generateWith test prompt maxNew).generated =
      (tokensOfRounds (d.roundsOf test prompt maxNew)).take maxNew := h.generated_eq
  have hlen : (d.generateWith test prompt maxNew).generated.length ≤
      (tokensOfRounds (d.roundsOf test prompt maxNew)).length := by
    rw [hgen]
    exact List.length_take_le' _ _
  refine ⟨_, h.chain, hgen, hacc, hdrafted, d.length_roundsOf_le_generated test prompt maxNew, ?_,
    ?_, ?_⟩
  · rw [hacc]
    exact hlen.trans htokens
  · rwa [hdrafted]
  · rwa [hdrafted]

theorem totalDrafted_le (d : SpeculativeDecoder) (test : AcceptTest) (prompt : List TokenId)
    (maxNew : ℕ) : (d.generateWith test prompt maxNew).totalDrafted ≤ maxNew * d.lookahead := by
  obtain ⟨-, -, -, hdraft⟩ := (d.traced_generateWith test prompt maxNew).chain.bounds
  have hlen := d.length_roundsOf_le_generated test prompt maxNew
  rw [generateWith_eq] at hlen
  rw [totalDrafted_generateWith]
  exact hdraft.trans (Nat.mul_le_mul_right _ (hlen.trans (Greedy.length_decodeFrom_le maxNew)))

theorem isFraction_generate (d : SpeculativeDecoder) (prob : ProbOf) (prompt : List TokenId)
    (maxNew : ℕ) (h : (d.generateWith (accepts prob) prompt maxNew).totalDrafted < 2 ^ 64) :
    F32.IsFraction (d.generateWith (accepts prob) prompt maxNew).totalAccepted
      (d.generateWith (accepts prob) prompt maxNew).totalDrafted
      (d.generate prob prompt maxNew).2 := by
  obtain ⟨-, hpart, -, -⟩ := (d.traced_generateWith (accepts prob) prompt maxNew).chain.bounds
  refine F32.isFraction ?_ h
  rwa [totalAccepted_generateWith, totalDrafted_generateWith]

/-- The rate that a generation reports is its part of accepted proposals, and so is that of a
round: a number of the unit interval, zero only for none and, up to 24 bits, one only for all. -/
theorem rates_are_fractions (d : SpeculativeDecoder) (prob : ProbOf) (prompt : List TokenId)
    (maxNew : ℕ) (hbig : (d.generateWith (accepts prob) prompt maxNew).totalDrafted < 2 ^ 64) :
    let g := d.generateWith (accepts prob) prompt maxNew
    F32.IsFraction g.totalAccepted g.totalDrafted (d.generate prob prompt maxNew).2 ∧
      ∀ ctx, (d.step prob ctx).drafted < 2 ^ 64 →
        F32.IsFraction (d.step prob ctx).accepted (d.step prob ctx).drafted
          (d.step prob ctx).acceptanceRate := by
  intro g
  constructor
  · exact d.isFraction_generate prob prompt maxNew hbig
  · intro ctx hround
    obtain ⟨-, hpart, -, -⟩ := d.stepWith_bounds (accepts prob) ctx
    exact F32.isFraction hpart hround

theorem rates_are_fractions_of_three :
    let draft : Model := ⟨3, 1, 2, fun _ => ⟨[0, 1, 0]⟩⟩
    let target : Model := ⟨3, 1, 2, fun ctx => ⟨if ctx.length < 5 then [1, 0, 0] else [0, 0, 1]⟩⟩
    let d : SpeculativeDecoder := ⟨draft, target, 3, by decide, rfl⟩
    let prob : ProbOf := fun _ _ => 1
    let g := d.generateWith (accepts prob) [0] 7
    F32.IsFraction g.totalAccepted g.totalDrafted (d.generate prob [0] 7).2 ∧
      ∀ ctx, (d.step prob ctx).drafted < 2 ^ 64 →
        F32.IsFraction (d.step prob ctx).accepted (d.step prob ctx).drafted
          (d.step prob ctx).acceptanceRate := by
  intro draft target d prob g
  exact d.rates_are_fractions prob [0] 7 ((d.totalDrafted_le _ [0] 7).trans_lt (by decide))

end SpeculativeDecoder

end ForgeInfer
