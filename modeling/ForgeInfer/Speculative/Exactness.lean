import ForgeInfer.Speculative.Basic

/-! # Exactness of speculative decoding

Token by token, speculation is decoding guided by the position in the drafted run: a
proposal that is kept moves it on, and every other token is the target's own choice and
starts a new run. A kept proposal is emitted whatever the target would choose, so
speculation is plain decoding exactly when the proposals kept along it are its choices.
-/

namespace ForgeInfer

open Binary32

namespace SpeculativeDecoder

/-- The draft's choice after a context is in its run and passes the acceptance test. -/
def keeps (d : SpeculativeDecoder) (test : AcceptTest) (pos : ℕ) (ctx : List TokenId) : Bool :=
  decide (pos < d.lookahead) &&
    test ctx pos (d.target.forward ctx) (d.draft.forward ctx) (d.draft.next ctx)

def choose (d : SpeculativeDecoder) (test : AcceptTest) (pos : ℕ) (ctx : List TokenId) : TokenId :=
  if d.keeps test pos ctx then d.draft.next ctx else d.target.next ctx

/-- The position after that token. The draft's eos ends its run. -/
def move (d : SpeculativeDecoder) (test : AcceptTest) (pos : ℕ) (ctx : List TokenId) : ℕ :=
  if d.keeps test pos ctx then
    if d.draft.next ctx = d.draft.eosToken then d.lookahead else pos + 1
  else 0

def tokenwise (d : SpeculativeDecoder) (test : AcceptTest) : ℕ → List TokenId → ℕ → List TokenId :=
  Greedy.decodeFrom (d.choose test) (d.move test) d.target.eosToken

variable {d : SpeculativeDecoder} {test : AcceptTest} {pos drafted : ℕ} {ctx : List TokenId}

theorem choose_eq_iff : d.choose test pos ctx = d.target.next ctx ↔
    (d.keeps test pos ctx = true → d.draft.next ctx = d.target.next ctx) := by
  rw [choose, ite_eq_right_iff]

theorem verifyLoop_eq (target : Model) (test : AcceptTest) (drafted : ℕ)
    (run : List (TokenId × StepLogits)) (pos : ℕ) (ctx out : List TokenId) (accepted : ℕ) :
    verifyLoop target test drafted run pos ctx out accepted =
      ⟨out ++ (verifyLoop target test drafted run pos ctx [] 0).tokens,
        accepted + (verifyLoop target test drafted run pos ctx [] 0).accepted, drafted⟩ := by
  induction run generalizing pos ctx out accepted with
  | nil => rfl
  | cons proposal run ih =>
    obtain ⟨tok, draftLogits⟩ := proposal
    simp only [verifyLoop]
    split
    · split
      · rfl
      · rw [ih, ih (pos + 1) (ctx ++ [tok]) ([] ++ [tok]) (0 + 1)]
        simp [Nat.add_assoc]
    · rfl

def roundFrom (d : SpeculativeDecoder) (test : AcceptTest) (drafted pos : ℕ)
    (ctx : List TokenId) : SpeculationResult :=
  verifyLoop d.target test drafted (draftLoop d.draft (d.lookahead - pos) ctx) pos ctx [] 0

theorem tokens_of_not_keeps (h : d.keeps test pos ctx = false) :
    (d.roundFrom test drafted pos ctx).tokens = [d.target.next ctx] := by
  rw [roundFrom]
  cases hk : d.lookahead - pos with
  | zero => rfl
  | succ k =>
    have hpos : pos < d.lookahead := by omega
    have htest : test ctx pos (d.target.forward ctx) (d.draft.forward ctx)
        (d.draft.forward ctx).argmax = false := by simpa [keeps, hpos, Model.next] using h
    simp [draftLoop, verifyLoop, htest, Model.next]

theorem draftLoop_succ (draft : Model) (k : ℕ) (ctx : List TokenId) :
    draftLoop draft (k + 1) ctx =
      (draft.next ctx, draft.forward ctx) ::
        if draft.next ctx = draft.eosToken then []
        else draftLoop draft k (ctx ++ [draft.next ctx]) := rfl

theorem lt_lookahead_of_keeps (h : d.keeps test pos ctx = true) : pos < d.lookahead := by
  simp only [keeps, Bool.and_eq_true, decide_eq_true_eq] at h
  exact h.1

theorem tokens_of_keeps (h : d.keeps test pos ctx = true) :
    (d.roundFrom test drafted pos ctx).tokens =
      d.draft.next ctx ::
        if d.draft.next ctx = d.target.eosToken then []
        else (d.roundFrom test drafted (d.move test pos ctx)
          (ctx ++ [d.draft.next ctx])).tokens := by
  have hpos := lt_lookahead_of_keeps h
  have htest : test ctx pos (d.target.forward ctx) (d.draft.forward ctx) (d.draft.next ctx) := by
    simpa [keeps, hpos] using h
  have hk : d.lookahead - pos = d.lookahead - (pos + 1) + 1 := by omega
  rw [roundFrom, hk, draftLoop_succ, verifyLoop, if_pos htest, move, if_pos h]
  split
  · rfl
  · rw [verifyLoop_eq, roundFrom]
    split
    · -- the draft's eos leaves an empty run, as the end of a run does
      rw [Nat.sub_self]
      rfl
    · rfl

def Generation.push (g : Generation) (tok : TokenId) : Generation :=
  { g with ctx := g.ctx ++ [tok], generated := g.generated ++ [tok] }

theorem appendLoop_of_full {eos : TokenId} {maxNew : ℕ} {g : Generation}
    (h : maxNew ≤ g.generated.length) (toks : List TokenId) :
    appendLoop eos maxNew toks g = (g, false) := by
  cases toks with
  | nil => rfl
  | cons tok toks => rw [appendLoop, if_pos h]

theorem appendLoop_of_room {eos : TokenId} {maxNew : ℕ} {g : Generation}
    (h : g.generated.length < maxNew) (tok : TokenId) (toks : List TokenId) :
    appendLoop eos maxNew (tok :: toks) g =
      if tok = eos then (g.push tok, true) else appendLoop eos maxNew toks (g.push tok) := by
  rw [appendLoop, if_neg (not_le.mpr h)]
  rfl

/-- What appending the tokens of a round does: they start the rest of the output, which goes
on at the start of a run unless an eos ended it. -/
structure Appends (d : SpeculativeDecoder) (test : AcceptTest) (maxNew pos : ℕ)
    (g : Generation) (r : Generation × Bool) (emitted : List TokenId) : Prop where
  generated_eq : r.1.generated = g.generated ++ emitted
  ctx_eq : r.1.ctx = g.ctx ++ emitted
  progress : g.generated.length < maxNew → emitted ≠ []
  tokenwise_eq : d.tokenwise test pos g.ctx (maxNew - g.generated.length) =
    emitted ++
      if r.2 then [] else d.tokenwise test 0 r.1.ctx (maxNew - r.1.generated.length)

variable {maxNew : ℕ} {g : Generation} {r : Generation × Bool} {emitted : List TokenId}

theorem tokenwise_of_room (h : g.generated.length < maxNew) :
    d.tokenwise test pos g.ctx (maxNew - g.generated.length) =
      d.choose test pos g.ctx ::
        if d.choose test pos g.ctx = d.target.eosToken then []
        else d.tokenwise test (d.move test pos g.ctx) (g.push (d.choose test pos g.ctx)).ctx
          (maxNew - (g.push (d.choose test pos g.ctx)).generated.length) := by
  obtain ⟨n, hn⟩ := Nat.exists_eq_succ_of_ne_zero (Nat.sub_ne_zero_of_lt h)
  have hn' : maxNew - (g.push (d.choose test pos g.ctx)).generated.length = n := by
    rw [Generation.push, List.length_append, List.length_singleton]
    omega
  rw [hn, hn']
  rfl

theorem Appends.full (h : maxNew ≤ g.generated.length) :
    d.Appends test maxNew pos g (g, false) [] where
  generated_eq := (List.append_nil _).symm
  ctx_eq := (List.append_nil _).symm
  progress hlt := absurd h (not_le.mpr hlt)
  tokenwise_eq := by
    rw [Nat.sub_eq_zero_of_le h]
    rfl

theorem Appends.eos (h : g.generated.length < maxNew)
    (heos : d.choose test pos g.ctx = d.target.eosToken) :
    d.Appends test maxNew pos g (g.push (d.choose test pos g.ctx), true)
      [d.choose test pos g.ctx] where
  generated_eq := rfl
  ctx_eq := rfl
  progress _ := List.cons_ne_nil _ _
  tokenwise_eq := by
    rw [tokenwise_of_room h, if_pos heos]
    rfl

theorem Appends.last (h : g.generated.length < maxNew)
    (hne : d.choose test pos g.ctx ≠ d.target.eosToken) (hmove : d.move test pos g.ctx = 0) :
    d.Appends test maxNew pos g (g.push (d.choose test pos g.ctx), false)
      [d.choose test pos g.ctx] where
  generated_eq := rfl
  ctx_eq := rfl
  progress _ := List.cons_ne_nil _ _
  tokenwise_eq := by
    rw [tokenwise_of_room h, if_neg hne, hmove]
    rfl

theorem Appends.cons (h : g.generated.length < maxNew)
    (hne : d.choose test pos g.ctx ≠ d.target.eosToken)
    (hr : d.Appends test maxNew (d.move test pos g.ctx) (g.push (d.choose test pos g.ctx)) r
      emitted) :
    d.Appends test maxNew pos g r (d.choose test pos g.ctx :: emitted) where
  generated_eq := hr.generated_eq.trans (List.append_assoc ..)
  ctx_eq := hr.ctx_eq.trans (List.append_assoc ..)
  progress _ := List.cons_ne_nil _ _
  tokenwise_eq := by
    rw [tokenwise_of_room h, if_neg hne, hr.tokenwise_eq, List.cons_append]

theorem choose_of_keeps (h : d.keeps test pos ctx = true) :
    d.choose test pos ctx = d.draft.next ctx := if_pos h

theorem choose_of_not_keeps (h : d.keeps test pos ctx = false) :
    d.choose test pos ctx = d.target.next ctx := if_neg (by rw [h]; exact Bool.false_ne_true)

theorem move_of_not_keeps (h : d.keeps test pos ctx = false) : d.move test pos ctx = 0 :=
  if_neg (by rw [h]; exact Bool.false_ne_true)

theorem move_lt_of_keeps (h : d.keeps test pos ctx = true) :
    d.lookahead - d.move test pos ctx < d.lookahead - pos := by
  have hpos := lt_lookahead_of_keeps h
  rw [move, if_pos h]
  split <;> omega

theorem appends_round (d : SpeculativeDecoder) (test : AcceptTest) (drafted maxNew pos : ℕ)
    (g : Generation) : ∃ emitted, d.Appends test maxNew pos g
      (appendLoop d.target.eosToken maxNew (d.roundFrom test drafted pos g.ctx).tokens g)
      emitted := by
  -- on what is left of the run, as a kept proposal moves on in it
  induction hk : d.lookahead - pos using Nat.strong_induction_on generalizing pos g with
  | _ k ih =>
    by_cases hroom : g.generated.length < maxNew
    · cases hkeep : d.keeps test pos g.ctx with
      | false =>
        rw [tokens_of_not_keeps hkeep, ← choose_of_not_keeps hkeep, appendLoop_of_room hroom]
        split
        · next heos => exact ⟨_, .eos hroom heos⟩
        · next hne => exact ⟨_, .last hroom hne (move_of_not_keeps hkeep)⟩
      | true =>
        rw [tokens_of_keeps hkeep, ← choose_of_keeps hkeep, appendLoop_of_room hroom]
        split
        · next heos => exact ⟨_, .eos hroom heos⟩
        · next hne =>
          obtain ⟨emitted, hr⟩ := ih _ (hk ▸ move_lt_of_keeps hkeep) _
            (g.push (d.choose test pos g.ctx)) rfl
          exact ⟨_, hr.cons hroom hne⟩
    · rw [appendLoop_of_full (not_lt.mp hroom)]
      exact ⟨[], .full (not_lt.mp hroom)⟩

/-- If what follows a round generates the rest, the round and what follows generate all. -/
theorem Appends.finish (hr : d.Appends test maxNew 0 g r emitted) {last : Generation}
    (hlast : last.generated =
      r.1.generated ++ d.tokenwise test 0 r.1.ctx (maxNew - r.1.generated.length)) :
    (if r.2 then r.1 else last).generated =
      g.generated ++ d.tokenwise test 0 g.ctx (maxNew - g.generated.length) := by
  rw [hr.tokenwise_eq]
  cases r.2 with
  | true => simpa using hr.generated_eq
  | false => simpa [hr.generated_eq] using hlast

theorem Appends.length_lt (hr : d.Appends test maxNew pos g r emitted)
    (hroom : g.generated.length < maxNew) : g.generated.length < r.1.generated.length := by
  rw [hr.generated_eq, List.length_append]
  exact Nat.lt_add_of_pos_right (List.length_pos_of_ne_nil (hr.progress hroom))

/-- One pass of the generation loop; `true` when a target eos ended it. -/
def generateRound (d : SpeculativeDecoder) (test : AcceptTest) (maxNew : ℕ) (g : Generation) :
    Generation × Bool :=
  let result := d.stepWith test g.ctx
  appendLoop d.target.eosToken maxNew result.tokens
    { g with
      totalAccepted := g.totalAccepted + result.accepted
      totalDrafted := g.totalDrafted + result.drafted }

theorem generateLoop_of_done (h : maxNew ≤ g.generated.length) (n : ℕ) :
    d.generateLoop test maxNew n g = g := by
  cases n with
  | zero => rfl
  | succ n => exact if_neg (not_lt.mpr h)

theorem generateLoop_of_room (h : g.generated.length < maxNew) (n : ℕ) :
    d.generateLoop test maxNew (n + 1) g =
      if (d.generateRound test maxNew g).2 then (d.generateRound test maxNew g).1
      else d.generateLoop test maxNew n (d.generateRound test maxNew g).1 :=
  if_pos h

theorem appends_generateRound (d : SpeculativeDecoder) (test : AcceptTest) (maxNew : ℕ)
    (g : Generation) :
    ∃ emitted, d.Appends test maxNew 0 g (d.generateRound test maxNew g) emitted := by
  obtain ⟨emitted, hr⟩ := d.appends_round test (d.draftRun g.ctx).length maxNew 0
    { g with
      totalAccepted := g.totalAccepted + (d.stepWith test g.ctx).accepted
      totalDrafted := g.totalDrafted + (d.stepWith test g.ctx).drafted }
  exact ⟨emitted, hr.generated_eq, hr.ctx_eq, hr.progress, hr.tokenwise_eq⟩

theorem length_lt_generateRound (h : g.generated.length < maxNew) :
    g.generated.length < (d.generateRound test maxNew g).1.generated.length := by
  obtain ⟨emitted, hr⟩ := d.appends_generateRound test maxNew g
  exact hr.length_lt h

theorem generateLoop_eq (d : SpeculativeDecoder) (test : AcceptTest) (maxNew n : ℕ)
    (g : Generation) (hn : maxNew - g.generated.length ≤ n) :
    (d.generateLoop test maxNew n g).generated =
      g.generated ++ d.tokenwise test 0 g.ctx (maxNew - g.generated.length) := by
  induction n generalizing g with
  | zero =>
    rw [Nat.le_zero.mp hn]
    exact (List.append_nil _).symm
  | succ n ih =>
    by_cases hroom : g.generated.length < maxNew
    · obtain ⟨emitted, hr⟩ := d.appends_generateRound test maxNew g
      have hless := Nat.sub_lt_sub_left hroom (hr.length_lt hroom)
      rw [generateLoop_of_room hroom]
      exact hr.finish (ih _ (Nat.le_of_lt_succ (hless.trans_le hn)))
    · rw [generateLoop_of_done (not_lt.mp hroom), Nat.sub_eq_zero_of_le (not_lt.mp hroom)]
      exact (List.append_nil _).symm

theorem generateWith_eq (d : SpeculativeDecoder) (test : AcceptTest) (prompt : List TokenId)
    (maxNew : ℕ) :
    (d.generateWith test prompt maxNew).generated = d.tokenwise test 0 prompt maxNew := by
  rw [generateWith, generateLoop_eq d test maxNew maxNew _ (Nat.sub_le _ _)]
  rfl

/-- The position in its run of the proposal that follows the given tokens of plain decoding. -/
def position (d : SpeculativeDecoder) (test : AcceptTest) (prompt toks : List TokenId) : ℕ :=
  Greedy.stateAfter (d.move test) 0 prompt toks

theorem generateWith_eq_greedy_iff (d : SpeculativeDecoder) (test : AcceptTest)
    (prompt : List TokenId) (maxNew : ℕ) :
    (d.generateWith test prompt maxNew).generated = d.target.greedy prompt maxNew ↔
      ∀ i < (d.target.greedy prompt maxNew).length,
        let toks := (d.target.greedy prompt maxNew).take i
        d.keeps test (d.position test prompt toks) (prompt ++ toks) = true →
          d.draft.next (prompt ++ toks) = d.target.next (prompt ++ toks) := by
  rw [generateWith_eq, tokenwise, Model.greedy, Greedy.decodeFrom_eq_decode_iff]
  exact forall₂_congr fun i _ => choose_eq_iff

theorem generateWith_of_agreement {d : SpeculativeDecoder} {prompt : List TokenId} {maxNew : ℕ}
    (h : ∀ i < (d.target.greedy prompt maxNew).length,
      let toks := (d.target.greedy prompt maxNew).take i
      d.draft.next (prompt ++ toks) = d.target.next (prompt ++ toks)) (test : AcceptTest) :
    (d.generateWith test prompt maxNew).generated = d.target.greedy prompt maxNew :=
  (d.generateWith_eq_greedy_iff test prompt maxNew).mpr fun i hi _ => h i hi

/-- Speculation is plain decoding of the target exactly when every proposal that is kept
along plain decoding is the target's own choice. -/
theorem generate_eq_greedy_iff (d : SpeculativeDecoder) (prob : ProbOf) (prompt : List TokenId)
    (maxNew : ℕ) :
    (d.generate prob prompt maxNew).1 = d.target.greedy prompt maxNew ↔
      ∀ i < (d.target.greedy prompt maxNew).length,
        let toks := (d.target.greedy prompt maxNew).take i
        d.keeps (accepts prob) (d.position (accepts prob) prompt toks) (prompt ++ toks) = true →
          d.draft.next (prompt ++ toks) = d.target.next (prompt ++ toks) :=
  d.generateWith_eq_greedy_iff (accepts prob) prompt maxNew

/-- A proposal as likely for the target as for the draft is kept, though the target
chooses another token. -/
theorem divergent_proposal_is_kept :
    let exp : F32 → F32 := fun x => if x = 0 then 1 else F32.round (12343986 / 2 ^ 25)
    let draft : Model := ⟨3, 1, 2, fun _ => ⟨[0, 1, 1]⟩⟩
    let target : Model := ⟨3, 1, 2, fun _ => ⟨[1, 1, 0]⟩⟩
    let d : SpeculativeDecoder := ⟨draft, target, 1, le_rfl, rfl⟩
    draft.eosToken = target.eosToken ∧
      (d.generate (StepLogits.probOf exp) [0] 2).1 = [1, 0] ∧
      target.greedy [0] 2 = [0, 0] ∧
      (d.generate (StepLogits.probOf exp) [0] 2).1 ≠ target.greedy [0] 2 := by
  decide +kernel

end SpeculativeDecoder

end ForgeInfer
