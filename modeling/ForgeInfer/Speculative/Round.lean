import ForgeInfer.Speculative.Exactness

/-! # The shape of a round

The drafted run is the draft's own greedy decoding. A round keeps its proposals up to the
first that fails its test or is the target's eos, and adds the target's own choice unless
an eos ended it.
-/

namespace ForgeInfer

namespace SpeculativeDecoder

def passes (d : SpeculativeDecoder) (test : AcceptTest) (pos : ℕ) (ctx : List TokenId) : Bool :=
  test ctx pos (d.target.forward ctx) (d.draft.forward ctx) (d.draft.next ctx)

def tail (d : SpeculativeDecoder) (ctx kept : List TokenId) : List TokenId :=
  if kept.getLast? = some d.target.eosToken then [] else [d.target.next (ctx ++ kept)]

/-- The outcome of verifying the proposals `ds` from a position of the run on. -/
structure Shape (d : SpeculativeDecoder) (test : AcceptTest) (pos : ℕ) (ctx ds : List TokenId)
    (r : SpeculationResult) : Prop where
  accepted_le : r.accepted ≤ ds.length
  tokens_eq : r.tokens = ds.take r.accepted ++ d.tail ctx (ds.take r.accepted)
  passed : ∀ i < r.accepted, d.passes test (pos + i) (ctx ++ ds.take i) = true
  eos_last : ∀ i < r.accepted, ds[i]? = some d.target.eosToken → i + 1 = r.accepted
  stopped : r.accepted < ds.length → (ds.take r.accepted).getLast? = some d.target.eosToken ∨
    d.passes test (pos + r.accepted) (ctx ++ ds.take r.accepted) = false

variable {d : SpeculativeDecoder} {test : AcceptTest} {pos drafted : ℕ} {ctx ds : List TokenId}
  {r : SpeculationResult}

theorem map_fst_draftLoop (draft : Model) (k : ℕ) (ctx : List TokenId) :
    (draftLoop draft k ctx).map Prod.fst = draft.greedy ctx k := by
  induction k generalizing ctx with
  | zero => rfl
  | succ k ih =>
    rw [draftLoop_succ, List.map_cons, apply_ite (List.map Prod.fst), ih]
    rfl

theorem length_draftRun (d : SpeculativeDecoder) (ctx : List TokenId) :
    (d.draftRun ctx).length = (d.draft.greedy ctx d.lookahead).length := by
  rw [draftRun, ← map_fst_draftLoop, List.length_map]

theorem tail_nil (d : SpeculativeDecoder) (ctx : List TokenId) :
    d.tail ctx [] = [d.target.next ctx] := by
  rw [tail, List.append_nil]
  exact if_neg (Option.some_ne_none _).symm

theorem getLast?_cons_eq_eos_iff {t eos : TokenId} (h : t ≠ eos) (kept : List TokenId) :
    (t :: kept).getLast? = some eos ↔ kept.getLast? = some eos := by
  rw [List.getLast?_cons]
  cases kept.getLast? with
  | none => simpa using h
  | some u => simp

theorem tail_cons {t : TokenId} (h : t ≠ d.target.eosToken) (kept : List TokenId) :
    d.tail ctx (t :: kept) = d.tail (ctx ++ [t]) kept := by
  rw [tail, tail, List.append_assoc, List.singleton_append]
  exact if_congr (getLast?_cons_eq_eos_iff h kept) rfl rfl

theorem Shape.refused (h : 0 < ds.length → d.passes test pos ctx = false) :
    d.Shape test pos ctx ds ⟨[d.target.next ctx], 0, drafted⟩ where
  accepted_le := Nat.zero_le _
  tokens_eq := (d.tail_nil ctx).symm
  passed i hi := absurd hi i.not_lt_zero
  eos_last i hi := absurd hi i.not_lt_zero
  stopped hlt := Or.inr (by rw [List.take_zero, List.append_nil]; exact h hlt)

theorem Shape.eos {t : TokenId} (heos : t = d.target.eosToken)
    (hpass : d.passes test pos ctx = true) (ds : List TokenId) :
    d.Shape test pos ctx (t :: ds) ⟨[t], 1, drafted⟩ where
  accepted_le := Nat.succ_le_succ (Nat.zero_le _)
  tokens_eq := by
    have hlast : [t].getLast? = some d.target.eosToken := congrArg some heos
    rw [List.take_succ_cons, List.take_zero, tail, if_pos hlast]
    rfl
  passed i hi := by
    obtain rfl := Nat.lt_one_iff.mp hi
    rw [List.take_zero, List.append_nil]
    exact hpass
  eos_last i hi _ := by
    obtain rfl := Nat.lt_one_iff.mp hi
    rfl
  stopped _ := Or.inl (congrArg some heos)

theorem Shape.kept {t : TokenId} (hne : t ≠ d.target.eosToken)
    (hpass : d.passes test pos ctx = true) (h : d.Shape test (pos + 1) (ctx ++ [t]) ds r) :
    d.Shape test pos ctx (t :: ds) ⟨t :: r.tokens, r.accepted + 1, drafted⟩ where
  accepted_le := Nat.succ_le_succ h.accepted_le
  tokens_eq := by
    rw [List.take_succ_cons, tail_cons hne, h.tokens_eq, List.cons_append]
  passed i hi := by
    cases i with
    | zero =>
      rw [List.take_zero, List.append_nil]
      exact hpass
    | succ i =>
      have := h.passed i (Nat.lt_of_succ_lt_succ hi)
      rwa [List.append_assoc, List.singleton_append, Nat.add_right_comm] at this
  eos_last i hi ht := by
    cases i with
    | zero => exact absurd (Option.some.inj ht) hne
    | succ i => exact congrArg (· + 1) (h.eos_last i (Nat.lt_of_succ_lt_succ hi) ht)
  stopped hlt := by
    rw [List.take_succ_cons, getLast?_cons_eq_eos_iff hne]
    have := h.stopped (Nat.lt_of_succ_lt_succ hlt)
    rwa [List.append_assoc, List.singleton_append, Nat.add_right_comm] at this

theorem shape_verifyLoop (d : SpeculativeDecoder) (test : AcceptTest) (drafted k pos : ℕ)
    (ctx : List TokenId) :
    d.Shape test pos ctx (d.draft.greedy ctx k)
      (verifyLoop d.target test drafted (draftLoop d.draft k ctx) pos ctx [] 0) := by
  -- on the proposals left: the draft loop and the verification loop go on together
  induction k generalizing pos ctx with
  | zero => exact .refused fun hlt => absurd hlt (Nat.lt_irrefl 0)
  | succ k ih =>
    have hrest : d.Shape test (pos + 1) (ctx ++ [d.draft.next ctx])
        (if d.draft.next ctx = d.draft.eosToken then []
          else d.draft.greedy (ctx ++ [d.draft.next ctx]) k)
        (verifyLoop d.target test drafted
          (if d.draft.next ctx = d.draft.eosToken then []
            else draftLoop d.draft k (ctx ++ [d.draft.next ctx]))
          (pos + 1) (ctx ++ [d.draft.next ctx]) [] 0) := by
      split
      · exact .refused fun hlt => absurd hlt (Nat.lt_irrefl 0)
      · exact ih (pos + 1) _
    rw [draftLoop_succ, verifyLoop]
    change d.Shape test pos ctx _ (if d.passes test pos ctx = true then _ else _)
    cases hpass : d.passes test pos ctx with
    | false =>
      rw [if_neg Bool.false_ne_true]
      exact .refused fun _ => hpass
    | true =>
      rw [if_pos rfl]
      split
      · next heos => exact .eos heos hpass _
      · next hne =>
        rw [verifyLoop_eq, Nat.zero_add, Nat.add_comm 1]
        exact hrest.kept hne hpass

theorem shape_stepWith (d : SpeculativeDecoder) (test : AcceptTest) (ctx : List TokenId) :
    d.Shape test 0 ctx (d.draft.greedy ctx d.lookahead) (d.stepWith test ctx) :=
  shape_verifyLoop d test _ d.lookahead 0 ctx

theorem drafted_stepWith (d : SpeculativeDecoder) (test : AcceptTest) (ctx : List TokenId) :
    (d.stepWith test ctx).drafted = (d.draft.greedy ctx d.lookahead).length := by
  rw [stepWith, verifyLoop_eq, length_draftRun]

theorem accepted_le_drafted (d : SpeculativeDecoder) (test : AcceptTest) (ctx : List TokenId) :
    (d.stepWith test ctx).accepted ≤ (d.stepWith test ctx).drafted := by
  rw [drafted_stepWith]
  exact (d.shape_stepWith test ctx).accepted_le

theorem length_tail (d : SpeculativeDecoder) (ctx kept : List TokenId) :
    (d.tail ctx kept).length = if kept.getLast? = some d.target.eosToken then 0 else 1 := by
  rw [tail]
  split <;> rfl

namespace Shape

theorem length_kept (h : d.Shape test pos ctx ds r) : (ds.take r.accepted).length = r.accepted :=
  List.length_take_of_le h.accepted_le

theorem length_tokens (h : d.Shape test pos ctx ds r) :
    r.tokens.length = r.accepted + (d.tail ctx (ds.take r.accepted)).length := by
  rw [h.tokens_eq, List.length_append, h.length_kept]

theorem length_tokens_le (h : d.Shape test pos ctx ds r) : r.tokens.length ≤ ds.length + 1 := by
  have hle := h.accepted_le
  rw [h.length_tokens, length_tail]
  split <;> omega

theorem length_tokens_pos (h : d.Shape test pos ctx ds r) : 1 ≤ r.tokens.length := by
  rw [h.length_tokens, length_tail]
  split
  · next heos =>
    have hne : r.accepted ≠ 0 := by
      intro hzero
      rw [hzero] at heos
      cases heos
    omega
  · omega

theorem eos_is_last (h : d.Shape test pos ctx ds r) {i : ℕ}
    (hi : r.tokens[i]? = some d.target.eosToken) : i + 1 = r.tokens.length := by
  have hkept := h.length_kept
  rw [h.length_tokens]
  rw [h.tokens_eq] at hi
  rcases Nat.lt_or_ge i r.accepted with hlt | hge
  · rw [List.getElem?_append_left (hkept.symm ▸ hlt), List.getElem?_take_of_lt hlt] at hi
    have hlast := h.eos_last i hlt hi
    have heos : (ds.take r.accepted).getLast? = some d.target.eosToken := by
      rw [List.getLast?_eq_getElem?, hkept, ← hlast, Nat.add_sub_cancel,
        List.getElem?_take_of_lt (Nat.lt_succ_self i)]
      exact hi
    rw [length_tail, if_pos heos]
    exact hlast
  · rw [List.getElem?_append_right (hkept.symm ▸ hge), hkept] at hi
    obtain ⟨hlt, -⟩ := List.getElem?_eq_some_iff.mp hi
    have hone := d.length_tail ctx (ds.take r.accepted)
    split at hone <;> omega

/-- So many proposals are kept when they pass their tests and no eos comes before the last. -/
theorem le_accepted_iff (h : d.Shape test 0 ctx ds r) {j : ℕ} (hj : j ≤ ds.length)
    (hopen : ∀ i, i + 1 < j → ds[i]? ≠ some d.target.eosToken) :
    j ≤ r.accepted ↔ ∀ i < j, d.passes test i (ctx ++ ds.take i) = true := by
  constructor
  · intro hle i hi
    have hpass := h.passed i (hi.trans_le hle)
    rwa [Nat.zero_add] at hpass
  · intro hpass
    by_contra hlt
    rw [not_le] at hlt
    rcases h.stopped (hlt.trans_le hj) with hlast | hfail
    · -- the last kept proposal is an eos before the last of the `j`
      cases hkept : r.accepted with
      | zero =>
        rw [hkept] at hlast
        cases hlast
      | succ i =>
        rw [List.getLast?_eq_getElem?, h.length_kept, hkept, Nat.add_sub_cancel,
          List.getElem?_take_of_lt i.lt_succ_self] at hlast
        exact hopen i (hkept ▸ hlt) hlast
    · rw [Nat.zero_add, hpass _ hlt] at hfail
      cases hfail

end Shape

theorem eos_not_before_last (heos : d.draft.eosToken = d.target.eosToken) (ctx : List TokenId)
    {k i : ℕ} (hi : i + 1 < (d.draft.greedy ctx k).length) :
    (d.draft.greedy ctx k)[i]? ≠ some d.target.eosToken := by
  rw [← heos]
  intro ht
  have hlast := Greedy.last_of_decode ht
  exact hi.ne hlast

/-- One round drafts the draft's greedy run, keeps a first part of it whose proposals all
passed their tests, and adds the target's choice unless that part ends with the target's eos.
It stops short of the run only at that eos or at a proposal that failed its test. -/
theorem round_shape (d : SpeculativeDecoder) (test : AcceptTest) (ctx : List TokenId) :
    let ds := d.draft.greedy ctx d.lookahead
    let r := d.stepWith test ctx
    let kept := ds.take r.accepted
    r.drafted = ds.length ∧ r.accepted ≤ ds.length ∧
      (r.tokens = kept ++ if kept.getLast? = some d.target.eosToken then []
        else [(d.target.forward (ctx ++ kept)).argmax]) ∧
      (∀ i, r.tokens[i]? = some d.target.eosToken → i + 1 = r.tokens.length) ∧
      (∀ i tok, kept[i]? = some tok →
        test (ctx ++ ds.take i) i (d.target.forward (ctx ++ ds.take i))
          (d.draft.forward (ctx ++ ds.take i)) tok = true) ∧
      (∀ tok, ds[r.accepted]? = some tok → kept.getLast? = some d.target.eosToken ∨
        test (ctx ++ kept) r.accepted (d.target.forward (ctx ++ kept))
          (d.draft.forward (ctx ++ kept)) tok = false) ∧
      1 ≤ r.tokens.length ∧ r.tokens.length ≤ ds.length + 1 := by
  intro ds r kept
  have h : d.Shape test 0 ctx ds r := d.shape_stepWith test ctx
  refine ⟨d.drafted_stepWith test ctx, h.accepted_le, h.tokens_eq, fun i => h.eos_is_last, ?_, ?_,
    h.length_tokens_pos, h.length_tokens_le⟩
  · intro i tok htok
    have hi : i < r.accepted := h.length_kept ▸ (List.getElem?_eq_some_iff.mp htok).1
    rw [List.getElem?_take_of_lt hi] at htok
    obtain rfl : tok = d.draft.next (ctx ++ ds.take i) := Greedy.eq_next_of_decode htok
    have hpass := h.passed i hi
    rwa [Nat.zero_add] at hpass
  · intro tok htok
    have hlt : r.accepted < ds.length := (List.getElem?_eq_some_iff.mp htok).1
    obtain rfl : tok = d.draft.next (ctx ++ kept) := Greedy.eq_next_of_decode htok
    have hstop := h.stopped hlt
    rwa [Nat.zero_add] at hstop

end SpeculativeDecoder

end ForgeInfer
