import ForgeInfer.Engine.Exactness
import ForgeInfer.Engine.Termination
import Mathlib.Data.List.Sort

/-! # What `run_to_completion` returns

The results are rebuilt from the emitted tokens, so they list, by ascending id, the requests
for which something was emitted: those that asked for at least one token.
-/

namespace ForgeInfer

def Request.output (m : Model) (r : Request) : GenerationOutput :=
  ⟨r.id, m.greedy r.prompt r.maxNewTokens⟩

/-- One output for each request, by strictly ascending id. -/
def AccountsFor (m : Model) (reqs : List Request) (result : List GenerationOutput) : Prop :=
  result.Perm (reqs.map (·.output m)) ∧ result.Pairwise fun a b => a.id < b.id

namespace Engine

theorem lookup_record (emitted : List Emission) (id : SeqId) :
    (record ∅ emitted).lookup id =
      if tokensOf id emitted = [] then none else some (tokensOf id emitted) := by
  induction emitted using List.reverseRecOn with
  | nil => rfl
  | append_singleton emitted t ih =>
    rw [record_append, tokensOf_append]
    change ((record ∅ emitted).insert t.1 _).lookup id = _
    by_cases h : t.1 = id
    · subst h
      have hone : tokensOf t.1 [t] = [t.2.1] := by simp [tokensOf]
      rw [AList.lookup_insert, ih, hone]
      by_cases hn : tokensOf t.1 emitted = [] <;> simp [hn]
    · have hone : tokensOf id [t] = [] := tokensOf_of_notMem (by simpa using fun he => h he.symm)
      rw [AList.lookup_insert_ne (Ne.symm h), ih, hone, List.append_nil]

section Results

variable (order : IterOrder (Σ _ : SeqId, List TokenId))

theorem results_perm (outputs : Outputs) :
    (results order outputs).Perm (outputs.entries.map fun e => ⟨e.1, e.2⟩) :=
  (List.perm_insertionSort _ _).trans ((order.perm _).map _)

theorem mem_results {outputs : Outputs} {id : SeqId} {tokens : List TokenId} :
    ⟨id, tokens⟩ ∈ results order outputs ↔ outputs.lookup id = some tokens := by
  rw [(results_perm order outputs).mem_iff, ← Keyed.mem_entries_iff, List.mem_map]
  constructor
  · rintro ⟨⟨id', tokens'⟩, he, ⟨⟩⟩
    exact he
  · exact fun he => ⟨_, he, rfl⟩

theorem mem_results_record {emitted : List Emission} {id : SeqId} {tokens : List TokenId} :
    ⟨id, tokens⟩ ∈ results order (record ∅ emitted) ↔
      tokens ≠ [] ∧ tokensOf id emitted = tokens := by
  rw [mem_results, lookup_record]
  split
  · next h =>
    constructor
    · rintro ⟨⟩
    · rintro ⟨hne, rfl⟩
      exact absurd h hne
  · next h =>
    rw [Option.some.injEq]
    constructor
    · rintro rfl
      exact ⟨h, rfl⟩
    · exact fun ht => ht.2

theorem nodup_results (outputs : Outputs) : ((results order outputs).map (·.id)).Nodup := by
  have hp := (results_perm order outputs).map (·.id)
  rw [List.map_map] at hp
  exact hp.nodup_iff.mpr outputs.keys_nodup

theorem ascending_results (outputs : Outputs) :
    (results order outputs).Pairwise fun a b => a.id < b.id := by
  have hle : (results order outputs).Pairwise fun a b => a.id ≤ b.id :=
    List.pairwise_insertionSort _ _
  have hne : (results order outputs).Pairwise fun a b => a.id ≠ b.id :=
    List.pairwise_map.mp (nodup_results order outputs)
  exact (hle.and hne).imp fun h => lt_of_le_of_ne h.1 h.2

end Results

variable {L : Limits} {m : Model} {a : Ledger} {e : Engine}

theorem runToCompletion_refines (hv : a.Valid L) (h : e.Refines L m a)
    (order : IterOrder (Σ _ : SeqId, List TokenId)) :
    e.runToCompletion order = some (results order (record ∅
      ((Ledger.drive L m (maxIterations + 1) a).2.flatMap Prod.snd))) := by
  obtain ⟨e', hc⟩ := completionLoop_refines hv h maxIterations ∅
  rw [runToCompletion, hc]
  rfl

end Engine

namespace Ledger

variable {L : Limits} {m : Model} {reqs : List Request} {n : ℕ}

def emittedBy (L : Limits) (m : Model) (n : ℕ) (reqs : List Request) : List Emission :=
  (drive L m n (loaded reqs)).2.flatMap Prod.snd

theorem exact_drive (hids : (reqs.map (·.id)).Nodup) (L : Limits) (m : Model) (n : ℕ) :
    Exact L m (driveOps L m n reqs) (drive L m n (loaded reqs)).1
      ((reqs.map fun _ => none) ++ (drive L m n (loaded reqs)).2.map some) := by
  have h := exact_exec L m (driveOps L m n reqs) (by rwa [submittedTo_driveOps])
  rwa [exec_driveOps] at h

theorem emissionsOf_drive (L : Limits) (m : Model) (n : ℕ) (reqs : List Request) :
    emissionsOf ((reqs.map fun _ => none) ++ (drive L m n (loaded reqs)).2.map some) =
      emittedBy L m n reqs := by
  rw [emissionsOf, reduceOption_driveAnswers, emittedBy]

theorem served_drive (hids : (reqs.map (·.id)).Nodup) {r : Request} (hr : r ∈ reqs) (L : Limits)
    (m : Model) (n : ℕ) :
    Served m (drive L m n (loaded reqs)).1
      ((reqs.map fun _ => none) ++ (drive L m n (loaded reqs)).2.map some) r.id r.prompt
      r.maxNewTokens :=
  (exact_drive hids L m n).served _ _ _ (List.mem_append_left _ (List.mem_map_of_mem hr))

theorem tokensOf_unknown (hids : (reqs.map (·.id)).Nodup) {id : SeqId}
    (h : id ∉ reqs.map (·.id)) : tokensOf id (emittedBy L m n reqs) = [] := by
  apply tokensOf_of_notMem
  intro hid
  obtain ⟨t, ht, rfl⟩ := List.mem_map.mp hid
  have he := (exact_drive hids L m n).emitted t (by rwa [emissionsOf_drive])
  rw [submittedTo_driveOps] at he
  exact h he

theorem tokensOf_drained (hids : (reqs.map (·.id)).Nodup) {r : Request} (hr : r ∈ reqs)
    (hl : (drive L m n (loaded reqs)).1.live = []) :
    tokensOf r.id (emittedBy L m n reqs) = m.greedy r.prompt r.maxNewTokens := by
  cases served_drive hids hr L m n with
  | live s hs => rw [hl] at hs; cases hs
  | retired hid hall => rwa [emissionsOf_drive] at hall

theorem greedy_ne_nil_iff (m : Model) (r : Request) :
    m.greedy r.prompt r.maxNewTokens ≠ [] ↔ 1 ≤ r.maxNewTokens := by
  constructor
  · intro h
    by_contra hlt
    obtain hz : r.maxNewTokens = 0 := by omega
    exact h (by rw [hz]; rfl)
  · exact Greedy.decode_ne_nil _

theorem results_drained (hids : (reqs.map (·.id)).Nodup)
    (hl : (drive L m n (loaded reqs)).1.live = [])
    (order : IterOrder (Σ _ : SeqId, List TokenId)) :
    (Engine.results order (Engine.record ∅ (emittedBy L m n reqs))).Perm
      ((reqs.filter fun r => 1 ≤ r.maxNewTokens).map (·.output m)) := by
  have hn : ((reqs.filter fun r => 1 ≤ r.maxNewTokens).map (·.output m)).Nodup := by
    apply List.Nodup.of_map (fun o : GenerationOutput => o.id)
    rw [List.map_map]
    exact hids.sublist (List.filter_sublist.map _)
  rw [List.perm_ext_iff_of_nodup (Engine.nodup_results order _).of_map hn]
  rintro ⟨id, tokens⟩
  rw [Engine.mem_results_record, List.mem_map]
  constructor
  · rintro ⟨hne, ht⟩
    have hid : id ∈ reqs.map (·.id) := by
      by_contra hid
      exact hne (ht.symm.trans (tokensOf_unknown hids hid))
    obtain ⟨r, hr, rfl⟩ := List.mem_map.mp hid
    rw [tokensOf_drained hids hr hl] at ht
    subst ht
    refine ⟨r, ?_, rfl⟩
    simpa [hr] using (greedy_ne_nil_iff m r).mp hne
  · rintro ⟨r, hr, ⟨⟩⟩
    have hr' := List.mem_filter.mp hr
    exact ⟨(greedy_ne_nil_iff m r).mpr (by simpa using hr'.2), tokensOf_drained hids hr'.1 hl⟩

end Ledger

/-- A workload whose requests fit gets one output for each request if and only if each
request asks for at least one token. -/
theorem accounts_for_requests_iff (m : Model) (maxBatchSize numBlocks blockSize : ℕ)
    (hb : 0 < blockSize) (hbatch : 1 ≤ maxBatchSize) (reqs : List Request)
    (hids : (reqs.map (·.id)).Nodup) (hfit : ∀ r ∈ reqs, r.Fits numBlocks blockSize)
    (hwork : totalWork reqs ≤ Engine.maxIterations)
    (order : IterOrder (Σ _ : SeqId, List TokenId)) :
    ∃ result,
      ((Engine.new m ⟨maxBatchSize⟩ (.new numBlocks blockSize hb)).submitAll
        reqs).runToCompletion order = some result ∧
      (AccountsFor m reqs result ↔ ∀ r ∈ reqs, 1 ≤ r.maxNewTokens) := by
  let L : Limits := ⟨maxBatchSize, numBlocks, blockSize, hb⟩
  have hv := Ledger.valid_loaded L hids
  have hl : (Ledger.drive L m (Engine.maxIterations + 1) (.loaded reqs)).1.live = [] :=
    Ledger.drive_loaded_drains hbatch m hids hfit (Nat.le_succ_of_le hwork)
  have hp := Ledger.results_drained hids hl order
  refine ⟨_, Engine.runToCompletion_refines hv (Engine.loaded_refines L m reqs) order, ?_⟩
  constructor
  · rintro ⟨hperm, -⟩
    have hlen := (hp.symm.trans hperm).length_eq
    rw [List.length_map, List.length_map, List.length_filter_eq_length_iff] at hlen
    intro r hr
    simpa using hlen r hr
  · intro hpos
    have hall : (reqs.filter fun r => 1 ≤ r.maxNewTokens) = reqs :=
      List.filter_eq_self.mpr fun r hr => by simpa using hpos r hr
    rw [hall] at hp
    exact ⟨hp, Engine.ascending_results order _⟩

theorem accounts_for_requests_of_positive_limits :
    let m : Model := ⟨2, 1, 0, fun _ => ⟨[0, 1]⟩⟩
    let reqs : List Request := [⟨2, [5, 6], 4⟩, ⟨1, [7, 8], 3⟩, ⟨3, [9], 1⟩]
    ∃ result,
      ((Engine.new m ⟨2⟩ (.new 3 2 (by decide))).submitAll reqs).runToCompletion
        ⟨List.reverse, List.reverse_perm⟩ = some result ∧
      (AccountsFor m reqs result ↔ ∀ r ∈ reqs, 1 ≤ r.maxNewTokens) :=
  accounts_for_requests_iff _ 2 3 2 (by decide) (by decide) _ (by decide) (by decide) (by decide) _

/-- A request with limit `0` has no output, so the first output is another request's. -/
theorem zero_limit_request_is_missing :
    let m : Model := ⟨2, 1, 0, fun _ => ⟨[0, 1]⟩⟩
    let reqs : List Request := [⟨1, [7], 0⟩, ⟨2, [8], 1⟩]
    (reqs.map (·.id)).Nodup ∧ (∀ r ∈ reqs, r.Fits 2 2) ∧
      totalWork reqs ≤ Engine.maxIterations ∧
      ((Engine.new m ⟨2⟩ (.new 2 2 (by decide))).submitAll reqs).runToCompletion
        ⟨id, fun _ => .refl _⟩ = some [⟨2, [1]⟩] ∧
      ¬AccountsFor m reqs [⟨2, [1]⟩] := by
  refine ⟨by decide, by decide, by decide, by decide +kernel, ?_⟩
  rintro ⟨hperm, -⟩
  exact absurd hperm.length_eq (by decide)

end ForgeInfer
