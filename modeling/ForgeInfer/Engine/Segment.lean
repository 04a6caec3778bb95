import ForgeInfer.Engine.Capacity
import ForgeInfer.Engine.Exactness
import ForgeInfer.Scheduler.Retirement

/-! # The most progressed sequences are not disturbed

A running sequence competes for blocks only with those at least as progressed: admission
places nothing above it, and eviction starts from below. When the running sequences from it
upwards fit with all that they can still come to hold, it gets a token in every step until it
is complete, whatever else is submitted.
-/

namespace ForgeInfer

open Scheduler (progressKey)

/-- Blocks that the running sequences from `x` upwards in progress can come to hold. -/
def Scheduler.reservedFrom (s : Scheduler) (x : Sequence) : ℕ :=
  ((s.running.filter fun y => progressKey x ≤ progressKey y).map fun y =>
    ((y.prompt.length + y.maxNewTokens) ⌈/⌉ s.cache.blockSize : ℕ)).sum

theorem Slot.progressKey_decode_le_iff (m : Model) (x y : Slot) :
    progressKey (x.decode m).seq ≤ progressKey (y.decode m).seq ↔
      progressKey x.seq ≤ progressKey y.seq := by
  have hlen : ∀ z : Slot, (z.decode m).seq.output.length = z.seq.output.length + 1 := fun z =>
    List.length_append
  simp only [progressKey, Prod.Lex.toLex_le_toLex, hlen, Slot.id_decode, Nat.add_lt_add_iff_right,
    Nat.add_right_cancel_iff]

theorem Slot.progressKey_lt_decode (m : Model) (x : Slot) :
    progressKey x.seq < progressKey (x.decode m).seq := by
  apply Slot.progressKey_lt_of_output
  rw [Slot.decode, Sequence.pushToken, List.length_append]
  exact Nat.lt_succ_self _

namespace Limits

def reserve (L : Limits) (run : List Slot) : ℕ :=
  (run.map fun y => L.blocks (y.seq.prompt.length + y.seq.maxNewTokens)).sum

theorem reserve_sublist_le {L : Limits} {run run' : List Slot} (h : run.Sublist run') :
    L.reserve run ≤ L.reserve run' :=
  (h.map _).sum_le_sum fun _ _ => Nat.zero_le _

theorem reserve_decode_le (L : Limits) (m : Model) {run : List Slot}
    (h : ∀ x ∈ run, x.seq.isComplete = false) :
    L.reserve (run.map (Slot.decode m)) ≤ L.reserve run := by
  rw [reserve, reserve, List.map_map]
  refine List.sum_le_sum fun x hx => L.blocks_mono (Nat.add_le_add_left ?_ _)
  exact (Slot.limit_decode m (h x hx)).2

end Limits

namespace Ledger

variable {L : Limits} {m : Model} {a : Ledger} {P F : List Sequence}

def upwards (x : Slot) (run : List Slot) : List Slot :=
  run.filter fun y => progressKey x.seq ≤ progressKey y.seq

def Started (a : Ledger) : Prop := ∀ x ∈ a.running, x.seq.output ≠ []

def WithinLimits (a : Ledger) : Prop :=
  ∀ x ∈ a.running, x.seq.output.length ≤ x.seq.maxNewTokens

theorem started_step (L : Limits) (m : Model) (a : Ledger) : (a.step L m).1.Started := by
  intro x hx
  obtain ⟨y, -, rfl⟩ := List.mem_map.mp hx
  exact List.append_ne_nil_of_right_ne_nil _ (List.cons_ne_nil _ _)

theorem started_exec (L : Limits) (m : Model) (ops : List EngineOp) :
    (Machine.exec (engineOp L m) .empty ops).1.Started := by
  have hok : Machine.PrefixClosed fun _ : List EngineOp => True := fun _ _ _ => trivial
  refine Machine.exec_invariant hok (P := fun _ (a : Ledger) _ => a.Started) ?_ ?_ ops trivial
  · rintro x ⟨⟩
  · rintro ops (⟨id, prompt, maxNewTokens⟩ | ⟨⟩) - ih
    · exact ih
    · exact started_step L m _

theorem WithinRequests.withinLimits {ops : List EngineOp} (h : a.WithinRequests ops) :
    a.WithinLimits := by
  intro x hx
  obtain ⟨n, -, ho, -⟩ := h x.seq (List.mem_append_right _ (List.mem_map_of_mem hx))
  exact ho

theorem Queued.decoded (h : a.Queued P F) (m : Model) : (a.decoded m).Queued P F := by
  refine ⟨h.waiting_eq, h.preempted, h.fresh, h.fresh_output, h.descending, ?_⟩
  intro x hx s hs
  obtain ⟨y, hy, rfl⟩ := List.mem_map.mp hx
  exact (h.below_running y hy s hs).trans (y.progressKey_lt_decode m)

theorem queued_exec (L : Limits) (m : Model) (ops : List EngineOp) (hn : (submittedTo ops).Nodup) :
    ∃ P F, (Machine.exec (engineOp L m) .empty ops).1.Queued P F := by
  refine Machine.exec_invariant submittedTo_prefixClosed
    (P := fun _ (a : Ledger) _ => ∃ P F, a.Queued P F) ?_ ?_ ops hn
  · refine ⟨[], [], ?_⟩
    constructor <;> simp [empty]
  · rintro ops (⟨id, prompt, maxNewTokens⟩ | ⟨⟩) hn ⟨P, F, ih⟩
    · exact ⟨P, _, ih.submit rfl rfl⟩
    · have hv := (serves_exec L m ops (submittedTo_prefixClosed ops _ hn)).valid
      obtain ⟨P₁, P₂, F₁, F₂, -, -, -, hq⟩ := ih.scheduled hv
      exact ⟨_, F₂, hq.decoded m⟩

theorem demand_le_reserve (hs : a.Synced) (hl : a.WithinLimits) {run : List Slot}
    (hrun : ∀ x ∈ run, x ∈ a.running) : L.demand run ≤ L.reserve run := by
  rw [Limits.demand, Limits.used, Limits.reserve, List.map_map]
  refine List.sum_le_sum fun x hx => L.blocks_mono ?_
  have hheld := hs x (hrun x hx)
  have hlim := hl x (hrun x hx)
  unfold Sequence.totalLen at hheld
  cases hc : x.seq.isComplete with
  | true => rw [Slot.grow_of_complete hc]; omega
  | false =>
    rw [Slot.held_grow_of_incomplete hc]
    rw [Sequence.isComplete, decide_eq_false_iff_not, not_le] at hc
    omega

/-- A running sequence whose reserve is there survives the iteration. -/
theorem mem_survivors_of_reserve (hv : a.Valid L) (hs : a.Synced) (hst : a.Started)
    (hl : a.WithinLimits) (hq : a.Queued P F) {x : Slot} (hx : x ∈ a.running)
    (hfit : L.reserve (upwards x a.running) ≤ L.numBlocks) : x ∈ a.survivors L := by
  rw [hv.mem_survivors_iff (List.mem_append_left _ hx), hq.placed_above L hx (hst x hx)]
  exact (demand_le_reserve hs hl fun y hy => List.mem_of_mem_filter hy).trans hfit

theorem upwards_step (hst : a.Started) (hq : a.Queued P F) (m : Model) {x : Slot}
    (hx : x ∈ a.running) :
    L.reserve (upwards (x.grow.decode m) (a.step L m).1.running) ≤
      L.reserve (upwards x a.running) := by
  have hmap : upwards (x.grow.decode m) (a.step L m).1.running =
      (upwards x.grow (a.scheduled L).running).map (Slot.decode m) := by
    change upwards _ ((a.scheduled L).running.map (Slot.decode m)) = _
    rw [upwards, upwards, List.filter_map]
    simp only [Function.comp_def, Slot.progressKey_decode_le_iff]
  have hgrow : upwards x.grow (a.scheduled L).running = (upwards x (a.batch L)).map Slot.grow := by
    change upwards _ ((a.batch L).map Slot.grow) = _
    rw [upwards, upwards, List.filter_map]
    simp only [Function.comp_def, Slot.seq_grow]
  have hsub : (upwards x (a.batch L)).Sublist (upwards x (a.placed L)) :=
    (List.filter_sublist.trans (a.survivors_sublist L)).filter _
  have hinc : ∀ y ∈ upwards x.grow (a.scheduled L).running, y.seq.isComplete = false := fun y hy =>
    incomplete_of_mem_scheduled (List.mem_of_mem_filter hy)
  have hsame : L.reserve ((upwards x (a.batch L)).map Slot.grow) =
      L.reserve (upwards x (a.batch L)) := by
    simp [Limits.reserve, Function.comp_def]
  calc L.reserve (upwards (x.grow.decode m) (a.step L m).1.running)
      ≤ L.reserve (upwards x.grow (a.scheduled L).running) := by
        rw [hmap]
        exact L.reserve_decode_le m hinc
    _ = L.reserve (upwards x (a.batch L)) := by rw [hgrow, hsame]
    _ ≤ L.reserve (upwards x (a.placed L)) := Limits.reserve_sublist_le hsub
    _ = L.reserve (upwards x a.running) := congrArg _ (hq.placed_above L hx (hst x hx))

/-- A sequence `t` steps after its reserve was there: it runs with a token for each step, or
it is retired with all of them. -/
inductive Undisturbed (L : Limits) (m : Model) (s : Sequence) (t : ℕ) (a : Ledger)
    (answers : List StepAnswer) : Prop where
  | running (x : Slot) (hx : x ∈ a.running) (hid : x.seq.id = s.id)
      (hfit : L.reserve (upwards x a.running) ≤ L.numBlocks)
      (hlen : (tokensOf s.id (emissionsOf answers)).length = t)
      (hsplit : s.owed m = tokensOf s.id (emissionsOf answers) ++ x.seq.owed m)
      (hnot : s.id ∉ finishedIds (plansOf answers))
  | retired (hlt : (s.owed m).length < t) (hall : tokensOf s.id (emissionsOf answers) = s.owed m)
      (hfin : s.id ∈ finishedIds (plansOf answers))

variable {s : Sequence} {t : ℕ} {answers : List StepAnswer}

theorem Undisturbed.submit (h : Undisturbed L m s t a answers) (s' : Sequence) :
    Undisturbed L m s t (a.submit s') (answers ++ [none]) := by
  cases h with
  | running x hx hid hfit hlen hsplit hnot =>
    refine .running x hx hid hfit ?_ ?_ ?_
    · rwa [emissionsOf_concat_none]
    · rwa [emissionsOf_concat_none]
    · rwa [plansOf_concat_none]
  | retired hlt hall hfin =>
    refine .retired hlt ?_ ?_
    · rwa [emissionsOf_concat_none]
    · rwa [plansOf_concat_none]

theorem Undisturbed.step (h : Undisturbed L m s t a answers) (hv : a.Valid L) (hs : a.Synced)
    (hst : a.Started) (hl : a.WithinLimits) (hq : a.Queued P F)
    (hgone : s.id ∈ finishedIds (plansOf answers) → s.id ∉ a.live.map (·.id)) :
    Undisturbed L m s (t + 1) (a.step L m).1 (answers ++ [some (a.step L m).2]) := by
  cases h with
  | running x hx hid hfit hlen hsplit hnot =>
    have hsurv := mem_survivors_of_reserve hv hs hst hl hq hx hfit
    rw [(a.survivors_perm L).mem_iff] at hsurv
    rcases List.mem_append.mp hsurv with hb | hr
    · have hg : x.grow ∈ (a.scheduled L).running := List.mem_map_of_mem hb
      have hgid : x.grow.seq.id = s.id := by rw [Slot.seq_grow, hid]
      have hemit := tokensOf_step_of_mem hv hg m answers
      rw [hgid] at hemit
      refine .running (x.grow.decode m) (List.mem_map_of_mem hg) hgid
        ((upwards_step hst hq m hx).trans hfit) ?_ ?_ ?_
      · rw [hemit, List.length_append, hlen]
        rfl
      · have howed := Slot.owed_decode m (incomplete_of_mem_scheduled hg)
        rw [Slot.seq_grow] at howed
        rw [hemit, hsplit, howed, List.append_assoc]
      · rw [mem_finishedIds_step, not_or]
        refine ⟨hnot, fun hf => hv.notMem_running_of_finished hf ?_⟩
        exact hgid ▸ List.mem_map_of_mem hg
    · have hf : s.id ∈ (a.plan L).finished := hid ▸ List.mem_map_of_mem hr
      have hnil := Sequence.owed_of_complete (complete_of_mem_retired hr) m
      rw [hnil, List.append_nil] at hsplit
      refine .retired ?_ ?_ (mem_finishedIds_step.mpr (Or.inr hf))
      · rw [hsplit, hlen]
        exact Nat.lt_succ_self t
      · rw [tokensOf_step_of_notMem (hv.notMem_running_of_finished hf), hsplit]
  | retired hlt hall hfin =>
    refine .retired (hlt.trans (Nat.lt_succ_self t)) ?_ (mem_finishedIds_step.mpr (Or.inl hfin))
    rw [tokensOf_step_of_notMem fun hrun => hgone hfin (a.decoded_subset_live L _ hrun), hall]

theorem Undisturbed.notMem_preempted (h : Undisturbed L m s t a answers) (hv : a.Valid L)
    (hs : a.Synced) (hst : a.Started) (hl : a.WithinLimits) (hq : a.Queued P F)
    (hgone : s.id ∈ finishedIds (plansOf answers) → s.id ∉ a.live.map (·.id)) :
    s.id ∉ (a.plan L).preempted := by
  intro hp
  obtain ⟨y, hy, hid'⟩ := List.mem_map.mp hp
  cases h with
  | running x hx hid hfit hlen hsplit hnot =>
    have hsurv := mem_survivors_of_reserve hv hs hst hl hq hx hfit
    have hlt := hv.victims_lt_survivors hy hsurv
    have heq := List.inj_on_of_nodup_map hv.placed_nodup (mem_placed_of_mem_victims hy)
      (List.mem_append_left _ hx) (hid'.trans hid.symm)
    exact absurd hlt (heq ▸ lt_irrefl _)
  | retired hlt hall hfin =>
    obtain ⟨z, hz, hb⟩ := bare_of_mem_placed (mem_placed_of_mem_victims hy)
    have hzid := (Sequence.fields_of_bare hb).1
    exact hgone hfin (List.mem_map.mpr ⟨z, hz, hzid.trans hid'⟩)

theorem undisturbed_exec (L : Limits) (m : Model) (past more : List EngineOp)
    (hn : (submittedTo (past ++ more)).Nodup) {x : Slot}
    (hx : x ∈ (Machine.exec (engineOp L m) .empty past).1.running)
    (hfit : L.reserve (upwards x (Machine.exec (engineOp L m) .empty past).1.running) ≤
      L.numBlocks) :
    let r := Machine.exec (engineOp L m) (Machine.exec (engineOp L m) .empty past).1 more
    Undisturbed L m x.seq (more.count .step) r.1 r.2 ∧
      ∀ plan ∈ plansOf r.2, x.seq.id ∉ plan.preempted := by
  have hok : Machine.PrefixClosed fun more : List EngineOp => (submittedTo (past ++ more)).Nodup := by
    intro more o h
    rw [← List.append_assoc] at h
    exact submittedTo_prefixClosed _ o h
  have hpast : (submittedTo past).Nodup :=
    hn.sublist ((List.sublist_append_left past more).filterMap _)
  have hlive : x.seq.id ∈ (Machine.exec (engineOp L m) .empty past).1.live.map (·.id) :=
    List.mem_map_of_mem (List.mem_append_right _ (List.mem_map_of_mem hx))
  refine Machine.exec_invariant hok (P := fun more a answers =>
    Undisturbed L m x.seq (more.count .step) a answers ∧
      ∀ plan ∈ plansOf answers, x.seq.id ∉ plan.preempted) ?_ ?_ more hn
  · refine ⟨.running x hx rfl hfit rfl rfl ?_, ?_⟩
    · rintro ⟨⟩
    · rintro plan ⟨⟩
  · intro more o hop ih
    have hn' := hok more o hop
    have hserves := serves_exec L m _ hn'
    obtain ⟨P, F, hq⟩ := queued_exec L m _ hn'
    have hs := synced_exec L m (past ++ more)
    have hst := started_exec L m (past ++ more)
    have hl := (withinRequests_exec L m (past ++ more)).withinLimits
    have hgone : x.seq.id ∈ finishedIds _ → _ := hserves.notMem_live_of_finished hn'
    have hv := hserves.valid
    rw [Machine.exec_append] at hv hq hs hst hl hgone
    have hgone' : x.seq.id ∈ finishedIds (plansOf _) → _ := fun hf => hgone (by
      rw [plansOf, List.reduceOption_append, List.map_append, finishedIds_append]
      exact List.mem_append_right _ hf)
    obtain ⟨hu, hspared⟩ := ih
    cases o with
    | submit id prompt maxNewTokens =>
      rw [List.count_append]
      refine ⟨hu.submit _, ?_⟩
      rw [engineOp, plansOf_concat_none]
      exact hspared
    | step =>
      rw [List.count_append, List.count_singleton_self]
      refine ⟨hu.step hv hs hst hl hq hgone', ?_⟩
      rw [engineOp, plansOf_step]
      intro plan hp
      rcases List.mem_append.mp hp with hp | hp
      · exact hspared plan hp
      · rw [List.mem_singleton.mp hp]
        exact hu.notMem_preempted hv hs hst hl hq hgone'

end Ledger

theorem Scheduler.Refines.reservedFrom_eq {s : Scheduler} {L : Limits} {a : Ledger}
    (h : s.Refines L a) (x : Slot) :
    s.reservedFrom x.seq = L.reserve (Ledger.upwards x a.running) := by
  rw [reservedFrom, Limits.reserve, Ledger.upwards, h.running_eq, List.filter_map, List.map_map,
    h.cache.blockSize_eq]
  rfl

/-- When the running sequences from `s` upwards fit with all they can come to hold, every later
run gives `s` a token in each step until it is complete and retires it in the next one; no plan
preempts it. -/
theorem reserved_segment_is_served (m : Model) (maxBatchSize numBlocks blockSize : ℕ)
    (hb : 0 < blockSize) (past more : List EngineOp) (hids : (submittedTo (past ++ more)).Nodup)
    (e₀ : Engine) (answers₀ : List StepAnswer)
    (hpast : Machine.run Engine.op (.new m ⟨maxBatchSize⟩ (.new numBlocks blockSize hb)) past =
      some (e₀, answers₀))
    (s : Sequence) (hs : s ∈ e₀.scheduler.running)
    (hfit : e₀.scheduler.reservedFrom s ≤ numBlocks) :
    ∃ e answers,
      Machine.run Engine.op (.new m ⟨maxBatchSize⟩ (.new numBlocks blockSize hb)) (past ++ more) =
        some (e, answers₀ ++ answers) ∧
      (∀ plan ∈ plansOf answers, s.id ∉ plan.preempted) ∧
      tokensOf s.id (emissionsOf answers) = (s.owed m).take (more.count .step) ∧
      (s.id ∈ finishedIds (plansOf answers) ↔ (s.owed m).length < more.count .step) := by
  let L : Limits := ⟨maxBatchSize, numBlocks, blockSize, hb⟩
  have hn : (submittedTo past).Nodup :=
    hids.sublist ((List.sublist_append_left past more).filterMap _)
  obtain ⟨e₁, hr₁, he₁⟩ := Engine.run_refines L m past hn
  obtain ⟨rfl, rfl⟩ : e₁ = e₀ ∧ _ = answers₀ := by simpa using hr₁.symm.trans hpast
  obtain ⟨e, hr, -⟩ := Engine.run_refines L m (past ++ more) hids
  rw [he₁.scheduler.running_eq] at hs
  obtain ⟨x, hx, rfl⟩ := List.mem_map.mp hs
  rw [he₁.scheduler.reservedFrom_eq] at hfit
  obtain ⟨hu, hspared⟩ := Ledger.undisturbed_exec L m past more hids hx hfit
  rw [Machine.exec_append] at hr
  refine ⟨e, _, hr, hspared, ?_⟩
  cases hu with
  | running y hy hid hfit hlen hsplit hnot =>
    constructor
    · rw [hsplit, ← hlen, List.take_left]
    · refine iff_of_false hnot (not_lt.mpr ?_)
      rw [hsplit, List.length_append, hlen]
      exact Nat.le_add_right _ _
  | retired hlt hall hfin =>
    exact ⟨by rw [hall, List.take_of_length_le hlt.le], iff_of_true hfin hlt⟩

/-- The first request fits with all its tokens, so it is served while the second one is not. -/
theorem reserved_segment_is_served_under_pressure :
    let m : Model := ⟨2, 1, 0, fun _ => ⟨[0, 1]⟩⟩
    let past : List EngineOp := [.submit 1 [5, 6] 3, .submit 2 [7, 8] 3, .step]
    let more : List EngineOp := [.step, .submit 9 [4] 2, .step, .step, .step]
    ∃ e₀ answers₀ e answers, ∃ s ∈ e₀.scheduler.running, s.id = 1 ∧
      Machine.run Engine.op (.new m ⟨2⟩ (.new 3 2 (by decide))) past = some (e₀, answers₀) ∧
      Machine.run Engine.op (.new m ⟨2⟩ (.new 3 2 (by decide))) (past ++ more) =
        some (e, answers₀ ++ answers) ∧
      (∀ plan ∈ plansOf answers, s.id ∉ plan.preempted) ∧
      tokensOf s.id (emissionsOf answers) = (s.owed m).take (more.count .step) ∧
      (s.id ∈ finishedIds (plansOf answers) ↔ (s.owed m).length < more.count .step) := by
  intro m past more
  have hrun : ∃ r, Machine.run Engine.op (.new m ⟨2⟩ (.new 3 2 (by decide))) past = some r :=
    Option.isSome_iff_exists.mp (by decide +kernel)
  have hstate : ∀ r ∈ Machine.run Engine.op (.new m ⟨2⟩ (.new 3 2 (by decide))) past,
      ∃ s ∈ r.1.scheduler.running, s.id = 1 ∧ r.1.scheduler.reservedFrom s ≤ 3 := by
    decide +kernel
  obtain ⟨⟨e₀, answers₀⟩, hpast⟩ := hrun
  obtain ⟨s, hs, hid, hfit⟩ := hstate _ hpast
  obtain ⟨e, answers, h⟩ := reserved_segment_is_served m 2 3 2 (by decide) past more (by decide)
    e₀ answers₀ hpast s hs hfit
  exact ⟨e₀, answers₀, e, answers, s, hs, hid, hpast, h⟩

end ForgeInfer
