import ForgeInfer.Engine.Capacity
import ForgeInfer.Engine.Exactness
import ForgeInfer.Engine.Termination
import ForgeInfer.Scheduler.Isolation

/-! # Requests in order of arrival

The scheduler takes the largest id for the newest request. When requests really are
submitted with ascending ids, no request is affected by a later one: a run does to the
requests up to an id what it does when the later ones are never submitted. So a request is
served within the work that was there before it, whatever comes after.
-/

namespace ForgeInfer

def EngineOp.keeps (p : SeqId → Bool) : EngineOp → Bool
  | .submit id _ _ => p id
  | .step => true

theorem filter_keeps_of_pos {p : SeqId → Bool} {o : EngineOp} (ho : o.keeps p)
    (ops : List EngineOp) :
    (ops ++ [o]).filter (EngineOp.keeps p) = ops.filter (EngineOp.keeps p) ++ [o] := by
  rw [List.filter_append, List.filter_cons_of_pos ho]
  rfl

theorem filter_keeps_of_neg {p : SeqId → Bool} {o : EngineOp} (ho : ¬o.keeps p)
    (ops : List EngineOp) :
    (ops ++ [o]).filter (EngineOp.keeps p) = ops.filter (EngineOp.keeps p) := by
  rw [List.filter_append, List.filter_cons_of_neg ho]
  exact List.append_nil _

def restrictStep (p : SeqId → Bool) (r : StepPlan × List Emission) : StepPlan × List Emission :=
  (r.1.restrict p, r.2.filter fun t => p t.1)

theorem ascending_prefixClosed :
    Machine.PrefixClosed fun ops : List EngineOp => (submittedTo ops).Pairwise (· < ·) := by
  intro ops o h
  rw [submittedTo_concat] at h
  exact (List.pairwise_append.mp h).1

theorem nodup_of_ascending {ids : List SeqId} (h : ids.Pairwise (· < ·)) : ids.Nodup :=
  h.imp ne_of_lt

namespace Ledger

variable {L : Limits} {m : Model} {a b : Ledger} {p : SeqId → Bool}

theorem InLine.submit (h : a.InLine) {s : Sequence} (ho : s.output = [])
    (hid : ∀ t ∈ a.live, t.id < s.id) : (a.submit s).InLine := by
  have hline : (a.submit s).line = a.line ++ [s] := (List.append_assoc _ _ _).symm
  rw [InLine, hline, List.pairwise_append]
  refine ⟨h, List.pairwise_singleton _ _, ?_⟩
  intro t ht _ hs
  obtain rfl := List.mem_singleton.mp hs
  refine ⟨hid t ?_, by rw [ho]; exact Nat.zero_le _⟩
  exact List.mem_append.mpr (List.mem_append.mp ht).symm

theorem InLine.decoded (h : a.InLine) (m : Model) : (a.decoded m).InLine := by
  obtain ⟨hrun, hwait, hcross⟩ := List.pairwise_append.mp h
  have hlen : ∀ x : Slot, (x.decode m).seq.output.length = x.seq.output.length + 1 := fun x =>
    List.length_append
  rw [InLine, line, Ledger.decoded, List.map_map, List.pairwise_append]
  refine ⟨?_, hwait, ?_⟩
  · rw [List.pairwise_map] at hrun ⊢
    refine hrun.imp ?_
    intro x y hxy
    refine ⟨hxy.1, ?_⟩
    rw [Function.comp_apply, Function.comp_apply, hlen, hlen]
    exact Nat.succ_le_succ hxy.2
  · intro s hs t ht
    obtain ⟨x, hx, rfl⟩ := List.mem_map.mp hs
    have hxt := hcross x.seq (List.mem_map_of_mem hx) t ht
    refine ⟨hxt.1, ?_⟩
    rw [Function.comp_apply, hlen]
    exact Nat.le_succ_of_le hxt.2

theorem InLine.step (h : a.InLine) (hv : a.Valid L) (m : Model) : (a.step L m).1.InLine :=
  (h.scheduled hv).decoded m

namespace Restricts

theorem live_eq (h : Restricts p a b) : b.live = a.live.filter fun s => p s.id := by
  rw [live, live, h.waiting_eq, h.running_eq, List.filter_append, List.filter_map]
  rfl

theorem submit_of_pos (h : Restricts p a b) {s : Sequence} (hs : p s.id) :
    Restricts p (a.submit s) (b.submit s) where
  waiting_eq := by
    rw [Ledger.submit, Ledger.submit, List.filter_append, h.waiting_eq]
    simp [hs]
  running_eq := h.running_eq

theorem submit_of_neg (h : Restricts p a b) {s : Sequence} (hs : ¬p s.id) :
    Restricts p (a.submit s) b where
  waiting_eq := by
    rw [Ledger.submit, List.filter_append, h.waiting_eq]
    simp [hs]
  running_eq := h.running_eq

theorem decoded (h : Restricts p a b) (m : Model) : Restricts p (a.decoded m) (b.decoded m) where
  waiting_eq := h.waiting_eq
  running_eq := by
    rw [Ledger.decoded, Ledger.decoded, h.running_eq, List.filter_map]
    rfl

/-- An engine step does the same to the sequences of a front, and emits the same for them. -/
theorem step (h : Restricts p a b) (ha : a.InLine) (hp : ∀ i j, i < j → p j → p i) (m : Model) :
    Restricts p (a.step L m).1 (b.step L m).1 ∧
      (b.step L m).2 = restrictStep p (a.step L m).2 := by
  have hs := h.scheduled (L := L) ha hp
  refine ⟨hs.decoded m, ?_⟩
  rw [Ledger.step, Ledger.step, restrictStep, h.plan_eq ha hp, hs.running_eq, List.filter_map]
  rfl

end Restricts

/-- The run without the ids that lack the property, next to the whole run. -/
structure InTurn (L : Limits) (m : Model) (p : SeqId → Bool) (ops : List EngineOp) (a : Ledger)
    (answers : List StepAnswer) : Prop where
  inLine : a.InLine
  restricts : Restricts p a (Machine.exec (engineOp L m) .empty (ops.filter (EngineOp.keeps p))).1
  answers_eq : (Machine.exec (engineOp L m) .empty (ops.filter (EngineOp.keeps p))).2.reduceOption =
    answers.reduceOption.map (restrictStep p)

theorem InTurn.submit {ops : List EngineOp} {answers : List StepAnswer}
    (h : InTurn L m p ops a answers) (id : SeqId) (prompt : List TokenId) (maxNewTokens : ℕ)
    (hid : ∀ t ∈ a.live, t.id < id) :
    InTurn L m p (ops ++ [.submit id prompt maxNewTokens])
      (a.submit (.new id prompt maxNewTokens)) (answers ++ [none]) := by
  have hline := h.inLine.submit (s := .new id prompt maxNewTokens) rfl hid
  have hanswers : (answers ++ [none]).reduceOption = answers.reduceOption := by
    rw [← List.concat_eq_append, List.reduceOption_concat]
    exact List.append_nil _
  by_cases hk : (EngineOp.submit id prompt maxNewTokens).keeps p
  · refine ⟨hline, ?_, ?_⟩
    · rw [filter_keeps_of_pos hk, Machine.exec_concat]
      exact h.restricts.submit_of_pos hk
    · rw [filter_keeps_of_pos hk, Machine.exec_concat, hanswers, ← h.answers_eq,
        ← List.concat_eq_append, List.reduceOption_concat]
      exact List.append_nil _
  · refine ⟨hline, ?_, ?_⟩
    · rw [filter_keeps_of_neg hk]
      exact h.restricts.submit_of_neg hk
    · rw [filter_keeps_of_neg hk, hanswers]
      exact h.answers_eq

theorem InTurn.step {ops : List EngineOp} {answers : List StepAnswer}
    (h : InTurn L m p ops a answers) (hv : a.Valid L) (hp : ∀ i j, i < j → p j → p i) :
    InTurn L m p (ops ++ [.step]) (a.step L m).1 (answers ++ [some (a.step L m).2]) := by
  have hfilter := filter_keeps_of_pos (p := p) (o := .step) rfl ops
  obtain ⟨hr, hemit⟩ := h.restricts.step (L := L) h.inLine hp m
  refine ⟨h.inLine.step hv m, ?_, ?_⟩
  · rw [hfilter, Machine.exec_concat]
    exact hr
  · rw [hfilter, Machine.exec_concat, ← List.concat_eq_append, List.reduceOption_concat,
      ← List.concat_eq_append, List.reduceOption_concat, List.map_append, ← h.answers_eq]
    exact congrArg (fun r => _ ++ [r]) hemit

theorem inTurn_exec (L : Limits) (m : Model) (hp : ∀ i j, i < j → p j → p i)
    (ops : List EngineOp) (hids : (submittedTo ops).Pairwise (· < ·)) :
    InTurn L m p ops (Machine.exec (engineOp L m) .empty ops).1
      (Machine.exec (engineOp L m) .empty ops).2 := by
  refine Machine.exec_invariant ascending_prefixClosed (P := InTurn L m p) ?_ ?_ ops hids
  · exact ⟨inLine_empty, ⟨rfl, rfl⟩, rfl⟩
  · intro ops o hn ih
    have hserves := serves_exec L m ops (nodup_of_ascending (ascending_prefixClosed ops o hn))
    cases o with
    | submit id prompt maxNewTokens =>
      refine ih.submit id prompt maxNewTokens fun t ht => ?_
      rw [submittedTo_concat, List.pairwise_append] at hn
      refine hn.2.2 t.id ?_ id List.mem_cons_self
      exact hserves.places.mem_iff.mp (List.mem_append_left _ (List.mem_map_of_mem ht))
    | step => exact ih.step hserves.valid hp

theorem live_step_of_nil (h : a.live = []) (L : Limits) (m : Model) : (a.step L m).1.live = [] := by
  have hp := ids_step L m a
  rw [h, List.map_nil, List.nil_perm] at hp
  exact List.map_eq_nil_iff.mp (List.append_eq_nil_iff.mp hp).1

/-- As many steps as there are left to take serve whatever fits. -/
theorem live_steps (hb : 1 ≤ L.maxBatchSize) (m : Model) {n : ℕ} (hv : a.Valid L) (hs : a.Synced)
    (hfit : ∀ s ∈ a.live, s.Fits L) (hn : a.remaining L ≤ n) :
    (Machine.exec (engineOp L m) a (List.replicate n .step)).1.live = [] := by
  induction n generalizing a with
  | zero => exact live_of_no_remaining (Nat.le_zero.mp hn)
  | succ n ih =>
    refine ih (hv.step m) (hs.step L m) (fits_step hfit m) ?_
    change (a.step L m).1.remaining L ≤ n
    have hle := remaining_step_le hv hs m
    by_cases hl : a.live = []
    · rw [remaining, live_step_of_nil hl L m]
      exact Nat.zero_le n
    · have hpos : 0 < (a.survivors L).length := List.length_pos_iff.mpr
        (survivors_ne_nil hv hs hb hl fun s hmem => (hfit s hmem).hasRoom)
      omega

end Ledger

/-- Tokens and retirements that the submitted requests can take. -/
def workOf (ops : List EngineOp) : ℕ :=
  (ops.map fun
    | .submit _ _ maxNewTokens => maxNewTokens + 1
    | .step => 0).sum

theorem workOf_concat (ops : List EngineOp) (o : EngineOp) :
    workOf (ops ++ [o]) = workOf ops + workOf [o] := by
  rw [workOf, List.map_append, List.sum_append]
  rfl

def EngineOp.Fits (numBlocks blockSize : ℕ) (o : EngineOp) : Prop :=
  ∀ n ∈ o.need blockSize, n ≤ numBlocks

instance (numBlocks blockSize : ℕ) (o : EngineOp) : Decidable (o.Fits numBlocks blockSize) :=
  inferInstanceAs (Decidable (∀ n ∈ o.need blockSize, n ≤ numBlocks))

namespace Ledger

variable {L : Limits} {m : Model} {a : Ledger} {ops : List EngineOp}

theorem fits_of_withinRequests (h : a.WithinRequests ops)
    (hfit : ∀ o ∈ ops, o.Fits L.numBlocks L.blockSize) : ∀ s ∈ a.live, s.Fits L := by
  intro s hs
  obtain ⟨n, hmem, ho, hn⟩ := h s hs
  refine ⟨ho, (L.blocks_mono (Nat.add_le_add_left hn _)).trans ?_⟩
  exact hfit _ hmem _ rfl

theorem remaining_new_le (L : Limits) (id : SeqId) (prompt : List TokenId) (maxNewTokens : ℕ) :
    (Sequence.new id prompt maxNewTokens).remaining L ≤ maxNewTokens + 1 := by
  simp only [Sequence.new, Sequence.remaining, List.length_nil]
  omega

theorem remaining_exec_le (L : Limits) (m : Model) (ops : List EngineOp)
    (hn : (submittedTo ops).Nodup) :
    (Machine.exec (engineOp L m) .empty ops).1.remaining L ≤ workOf ops := by
  refine Machine.exec_invariant submittedTo_prefixClosed
    (P := fun ops (a : Ledger) _ => a.remaining L ≤ workOf ops) le_rfl ?_ ops hn
  intro ops o hn ih
  have hpast := submittedTo_prefixClosed ops o hn
  rw [workOf_concat]
  cases o with
  | submit id prompt maxNewTokens =>
    have hlive := (((Machine.exec (engineOp L m) .empty ops).1.live_submit
      (.new id prompt maxNewTokens)).map (·.remaining L)).sum_eq
    rw [List.map_cons, List.sum_cons] at hlive
    have hnew := remaining_new_le L id prompt maxNewTokens
    change Ledger.remaining L (Ledger.submit _ _) ≤ _ + (maxNewTokens + 1 + 0)
    rw [remaining, hlive]
    unfold remaining at ih
    omega
  | step =>
    have hle := remaining_step_le (serves_exec L m ops hpast).valid (synced_exec L m ops) m
    exact (Nat.le_of_add_right_le hle).trans (ih.trans (Nat.le_add_right _ _))

end Ledger

theorem filter_later {id : SeqId} {prompt : List TokenId} {maxNewTokens : ℕ}
    {past more : List EngineOp}
    (hids : (submittedTo (past ++ .submit id prompt maxNewTokens :: more)).Pairwise (· < ·)) :
    (past ++ .submit id prompt maxNewTokens :: more).filter (EngineOp.keeps (· ≤ id)) =
      past ++ [.submit id prompt maxNewTokens] ++ List.replicate (more.count .step) .step := by
  have hsplit : submittedTo (past ++ .submit id prompt maxNewTokens :: more) =
      submittedTo past ++ id :: submittedTo more := List.filterMap_append
  rw [hsplit, List.pairwise_append, List.pairwise_cons] at hids
  obtain ⟨-, ⟨hmore, -⟩, hpast⟩ := hids
  have hkeep : past.filter (EngineOp.keeps (· ≤ id)) = past := by
    refine List.filter_eq_self.mpr fun o ho => ?_
    cases o with
    | submit i q n =>
      have hi : i ∈ submittedTo past := List.mem_filterMap.mpr ⟨_, ho, rfl⟩
      exact decide_eq_true (hpast i hi id List.mem_cons_self).le
    | step => rfl
  have hdrop : more.filter (EngineOp.keeps (· ≤ id)) = List.replicate (more.count .step) .step := by
    rw [← List.filter_beq]
    refine List.filter_congr fun o ho => ?_
    cases o with
    | submit i q n =>
      have hi : id < i := hmore i (List.mem_filterMap.mpr ⟨_, ho, rfl⟩)
      exact decide_eq_false (not_le.mpr hi)
    | step => rfl
  have hself : EngineOp.keeps (· ≤ id) (.submit id prompt maxNewTokens) = true :=
    decide_eq_true le_rfl
  rw [List.filter_append, List.filter_cons_of_pos hself, hkeep, hdrop, List.append_assoc]
  rfl

/-- The plans and the tokens of a run, as far as they are about ids up to `k`, are those of
the run without the later requests. -/
theorem later_requests_do_not_interfere (m : Model) (maxBatchSize numBlocks blockSize : ℕ)
    (hb : 0 < blockSize) (ops : List EngineOp) (hids : (submittedTo ops).Pairwise (· < ·))
    (k : SeqId) :
    ∃ e answers e' answers',
      Machine.run Engine.op (.new m ⟨maxBatchSize⟩ (.new numBlocks blockSize hb)) ops =
        some (e, answers) ∧
      Machine.run Engine.op (.new m ⟨maxBatchSize⟩ (.new numBlocks blockSize hb))
        (ops.filter (EngineOp.keeps (· ≤ k))) = some (e', answers') ∧
      answers'.reduceOption = answers.reduceOption.map (restrictStep (· ≤ k)) ∧
      e'.scheduler.waiting = e.scheduler.waiting.filter (·.id ≤ k) ∧
      e'.scheduler.running = e.scheduler.running.filter (·.id ≤ k) := by
  let L : Limits := ⟨maxBatchSize, numBlocks, blockSize, hb⟩
  have hids' : (submittedTo (ops.filter (EngineOp.keeps (· ≤ k)))).Pairwise (· < ·) :=
    hids.sublist (List.filter_sublist.filterMap _)
  have hp : ∀ i j : SeqId, i < j → decide (j ≤ k) = true → decide (i ≤ k) = true := by
    intro i j hij hj
    exact decide_eq_true (hij.le.trans (of_decide_eq_true hj))
  obtain ⟨e, hr, he⟩ := Engine.run_refines L m ops (nodup_of_ascending hids)
  obtain ⟨e', hr', he'⟩ := Engine.run_refines L m _ (nodup_of_ascending hids')
  have h := Ledger.inTurn_exec L m hp ops hids
  refine ⟨e, _, e', _, hr, hr', h.answers_eq, ?_, ?_⟩
  · rw [he'.scheduler.waiting_eq, he.scheduler.waiting_eq]
    exact h.restricts.waiting_eq
  · rw [he'.scheduler.running_eq, he.scheduler.running_eq, h.restricts.running_eq, List.filter_map]
    rfl

/-- The third request comes while the second one is preempted by the first. -/
theorem later_requests_do_not_interfere_under_pressure :
    let m : Model := ⟨2, 1, 0, fun _ => ⟨[0, 1]⟩⟩
    let ops : List EngineOp :=
      [.submit 1 [5, 6] 3, .submit 2 [7, 8] 3, .step, .step, .submit 3 [9] 2, .step, .step]
    ∃ e answers e' answers',
      Machine.run Engine.op (.new m ⟨2⟩ (.new 3 2 (by decide))) ops = some (e, answers) ∧
      Machine.run Engine.op (.new m ⟨2⟩ (.new 3 2 (by decide)))
        (ops.filter (EngineOp.keeps (· ≤ 2))) = some (e', answers') ∧
      answers'.reduceOption = answers.reduceOption.map (restrictStep (· ≤ 2)) ∧
      e'.scheduler.waiting = e.scheduler.waiting.filter (·.id ≤ 2) ∧
      e'.scheduler.running = e.scheduler.running.filter (·.id ≤ 2) :=
  later_requests_do_not_interfere _ 2 3 2 (by decide) _ (by decide) 2

/-- A request is served within as many steps as it and the earlier ones can take, however
many requests follow it. -/
theorem served_within_earlier_work (m : Model) (maxBatchSize numBlocks blockSize : ℕ)
    (hb : 0 < blockSize) (hbatch : 1 ≤ maxBatchSize) (past more : List EngineOp) (id : SeqId)
    (prompt : List TokenId) (maxNewTokens : ℕ)
    (hids : (submittedTo (past ++ .submit id prompt maxNewTokens :: more)).Pairwise (· < ·))
    (hfit : ∀ o ∈ past ++ [.submit id prompt maxNewTokens], o.Fits numBlocks blockSize)
    (hwork : workOf (past ++ [.submit id prompt maxNewTokens]) ≤ more.count .step) :
    ∃ e answers,
      Machine.run Engine.op (.new m ⟨maxBatchSize⟩ (.new numBlocks blockSize hb))
        (past ++ .submit id prompt maxNewTokens :: more) = some (e, answers) ∧
      id ∈ finishedIds (plansOf answers) ∧
      tokensOf id (emissionsOf answers) = m.greedy prompt maxNewTokens := by
  let L : Limits := ⟨maxBatchSize, numBlocks, blockSize, hb⟩
  set ops := past ++ .submit id prompt maxNewTokens :: more with hops
  set first := past ++ [EngineOp.submit id prompt maxNewTokens] with hfirst
  have hstart : first <+: ops := ⟨more, by rw [hfirst, List.append_assoc]; rfl⟩
  have hn := nodup_of_ascending hids
  have hnfirst : (submittedTo first).Nodup := hn.sublist (hstart.sublist.filterMap _)
  have hp : ∀ i j : SeqId, i < j → decide (j ≤ id) = true → decide (i ≤ id) = true := by
    intro i j hij hj
    exact decide_eq_true (hij.le.trans (of_decide_eq_true hj))
  obtain ⟨e, hr, he⟩ := Engine.run_refines L m ops hn
  -- Without the later requests the steps of `more` drain the ledger.
  have hnil := Ledger.live_steps (L := L) hbatch m (Ledger.serves_exec L m first hnfirst).valid
    (Ledger.synced_exec L m first)
    (Ledger.fits_of_withinRequests (Ledger.withinRequests_exec L m first) hfit)
    ((Ledger.remaining_exec_le L m first hnfirst).trans hwork)
  have hturn := Ledger.inTurn_exec L m hp ops hids
  have hrest := hturn.restricts
  have hlater := filter_later hids
  rw [← hops, ← hfirst] at hlater
  rw [hlater, Machine.exec_append _ first] at hrest
  have hx := Ledger.exact_exec L m ops hn
  have hmem : EngineOp.submit id prompt maxNewTokens ∈ ops := by simp [hops]
  refine ⟨e, _, hr, ?_⟩
  cases hx.served id prompt maxNewTokens hmem with
  | live s hs hid hout hsplit =>
    have hlive := hrest.live_eq
    rw [hnil] at hlive
    have hnone := List.filter_eq_nil_iff.mp hlive.symm s hs
    exact absurd (decide_eq_true hid.le) hnone
  | retired hid hall => exact ⟨hid, hall⟩

/-- Later requests arrive at every step, and the first one still is served in time. -/
theorem served_within_earlier_work_under_load :
    let m : Model := ⟨2, 1, 0, fun _ => ⟨[0, 1]⟩⟩
    let past : List EngineOp := [.submit 1 [5, 6] 1]
    let more : List EngineOp :=
      [.submit 3 [9] 2, .step, .step, .submit 4 [9] 2, .step, .step, .step]
    ∃ e answers,
      Machine.run Engine.op (.new m ⟨2⟩ (.new 3 2 (by decide)))
        (past ++ .submit 2 [7, 8] 2 :: more) = some (e, answers) ∧
      2 ∈ finishedIds (plansOf answers) ∧
      tokensOf 2 (emissionsOf answers) = m.greedy [7, 8] 2 :=
  served_within_earlier_work _ 2 3 2 (by decide) (by decide) _ _ _ _ _ (by decide) (by decide)
    (by decide)

end ForgeInfer
