import ForgeInfer.Engine.Exactness
import ForgeInfer.Engine.Refill
import ForgeInfer.Engine.Capacity

/-! # How long a request waits

With a cache for the worst case the queue is served in the order of arrival, and a request
waits only while the batch is full of earlier ones. Every such step takes one place of the
backlog for each place of the batch, so the wait is at most its share of the backlog.
-/

namespace ForgeInfer

/-- Steps that a sequence takes a place of the batch for: its tokens and its retirement. -/
def Sequence.cost (m : Model) (s : Sequence) : ℕ := (s.owed m).length + 1

/-- Places of the batch that the live sequences still take. -/
def Engine.backlog (e : Engine) : ℕ := (e.scheduler.live.map (·.cost e.model)).sum

theorem Sequence.cost_of_bare_eq {s s' : Sequence} (h : s.bare = s'.bare) (m : Model) :
    s.cost m = s'.cost m := by
  rw [cost, cost, owed_of_bare_eq h]

theorem Sequence.cost_of_complete {s : Sequence} (h : s.isComplete = true) (m : Model) :
    s.cost m = 1 := by
  rw [cost, owed_of_complete h]
  rfl

theorem Slot.cost_decode (m : Model) {x : Slot} (h : x.seq.isComplete = false) :
    (x.decode m).seq.cost m + 1 = x.seq.cost m := by
  rw [Sequence.cost, Sequence.cost, Slot.owed_decode m h, List.length_append,
    List.length_singleton]
  omega

namespace Ledger

variable {L : Limits} {m : Model} {a : Ledger} {ops : List EngineOp}

def runningCost (m : Model) (run : List Slot) : ℕ := (run.map fun x => x.seq.cost m).sum

theorem runningCost_append (m : Model) (run run' : List Slot) :
    runningCost m (run ++ run') = runningCost m run + runningCost m run' := by
  simp [runningCost]

theorem runningCost_perm (m : Model) {run run' : List Slot} (h : run.Perm run') :
    runningCost m run = runningCost m run' :=
  (h.map _).sum_eq

theorem runningCost_retired (L : Limits) (m : Model) (a : Ledger) :
    runningCost m (a.retired L) = (a.retired L).length := by
  have hmap : (a.retired L).map (fun x => x.seq.cost m) = (a.retired L).map fun _ => 1 :=
    List.map_congr_left fun x hx => Sequence.cost_of_complete (complete_of_mem_retired hx) m
  rw [runningCost, hmap, List.map_const', List.sum_replicate, smul_eq_mul, mul_one]

theorem runningCost_decoded (m : Model) {run : List Slot}
    (h : ∀ x ∈ run, x.seq.isComplete = false) :
    runningCost m (run.map (Slot.decode m)) + run.length = runningCost m run := by
  induction run with
  | nil => rfl
  | cons x run ih =>
    have hx := Slot.cost_decode m (h x List.mem_cons_self)
    have hrest := ih fun y hy => h y (List.mem_cons_of_mem x hy)
    simp only [runningCost, List.map_cons, List.sum_cons, List.length_cons, List.map_map] at hrest ⊢
    omega

/-- A step without victims takes one place of the backlog for each place of the batch. -/
theorem runningCost_step (h : a.victims L = []) (m : Model) :
    runningCost m (a.step L m).1.running + (a.placed L).length = runningCost m (a.placed L) := by
  have hperm := a.survivors_perm L
  rw [survivors_of_no_victims h] at hperm
  have hdec := runningCost_decoded m fun x hx => incomplete_of_mem_scheduled (L := L) (a := a) hx
  have hgrow : runningCost m (a.scheduled L).running = runningCost m (a.batch L) := by
    simp [runningCost, scheduled, Function.comp_def]
  have hlen : (a.scheduled L).running.length = (a.batch L).length := List.length_map _
  have hret := runningCost_retired L m a
  rw [runningCost_perm m hperm, runningCost_append, hperm.length_eq, List.length_append]
  change runningCost m ((a.scheduled L).running.map (Slot.decode m)) + _ = _
  omega

theorem taken_or_left {s : Sequence} {front back : List Sequence}
    (h : a.waiting = front ++ s :: back) (L : Limits) :
    s ∈ a.taken L ∨ ∃ front', front = a.taken L ++ front' ∧ a.left L = front' ++ s :: back := by
  have hsplit := a.taken_append_left L
  rw [h, List.append_eq_append_iff] at hsplit
  rcases hsplit with ⟨front', hf, hl⟩ | ⟨more, ht, hb⟩
  · exact Or.inr ⟨front', hf, hl⟩
  · cases more with
    | nil =>
      rw [List.append_nil] at ht
      exact Or.inr ⟨[], by rw [ht, List.append_nil], hb.symm⟩
    | cons t more =>
      obtain ⟨rfl, -⟩ : s = t ∧ back = more ++ a.left L := by simpa using hb
      exact Or.inl (ht ▸ List.mem_append_right _ List.mem_cons_self)

/-- A request that was submitted `t` steps ago with `w` places of backlog before it: it waits
behind what is left of the backlog, it runs, or it is retired. -/
inductive Underway (L : Limits) (m : Model) (id : SeqId) (cost w t : ℕ) (a : Ledger)
    (answers : List StepAnswer) : Prop where
  | waiting (s : Sequence) (front back : List Sequence) (hw : a.waiting = front ++ s :: back)
      (hid : s.id = id) (hc : s.cost m = cost)
      (hahead : runningCost m a.running + (front.map (·.cost m)).sum + L.maxBatchSize * t ≤ w)
  | running (x : Slot) (hx : x ∈ a.running) (hid : x.seq.id = id)
      (hc : L.maxBatchSize * (x.seq.cost m + t) ≤ w + L.maxBatchSize * cost)
  | retired (hid : id ∈ finishedIds (plansOf answers))

variable {answers : List StepAnswer} {id : SeqId} {cost w t : ℕ}

theorem Underway.submit (h : Underway L m id cost w t a answers) (s : Sequence) :
    Underway L m id cost w t (a.submit s) (answers ++ [none]) := by
  cases h with
  | waiting s' front back hw hid hc hahead =>
    refine .waiting s' front (back ++ [s]) ?_ hid hc hahead
    rw [Ledger.submit, hw, List.append_assoc, List.cons_append]
  | running x hx hid hc => exact .running x hx hid hc
  | retired hid =>
    refine .retired ?_
    rw [plansOf_concat_none]
    exact hid

theorem Underway.of_placed (h : a.victims L = []) {x : Slot} (hx : x ∈ a.placed L)
    (hid : x.seq.id = id)
    (hc : L.maxBatchSize * (x.seq.cost m + t) ≤ w + L.maxBatchSize * cost) :
    Underway L m id cost w (t + 1) (a.step L m).1 (answers ++ [some (a.step L m).2]) := by
  rw [← survivors_of_no_victims h, (a.survivors_perm L).mem_iff] at hx
  rcases List.mem_append.mp hx with hb | hr
  · have hg : x.grow ∈ (a.scheduled L).running := List.mem_map_of_mem hb
    have hcost := Slot.cost_decode m (incomplete_of_mem_scheduled hg)
    rw [Slot.seq_grow] at hcost
    refine .running (x.grow.decode m) (List.mem_map_of_mem hg) ?_ ?_
    · rw [Slot.id_decode, Slot.seq_grow]
      exact hid
    · rw [← Nat.add_assoc, Nat.add_right_comm, hcost]
      exact hc
  · exact .retired (mem_finishedIds_step.mpr (Or.inr (hid ▸ List.mem_map_of_mem hr)))

theorem Underway.step (h : Underway L m id cost w t a answers) (hv : a.victims L = [])
    (hfull : a.left L = [] ∨ (a.placed L).length = L.maxBatchSize) :
    Underway L m id cost w (t + 1) (a.step L m).1 (answers ++ [some (a.step L m).2]) := by
  cases h with
  | waiting s front back hw hid hc hahead =>
    rcases taken_or_left hw L with ht | ⟨front', hf, hl⟩
    · have hx : Slot.place s ∈ a.placed L := List.mem_append_right _ (List.mem_map_of_mem ht)
      have hcost : (Slot.place s).seq.cost m = cost := hc
      refine of_placed hv hx hid ?_
      rw [hcost, Nat.mul_add]
      omega
    · have hlen : (a.placed L).length = L.maxBatchSize := by
        refine hfull.resolve_left ?_
        rw [hl]
        simp
      have hstep := runningCost_step hv m
      have hplaced : runningCost m (a.placed L) =
          runningCost m a.running + ((a.taken L).map (·.cost m)).sum := by
        rw [placed, runningCost_append]
        simp only [runningCost, List.map_map]
        rfl
      refine .waiting s front' back ?_ hid hc ?_
      · change ((a.victims L).map Slot.preempt).reverse ++ a.left L = _
        rw [hv, hl]
        rfl
      · rw [hf, List.map_append, List.sum_append] at hahead
        rw [Nat.mul_succ]
        omega
  | running x hx hid hc => exact of_placed hv (List.mem_append_left _ hx) hid hc
  | retired hid => exact .retired (mem_finishedIds_step.mpr (Or.inl hid))

theorem Underway.finished (h : Underway L m id cost w t a answers) (hb : 1 ≤ L.maxBatchSize)
    (hcost : 1 ≤ cost) (ht : w / L.maxBatchSize + cost ≤ t) :
    id ∈ finishedIds (plansOf answers) := by
  cases h with
  | waiting s front back hw hid hc hahead =>
    have hle : t ≤ w / L.maxBatchSize := by
      rw [Nat.le_div_iff_mul_le hb, Nat.mul_comm]
      omega
    omega
  | running x hx hid hc =>
    have hle : x.seq.cost m + t - cost ≤ w / L.maxBatchSize := by
      rw [Nat.le_div_iff_mul_le hb, Nat.mul_comm, Nat.mul_sub]
      omega
    have hpos : 1 ≤ x.seq.cost m := Nat.le_add_left _ _
    omega
  | retired hid => exact hid

theorem roomy_prefixClosed (L : Limits) :
    Machine.PrefixClosed fun ops : List EngineOp => (submittedTo ops).Nodup ∧
      worstCase L.maxBatchSize L.blockSize ops ≤ L.numBlocks := by
  rintro ops o ⟨hn, hcap⟩
  have hmono := worstCase_mono L.maxBatchSize L.blockSize (List.prefix_append ops [o])
  exact ⟨submittedTo_prefixClosed ops o hn, hmono.trans hcap⟩

theorem underway_exec (L : Limits) (m : Model) (past more : List EngineOp) (id : SeqId)
    (prompt : List TokenId) (maxNewTokens : ℕ)
    (hn : (submittedTo (past ++ [.submit id prompt maxNewTokens] ++ more)).Nodup)
    (hcap : worstCase L.maxBatchSize L.blockSize (past ++ [.submit id prompt maxNewTokens] ++ more) ≤
      L.numBlocks) :
    Underway L m id ((m.greedy prompt maxNewTokens).length + 1)
      (((Machine.exec (engineOp L m) .empty past).1.live.map (·.cost m)).sum) (more.count .step)
      (Machine.exec (engineOp L m) .empty (past ++ [.submit id prompt maxNewTokens] ++ more)).1
      (Machine.exec (engineOp L m) .empty (past ++ [.submit id prompt maxNewTokens] ++ more)).2 := by
  set first := past ++ [EngineOp.submit id prompt maxNewTokens] with hfirst
  set w := ((Machine.exec (engineOp L m) .empty past).1.live.map (·.cost m)).sum with hw
  refine Machine.exec_invariant_after (roomy_prefixClosed L) first
    (P := fun more a answers => Underway L m id ((m.greedy prompt maxNewTokens).length + 1) w
      (more.count .step) a answers) ?_ ?_ more ⟨hn, hcap⟩
  · rw [hfirst, Machine.exec_concat]
    refine .waiting (.new id prompt maxNewTokens) _ [] rfl rfl ?_ ?_
    · simp [Sequence.cost, Sequence.owed, Sequence.new]
    · rw [hw, live, List.map_append, List.sum_append, List.count_nil]
      simp only [runningCost, List.map_map, Function.comp_def, engineOp, Ledger.submit]
      omega
  · intro more o hop ih
    obtain ⟨hpast, hroom⟩ := roomy_prefixClosed L _ o hop
    cases o with
    | submit i q n =>
      rw [List.count_append]
      exact ih.submit _
    | step =>
      have hv := (serves_exec L m _ hpast).valid
      have hs := synced_exec L m (first ++ more)
      have hwithin := withinRequests_exec L m (first ++ more)
      rw [List.count_append, List.count_singleton_self]
      exact ih.step (hwithin.victims_eq_nil hpast hv hs hroom)
        (hwithin.admission_full hpast hv hs hroom)

end Ledger

theorem Engine.backlog_eq {e : Engine} {L : Limits} {m : Model} {a : Ledger}
    (h : e.Refines L m a) : e.backlog = (a.live.map (·.cost m)).sum := by
  rw [backlog, h.scheduler.live_eq, h.model_eq]

/-- With a cache for the worst case a request is retired within its share of the backlog it
found, its tokens and one step more, in any run of calls that goes on from there. -/
theorem served_within_share (m : Model) (maxBatchSize numBlocks blockSize : ℕ) (hb : 0 < blockSize)
    (hbatch : 1 ≤ maxBatchSize) (past more : List EngineOp) (id : SeqId) (prompt : List TokenId)
    (maxNewTokens : ℕ)
    (hids : (submittedTo (past ++ .submit id prompt maxNewTokens :: more)).Nodup)
    (hcap : worstCase maxBatchSize blockSize (past ++ .submit id prompt maxNewTokens :: more) ≤
      numBlocks)
    (hsteps : ∀ r ∈ Machine.run Engine.op (.new m ⟨maxBatchSize⟩ (.new numBlocks blockSize hb)) past,
      r.1.backlog / maxBatchSize + (m.greedy prompt maxNewTokens).length + 1 ≤ more.count .step) :
    ∃ e answers,
      Machine.run Engine.op (.new m ⟨maxBatchSize⟩ (.new numBlocks blockSize hb))
        (past ++ .submit id prompt maxNewTokens :: more) = some (e, answers) ∧
      id ∈ finishedIds (plansOf answers) ∧
      tokensOf id (emissionsOf answers) = m.greedy prompt maxNewTokens := by
  let L : Limits := ⟨maxBatchSize, numBlocks, blockSize, hb⟩
  rw [List.append_cons] at hids hcap ⊢
  have hpast : (submittedTo past).Nodup :=
    submittedTo_prefixClosed past _ (hids.sublist ((List.sublist_append_left _ _).filterMap _))
  obtain ⟨e₀, hr₀, he₀⟩ := Engine.run_refines L m past hpast
  obtain ⟨e, hr, he⟩ := Engine.run_refines L m _ hids
  have hbound := hsteps _ hr₀
  rw [Engine.backlog_eq he₀] at hbound
  have hfin := (Ledger.underway_exec L m past more id prompt maxNewTokens hids hcap).finished
    hbatch (Nat.le_add_left _ _) hbound
  have hx := Ledger.exact_exec L m _ hids
  refine ⟨e, _, hr, hfin, ?_⟩
  cases hx.served id prompt maxNewTokens (by simp) with
  | live s hs hid hout hsplit =>
    exact absurd (List.mem_map.mpr ⟨s, hs, hid⟩) (hx.serves.notMem_live_of_finished hids hfin)
  | retired hid hall => exact hall

theorem served_within_share_of_backlog :
    let m : Model := ⟨2, 1, 0, fun _ => ⟨[0, 1]⟩⟩
    let past : List EngineOp :=
      [.submit 7 [5, 6] 3, .submit 4 [7] 3, .step, .submit 6 [7] 4]
    let more : List EngineOp :=
      [.step, .submit 1 [9] 2, .step, .step, .step, .submit 2 [9] 2, .step, .step, .step, .step]
    ∃ e answers,
      Machine.run Engine.op (.new m ⟨2⟩ (.new 6 2 (by decide))) (past ++ .submit 5 [8] 2 :: more) =
        some (e, answers) ∧
      5 ∈ finishedIds (plansOf answers) ∧
      tokensOf 5 (emissionsOf answers) = m.greedy [8] 2 :=
  served_within_share _ 2 6 2 (by decide) (by decide) _ _ _ _ _ (by decide) (by decide)
    (by decide +kernel)

end ForgeInfer
