import ForgeInfer.Scheduler.Refinement
import Mathlib.Data.List.ReduceOption

/-! # No request is lost

In every run of the scheduler each submitted request is waiting, running or retired, in
one place and once. What a request was submitted with stays, and its output only grows.
-/

namespace ForgeInfer

def SchedulerOp.submitted : SchedulerOp → Option SeqId
  | .submit id _ _ => some id
  | _ => none

def submittedIds (ops : List SchedulerOp) : List SeqId := ops.filterMap SchedulerOp.submitted

def finishedIds (plans : List StepPlan) : List SeqId := plans.flatMap (·.finished)

/-- What a call may do to a live sequence. -/
structure Evolves (o : SchedulerOp) (s s' : Sequence) : Prop where
  prompt_eq : s'.prompt = s.prompt
  output_grows : s.output <+: s'.output
  limit : s'.maxNewTokens = s.maxNewTokens ∨
    ∃ token, o = .pushToken s.id token true ∧ s'.maxNewTokens = s'.output.length

/-- A sequence keeps the prompt and the limit of its submission, but for a limit that an eos
has brought down to the output. -/
def SubmittedIn (ops : List SchedulerOp) (s : Sequence) : Prop :=
  ∃ maxNewTokens, .submit s.id s.prompt maxNewTokens ∈ ops ∧
    (s.maxNewTokens = maxNewTokens ∨
      s.maxNewTokens ≤ s.output.length ∧ ∃ token, .pushToken s.id token true ∈ ops)

theorem submittedIds_concat (ops : List SchedulerOp) (o : SchedulerOp) :
    submittedIds (ops ++ [o]) = submittedIds ops ++ o.submitted.toList := by
  rw [submittedIds, List.filterMap_append]
  cases h : o.submitted <;> simp [submittedIds, h]

theorem distinct_prefixClosed :
    Machine.PrefixClosed fun ops : List SchedulerOp => (submittedIds ops).Nodup := by
  intro ops o h
  rw [submittedIds_concat] at h
  exact (List.nodup_append.mp h).1

theorem finishedIds_append (plans plans' : List StepPlan) :
    finishedIds (plans ++ plans') = finishedIds plans ++ finishedIds plans' :=
  List.flatMap_append

theorem Sequence.evolves_of_bare_eq {s s' : Sequence} (h : s.bare = s'.bare) (o : SchedulerOp) :
    Evolves o s s' := by
  obtain ⟨-, hp, ho, hm⟩ := Sequence.fields_of_bare h
  exact ⟨hp.symm, ⟨[], by rw [List.append_nil]; exact ho⟩, Or.inl hm.symm⟩

theorem Slot.evolves_pushToken (x : Slot) (id : SeqId) (token : TokenId) (isEos : Bool) :
    Evolves (.pushToken id token isEos) x.seq (x.pushToken id token isEos).seq := by
  unfold Slot.pushToken
  split
  · next h =>
    subst h
    refine ⟨rfl, List.prefix_append _ _, ?_⟩
    cases isEos with
    | false => exact Or.inl rfl
    | true => exact Or.inr ⟨token, rfl, rfl⟩
  · exact ⟨rfl, List.prefix_rfl, Or.inl rfl⟩

theorem Evolves.submittedIn {ops : List SchedulerOp} {o : SchedulerOp} {x y : Sequence}
    (h : Evolves o x y) (hid : x.id = y.id) (hx : SubmittedIn ops x) :
    SubmittedIn (ops ++ [o]) y := by
  obtain ⟨n, hmem, hlimit⟩ := hx
  rw [hid, ← h.prompt_eq] at hmem
  refine ⟨n, List.mem_append_left _ hmem, ?_⟩
  rcases h.limit with heq | ⟨token, rfl, hlen⟩
  · rcases hlimit with hn | ⟨hle, token, heos⟩
    · exact Or.inl (heq.trans hn)
    · rw [hid] at heos
      refine Or.inr ⟨?_, token, List.mem_append_left _ heos⟩
      exact heq.le.trans (hle.trans h.output_grows.length_le)
  · exact Or.inr ⟨hlen.le, token, by simp [hid]⟩

namespace Ledger

variable {L : Limits} {a : Ledger}

theorem eq_of_mem_live (h : a.Valid L) {x y : Sequence} (hx : x ∈ a.live) (hy : y ∈ a.live)
    (hid : x.id = y.id) : x = y :=
  List.inj_on_of_nodup_map h.nodup hx hy hid

theorem ids_op (L : Limits) (a : Ledger) (o : SchedulerOp) :
    ((a.op L o).1.live.map (·.id) ++ finishedIds (a.op L o).2.toList).Perm
      (a.live.map (·.id) ++ o.submitted.toList) := by
  cases o with
  | submit id prompt maxNewTokens =>
    have hp := (a.live_submit (.new id prompt maxNewTokens)).map (·.id)
    rw [List.map_cons] at hp
    simp only [op, finishedIds, Option.toList_none, List.flatMap_nil, List.append_nil]
    exact hp.trans (List.perm_append_singleton id _).symm
  | schedule =>
    simpa [op, finishedIds, SchedulerOp.submitted] using (a.ids_scheduled L).symm
  | pushToken id token isEos =>
    simp [op, pushToken, live, finishedIds, SchedulerOp.submitted, Function.comp_def]

theorem Valid.op (h : a.Valid L) {o : SchedulerOp}
    (hid : ∀ id ∈ o.submitted, id ∉ a.live.map (·.id)) : (a.op L o).1.Valid L := by
  cases o with
  | submit id prompt maxNewTokens => exact h.submit rfl (hid id rfl)
  | schedule => exact h.scheduled
  | pushToken id token isEos => exact h.pushToken id token isEos

/-- A sequence is the one a call submits, or evolves from an earlier one. -/
theorem origin {o : SchedulerOp} {y : Sequence} (hy : y ∈ (a.op L o).1.live) :
    (∃ x ∈ a.live, x.id = y.id ∧ Evolves o x y) ∨
      o = .submit y.id y.prompt y.maxNewTokens := by
  cases o with
  | submit id prompt maxNewTokens =>
    rcases List.mem_cons.mp ((a.live_submit _).mem_iff.mp hy) with rfl | hy
    · exact Or.inr rfl
    · exact Or.inl ⟨y, hy, rfl, Sequence.evolves_of_bare_eq rfl _⟩
  | schedule =>
    have hmem : y.bare ∈ a.live.map (·.bare) :=
      (a.live_scheduled L).mem_iff.mpr (List.mem_append_left _ (List.mem_map_of_mem hy))
    obtain ⟨x, hx, hb⟩ := List.mem_map.mp hmem
    have hid := congrArg Sequence.id hb
    exact Or.inl ⟨x, hx, hid, Sequence.evolves_of_bare_eq hb _⟩
  | pushToken id token isEos =>
    rcases List.mem_append.mp hy with hy | hy
    · exact Or.inl ⟨y, List.mem_append_left _ hy, rfl, Sequence.evolves_of_bare_eq rfl _⟩
    · obtain ⟨z, hz, rfl⟩ := List.mem_map.mp hy
      obtain ⟨x, hx, rfl⟩ := List.mem_map.mp hz
      exact Or.inl ⟨x.seq, List.mem_append_right _ (List.mem_map_of_mem hx),
        (Slot.id_pushToken _ _ _ _).symm, x.evolves_pushToken _ _ _⟩

theorem Valid.evolves (h : a.Valid L) {o : SchedulerOp}
    (hid : ∀ id ∈ o.submitted, id ∉ a.live.map (·.id)) {x y : Sequence} (hx : x ∈ a.live)
    (hy : y ∈ (a.op L o).1.live) (he : x.id = y.id) : Evolves o x y := by
  rcases origin hy with ⟨z, hz, hzy, hev⟩ | rfl
  · obtain rfl := eq_of_mem_live h hx hz (he.trans hzy.symm)
    exact hev
  · exact absurd (List.mem_map.mpr ⟨x, hx, he⟩) (hid y.id rfl)

structure Accounted (L : Limits) (ops : List SchedulerOp) (a : Ledger)
    (answers : List (Option StepPlan)) : Prop where
  valid : a.Valid L
  places : (a.live.map (·.id) ++ finishedIds answers.reduceOption).Perm (submittedIds ops)
  requests : ∀ s ∈ a.live, SubmittedIn ops s

theorem Accounted.fresh {ops : List SchedulerOp} {answers : List (Option StepPlan)}
    (h : Accounted L ops a answers) {o : SchedulerOp} (hn : (submittedIds (ops ++ [o])).Nodup) :
    ∀ id ∈ o.submitted, id ∉ a.live.map (·.id) := by
  intro id hid hmem
  rw [submittedIds_concat, List.nodup_append] at hn
  have hs : id ∈ submittedIds ops := h.places.mem_iff.mp (List.mem_append_left _ hmem)
  exact hn.2.2 id hs id (Option.mem_toList.mpr hid) rfl

theorem accounted_exec (L : Limits) (ops : List SchedulerOp) (h : (submittedIds ops).Nodup) :
    Accounted L ops (Machine.exec (op L) empty ops).1 (Machine.exec (op L) empty ops).2 := by
  refine Machine.exec_invariant distinct_prefixClosed (P := Accounted L) ?_ ?_ ops h
  · exact ⟨valid_empty L, List.Perm.nil, by simp [empty, live]⟩
  · intro ops o hn ih
    have hfresh := ih.fresh hn
    refine ⟨ih.valid.op hfresh, ?_, ?_⟩
    · have hi := ids_op L (Machine.exec (op L) empty ops).1 o
      have hp := ih.places
      rw [← List.concat_eq_append, List.reduceOption_concat, finishedIds_append,
        submittedIds_concat]
      simp only [List.perm_iff_count, List.count_append] at hi hp ⊢
      intro i
      have := hi i; have := hp i
      omega
    · intro y hy
      rcases origin hy with ⟨x, hx, hid, hev⟩ | ho
      · exact hev.submittedIn hid (ih.requests x hx)
      · exact ⟨y.maxNewTokens, by simp [ho], Or.inl rfl⟩

end Ledger

namespace Scheduler

variable {L : Limits} {s : Scheduler} {a : Ledger}

def live (s : Scheduler) : List Sequence := s.waiting ++ s.running

theorem Refines.live_eq (h : s.Refines L a) : s.live = a.live := by
  rw [live, h.waiting_eq, h.running_eq]; rfl

theorem replaceF_pushToken (id : SeqId) (token : TokenId) (isEos : Bool) {run : List Slot}
    (hn : (run.map (·.seq.id)).Nodup) :
    ((run.map Slot.seq).replaceF fun s =>
        if s.id = id then some (s.pushToken token isEos) else none) =
      (run.map (Slot.pushToken id token isEos)).map Slot.seq := by
  induction run with
  | nil => rfl
  | cons x run ih =>
    rw [List.map_cons, List.nodup_cons] at hn
    by_cases hx : x.seq.id = id
    · have hrest : run.map (Slot.pushToken id token isEos) = run := by
        refine (List.map_congr_left fun y hy => ?_).trans (List.map_id run)
        have hne : y.seq.id ≠ id := fun hy' =>
          hn.1 (List.mem_map.mpr ⟨y, hy, hy'.trans hx.symm⟩)
        exact Slot.pushToken_of_ne hne _ _
      simp [List.replaceF, hx, hrest, Slot.pushToken_of_eq hx]
    · simp [List.replaceF, hx, ih hn.2, Slot.pushToken_of_ne hx]

theorem pushToken_refines (h : s.Refines L a) (id : SeqId) (token : TokenId)
    (isEos : Bool) : (s.pushToken id token isEos).Refines L (a.pushToken id token isEos) := by
  have hn : (a.running.map (·.seq.id)).Nodup := h.cache.nodup
  refine ⟨h.maxBatchSize_eq, h.waiting_eq, ?_, ?_⟩
  · simp only [pushToken, h.running_eq, replaceF_pushToken id token isEos hn]
    rfl
  · exact h.cache.map (Slot.id_pushToken id token isEos) (Slot.held_pushToken id token isEos)

theorem op_refines (hv : a.Valid L) (h : s.Refines L a) (o : SchedulerOp) :
    ∃ s', s.op o = some (s', (a.op L o).2) ∧ s'.Refines L (a.op L o).1 := by
  cases o with
  | submit id prompt maxNewTokens =>
    exact ⟨_, rfl, h.maxBatchSize_eq, by simp [submit, Ledger.op, Ledger.submit, h.waiting_eq],
      h.running_eq, h.cache⟩
  | schedule =>
    obtain ⟨s', hs, h'⟩ := schedule_refines hv h
    exact ⟨s', by simp [op, hs, Ledger.op], h'⟩
  | pushToken id token isEos => exact ⟨_, rfl, pushToken_refines h id token isEos⟩

theorem refines_new (L : Limits) :
    (new ⟨L.maxBatchSize⟩ (.new L.numBlocks L.blockSize L.blockSize_pos)).Refines L .empty :=
  ⟨rfl, rfl, rfl, PagedKVCache.holds_new L⟩

theorem run_refines (L : Limits) (ops : List SchedulerOp) (h : (submittedIds ops).Nodup) :
    ∃ s, Machine.run op (new ⟨L.maxBatchSize⟩ (.new L.numBlocks L.blockSize L.blockSize_pos)) ops =
        some (s, (Machine.exec (Ledger.op L) .empty ops).2) ∧
      s.Refines L (Machine.exec (Ledger.op L) .empty ops).1 := by
  refine Machine.run_of_simulation distinct_prefixClosed
    (R := fun (s : Scheduler) a => s.Refines L a) (refines_new L) ?_ ops h
  intro ops o s hn hs
  exact op_refines (Ledger.accounted_exec L ops (distinct_prefixClosed ops o hn)).valid hs o

/-- Where the sequences of a scheduler are after a run. -/
structure Accounted (ops : List SchedulerOp) (s : Scheduler) (answers : List (Option StepPlan)) :
    Prop where
  places : (s.waiting.map (·.id) ++ s.running.map (·.id) ++
    finishedIds answers.reduceOption).Perm (submittedIds ops)
  waiting_state : ∀ x ∈ s.waiting, x.state = .waiting ∨ x.state = .preempted
  running_state : ∀ x ∈ s.running, x.state = .running
  requests : ∀ x ∈ s.live, SubmittedIn ops x

theorem Refines.accounted (h : s.Refines L a) {ops : List SchedulerOp}
    {answers : List (Option StepPlan)} (ha : a.Accounted L ops answers) :
    s.Accounted ops answers where
  places := by
    have hp := ha.places
    rw [← h.live_eq, live, List.map_append] at hp
    exact hp
  waiting_state := by
    rw [h.waiting_eq]; exact ha.valid.waiting_state
  running_state := by
    rw [h.running_eq]
    intro x hx
    obtain ⟨y, hy, rfl⟩ := List.mem_map.mp hx
    exact ha.valid.running_state y hy
  requests := by
    rw [h.live_eq]; exact ha.requests

end Scheduler

open Scheduler in
/-- Every submitted request is waiting, running or retired, once. Each call leaves a live
sequence as it was or pushes a token on it, and `schedule` fills no more than the batch. -/
theorem requests_conserved (maxBatchSize numBlocks blockSize : ℕ) (hb : 0 < blockSize)
    (ops : List SchedulerOp) (o : SchedulerOp) (hids : (submittedIds (ops ++ [o])).Nodup) :
    ∃ s answers s' answer,
      Machine.run op (new ⟨maxBatchSize⟩ (.new numBlocks blockSize hb)) ops = some (s, answers) ∧
      s.op o = some (s', answer) ∧
      s.Accounted ops answers ∧ s'.Accounted (ops ++ [o]) (answers ++ [answer]) ∧
      (∀ x ∈ s.live, ∀ y ∈ s'.live, x.id = y.id → Evolves o x y) ∧
      (o = .schedule → s'.running.length ≤ maxBatchSize) := by
  let L : Limits := ⟨maxBatchSize, numBlocks, blockSize, hb⟩
  have hpast := distinct_prefixClosed ops o hids
  have ha := Ledger.accounted_exec L ops hpast
  have ha' := Ledger.accounted_exec L (ops ++ [o]) hids
  obtain ⟨s, hr, hs⟩ := run_refines L ops hpast
  obtain ⟨s', ho, hs'⟩ := op_refines ha.valid hs o
  rw [Machine.exec_concat] at ha'
  refine ⟨s, _, s', _, hr, ho, hs.accounted ha, hs'.accounted ha', ?_, ?_⟩
  · rw [hs.live_eq, hs'.live_eq]
    intro x hx y hy he
    exact ha.valid.evolves (ha.fresh hids) hx hy he
  · rintro rfl
    rw [hs'.running_eq, List.length_map]
    exact ha'.valid.length_le

theorem requests_conserved_under_pressure :
    let ops : List SchedulerOp :=
      [.submit 1 [5, 6] 3, .submit 2 [7, 8] 3, .schedule, .pushToken 1 9 false]
    (submittedIds (ops ++ [.schedule])).Nodup ∧
      ∃ s answers s' answer,
        Machine.run Scheduler.op (.new ⟨2⟩ (.new 2 2 (by decide))) ops = some (s, answers) ∧
        s.op .schedule = some (s', answer) ∧
        s.Accounted ops answers ∧ s'.Accounted (ops ++ [.schedule]) (answers ++ [answer]) ∧
        (∀ x ∈ s.live, ∀ y ∈ s'.live, x.id = y.id → Evolves .schedule x y) ∧
        (SchedulerOp.schedule = .schedule → s'.running.length ≤ 2) :=
  ⟨by decide, requests_conserved 2 2 2 (by decide) _ .schedule (by decide)⟩

end ForgeInfer
