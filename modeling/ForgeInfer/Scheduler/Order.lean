import ForgeInfer.Scheduler.Conservation

/-! # The queue is in progress order

Victims join the front of the queue in the order they are chosen, the least progressed
first. Between any two calls the queue is a descending run of preempted sequences, all of
them below everything that runs, and then the fresh requests in the order they came.
-/

namespace ForgeInfer

open Scheduler (progressKey)

def admittedIds (plans : List StepPlan) : List SeqId := plans.flatMap (·.admitted)

theorem admittedIds_append (plans plans' : List StepPlan) :
    admittedIds (plans ++ plans') = admittedIds plans ++ admittedIds plans' :=
  List.flatMap_append

theorem admittedIds_concat (answers : List (Option StepPlan)) (answer : Option StepPlan) :
    admittedIds (answers ++ [answer]).reduceOption =
      admittedIds answers.reduceOption ++ (answer.map (·.admitted)).getD [] := by
  rw [← List.concat_eq_append, List.reduceOption_concat, admittedIds_append]
  cases answer <;> simp [admittedIds]

theorem Sequence.progressKey_withState (s : Sequence) (state : SeqState) :
    progressKey (s.withState state) = progressKey s := rfl

theorem Slot.progressKey_lt_of_output {x y : Sequence} (h : x.output.length < y.output.length) :
    progressKey x < progressKey y :=
  Prod.Lex.toLex_lt_toLex.mpr (Or.inl h)

theorem Slot.progressKey_le_pushToken (id : SeqId) (token : TokenId) (isEos : Bool) (x : Slot) :
    progressKey x.seq ≤ progressKey (x.pushToken id token isEos).seq := by
  unfold pushToken
  split
  · apply le_of_lt
    apply progressKey_lt_of_output
    simp [Sequence.pushToken]
  · exact le_rfl

theorem eraseDups_of_nodup {ids : List SeqId} (hn : ids.Nodup) : ids.eraseDups = ids := by
  induction ids with
  | nil => rfl
  | cons i ids ih =>
    rw [List.nodup_cons] at hn
    have hk : ids.filter (fun j => !j == i) = ids := by
      apply List.filter_eq_self.mpr
      intro j hj
      simp only [Bool.not_eq_true', beq_eq_false_iff_ne, ne_eq]
      rintro rfl
      exact hn.1 hj
    rw [List.eraseDups_cons, hk, ih hn.2]

theorem eraseDups_append_new {seen old new : List SeqId} (hold : ∀ i ∈ old, i ∈ seen)
    (hnew : ∀ i ∈ new, i ∉ seen) (hn : new.Nodup) :
    (seen ++ (old ++ new)).eraseDups = seen.eraseDups ++ new := by
  have ho : old.filter (fun i => !seen.elem i) = [] := by
    apply List.filter_eq_nil_iff.mpr
    intro i hi
    simp [hold i hi]
  have hk : new.filter (fun i => !seen.elem i) = new := by
    apply List.filter_eq_self.mpr
    intro i hi
    simp [hnew i hi]
  have hrest : (old ++ new).removeAll seen = new := by
    rw [List.removeAll, List.filter_append, ho, hk, List.nil_append]
  rw [List.eraseDups_append, hrest, eraseDups_of_nodup hn]

theorem pair_sublist_left {l l' : List SeqId} {i j : SeqId} (hn : (l ++ l').Nodup)
    (h : [i, j].Sublist (l ++ l')) (hj : j ∈ l) : [i, j].Sublist l := by
  obtain ⟨l₁, l₂, he, h₁, h₂⟩ := List.sublist_append_iff.mp h
  rcases List.eq_nil_or_concat l₂ with rfl | ⟨l₂, k, rfl⟩
  · rw [he, List.append_nil]
    exact h₁
  · have hk : j = k := by
      have := congrArg List.getLast? he
      simpa using this
    have hk' : k ∈ l' := h₂.subset (by simp)
    exact absurd rfl ((List.nodup_append.mp hn).2.2 j hj j (hk ▸ hk'))

namespace Ledger

variable {L : Limits} {a : Ledger} {P F : List Sequence}

/-- The queue in two parts: preempted sequences by descending progress, none as progressed
as a running one, and fresh requests. -/
structure Queued (a : Ledger) (P F : List Sequence) : Prop where
  waiting_eq : a.waiting = P ++ F
  preempted : ∀ s ∈ P, s.state = .preempted
  fresh : ∀ s ∈ F, s.state = .waiting
  fresh_output : ∀ s ∈ F, s.output = []
  descending : P.Pairwise fun s t => progressKey t < progressKey s
  below_running : ∀ x ∈ a.running, ∀ s ∈ P, progressKey s < progressKey x.seq

/-- Admission takes preempted sequences first: fresh ones only once those are gone. -/
theorem Queued.admission (h : a.Queued P F) (L : Limits) :
    ∃ P₁ P₂ F₁ F₂, P = P₁ ++ P₂ ∧ F = F₁ ++ F₂ ∧ a.taken L = P₁ ++ F₁ ∧ a.left L = P₂ ++ F₂ ∧
      (F₁ = [] ∨ P₂ = []) := by
  have hs := a.taken_append_left L
  rw [h.waiting_eq, List.append_eq_append_iff] at hs
  rcases hs with ⟨P₂, hP, hl⟩ | ⟨F₁, ht, hF⟩
  · exact ⟨a.taken L, P₂, [], F, hP, rfl, (List.append_nil _).symm, hl, Or.inl rfl⟩
  · exact ⟨P, [], F₁, a.left L, (List.append_nil P).symm, hF, ht, rfl, Or.inr rfl⟩

theorem Valid.victims_lt_survivors (hv : a.Valid L) {x y : Slot} (hx : x ∈ a.victims L)
    (hy : y ∈ a.survivors L) : progressKey x.seq < progressKey y.seq := by
  unfold victims at hx
  unfold survivors at hy
  rw [Limits.evict_eq_trim] at hx hy
  exact Trim.removed_lt_rest (Limits.nodup_map_key hv.placed_nodup) hx hy

theorem Valid.victims_ascending (hv : a.Valid L) :
    (a.victims L).Pairwise fun x y => progressKey x.seq < progressKey y.seq := by
  unfold victims
  rw [Limits.evict_eq_trim]
  exact Trim.removed_ascending (Limits.nodup_map_key hv.placed_nodup)

theorem mem_placed_of_mem_victims {x : Slot} (hx : x ∈ a.victims L) : x ∈ a.placed L :=
  (a.placed_perm L).mem_iff.mpr (List.mem_append_left _ hx)

theorem mem_placed_of_mem_batch {x : Slot} (hx : x ∈ a.batch L) : x ∈ a.placed L :=
  (a.survivors_sublist L).subset (List.mem_of_mem_filter hx)

/-- What admission leaves of the preempted part is below everything it has placed. -/
theorem Queued.left_lt_placed (h : a.Queued P F) {P₁ P₂ F₁ : List Sequence} (hP : P = P₁ ++ P₂)
    (ht : a.taken L = P₁ ++ F₁) (hor : F₁ = [] ∨ P₂ = []) {x : Slot} (hx : x ∈ a.placed L)
    {s : Sequence} (hs : s ∈ P₂) : progressKey s < progressKey x.seq := by
  have hsP : s ∈ P := hP ▸ List.mem_append_right _ hs
  rcases List.mem_append.mp hx with hx | hx
  · exact h.below_running x hx s hsP
  · obtain ⟨t, htm, rfl⟩ := List.mem_map.mp hx
    rw [ht] at htm
    rcases List.mem_append.mp htm with htm | htm
    · have hd := h.descending
      rw [hP, List.pairwise_append] at hd
      exact hd.2.2 t htm s hs
    · rcases hor with rfl | rfl
      · cases htm
      · cases hs

theorem Queued.scheduled (h : a.Queued P F) (hv : a.Valid L) :
    ∃ P₁ P₂ F₁ F₂, P = P₁ ++ P₂ ∧ F = F₁ ++ F₂ ∧ a.taken L = P₁ ++ F₁ ∧
      (a.scheduled L).Queued (((a.victims L).map Slot.preempt).reverse ++ P₂) F₂ := by
  obtain ⟨P₁, P₂, F₁, F₂, hP, hF, ht, hl, hor⟩ := h.admission L
  refine ⟨P₁, P₂, F₁, F₂, hP, hF, ht, ?_⟩
  constructor
  · rw [Ledger.scheduled, hl, List.append_assoc]
  · intro s hs
    rcases List.mem_append.mp hs with hs | hs
    · rw [List.mem_reverse, List.mem_map] at hs
      obtain ⟨x, -, rfl⟩ := hs
      rfl
    · exact h.preempted s (hP ▸ List.mem_append_right _ hs)
  · intro s hs
    exact h.fresh s (hF ▸ List.mem_append_right _ hs)
  · intro s hs
    exact h.fresh_output s (hF ▸ List.mem_append_right _ hs)
  · refine List.pairwise_append.mpr ⟨?_, ?_, ?_⟩
    · rw [List.pairwise_reverse, List.pairwise_map]
      exact hv.victims_ascending
    · exact h.descending.sublist (hP ▸ List.sublist_append_right _ _)
    · intro s hs t ht'
      rw [List.mem_reverse, List.mem_map] at hs
      obtain ⟨x, hx, rfl⟩ := hs
      exact h.left_lt_placed hP ht hor (mem_placed_of_mem_victims hx) ht'
  · intro x hx s hs
    obtain ⟨y, hy, rfl⟩ := List.mem_map.mp hx
    rw [Slot.seq_grow]
    rcases List.mem_append.mp hs with hs | hs
    · rw [List.mem_reverse, List.mem_map] at hs
      obtain ⟨z, hz, rfl⟩ := hs
      exact hv.victims_lt_survivors hz (List.mem_of_mem_filter hy)
    · exact h.left_lt_placed hP ht hor (mem_placed_of_mem_batch hy) hs

theorem Queued.submit (h : a.Queued P F) {s : Sequence} (hs : s.state = .waiting)
    (ho : s.output = []) : (a.submit s).Queued P (F ++ [s]) := by
  refine ⟨?_, h.preempted, ?_, ?_, h.descending, h.below_running⟩
  · rw [Ledger.submit, h.waiting_eq, List.append_assoc]
  · intro t ht
    rcases List.mem_append.mp ht with ht | ht
    · exact h.fresh t ht
    · rw [List.mem_singleton.mp ht, hs]
  · intro t ht
    rcases List.mem_append.mp ht with ht | ht
    · exact h.fresh_output t ht
    · rw [List.mem_singleton.mp ht, ho]

theorem Queued.pushToken (h : a.Queued P F) (id : SeqId) (token : TokenId) (isEos : Bool) :
    (a.pushToken id token isEos).Queued P F := by
  refine ⟨h.waiting_eq, h.preempted, h.fresh, h.fresh_output, h.descending, ?_⟩
  intro x hx s hs
  obtain ⟨y, hy, rfl⟩ := List.mem_map.mp hx
  exact (h.below_running y hy s hs).trans_le (y.progressKey_le_pushToken id token isEos)

/-- The order kept by a run: the queue in two parts, and the ids by their first admission
followed by those never admitted, which is the order they were submitted in. -/
structure InOrder (ops : List SchedulerOp) (a : Ledger) (answers : List (Option StepPlan))
    (P F : List Sequence) : Prop where
  queued : a.Queued P F
  first_come : (admittedIds answers.reduceOption).eraseDups ++ F.map (·.id) = submittedIds ops

theorem InOrder.seen_iff {ops : List SchedulerOp} {answers : List (Option StepPlan)}
    (h : InOrder ops a answers P F) (ha : Accounted L ops a answers)
    (hn : (submittedIds ops).Nodup) :
    (∀ i ∈ P.map (·.id), i ∈ admittedIds answers.reduceOption) ∧
      ∀ i ∈ F.map (·.id), i ∉ admittedIds answers.reduceOption := by
  have hlive : (P.map (·.id) ++ F.map (·.id)).Sublist (a.live.map (·.id)) := by
    rw [live, h.queued.waiting_eq, List.map_append, List.map_append]
    exact List.sublist_append_left _ _
  have hd := ha.valid.nodup.sublist hlive
  have hf := h.first_come
  constructor
  · intro i hi
    have hs : i ∈ submittedIds ops := by
      apply ha.places.mem_iff.mp
      exact List.mem_append_left _ (hlive.subset (List.mem_append_left _ hi))
    rw [← hf] at hs
    rcases List.mem_append.mp hs with hs | hs
    · exact List.mem_eraseDups.mp hs
    · exact absurd rfl ((List.nodup_append.mp hd).2.2 i hi i hs)
  · intro i hi hmem
    rw [← hf, List.nodup_append] at hn
    exact hn.2.2 i (List.mem_eraseDups.mpr hmem) i hi rfl

theorem InOrder.schedule {ops : List SchedulerOp} {answers : List (Option StepPlan)}
    (h : InOrder ops a answers P F) (ha : Accounted L ops a answers)
    (hn : (submittedIds ops).Nodup) :
    ∃ P' F', InOrder (ops ++ [.schedule]) (a.scheduled L) (answers ++ [some (a.plan L)]) P' F' := by
  obtain ⟨P₁, P₂, F₁, F₂, rfl, rfl, ht, hq⟩ := h.queued.scheduled ha.valid
  refine ⟨_, F₂, hq, ?_⟩
  obtain ⟨hold, hnew⟩ := h.seen_iff ha hn
  have hf := h.first_come
  rw [List.map_append] at hold hnew hf
  have hF : (F₁.map (·.id)).Nodup := by
    rw [← hf, ← List.append_assoc] at hn
    exact (List.nodup_append.mp (List.nodup_append.mp hn).1).2.1
  have hadm : (a.plan L).admitted = P₁.map (·.id) ++ F₁.map (·.id) := by
    rw [plan, ht, List.map_append]
  have hsame : submittedIds (ops ++ [.schedule]) = submittedIds ops := by
    rw [submittedIds_concat]
    exact List.append_nil _
  have hpre := eraseDups_append_new (fun i hi => hold i (List.mem_append_left _ hi))
    (fun i hi => hnew i (List.mem_append_left _ hi)) hF
  rw [hsame, admittedIds_concat, Option.map_some, Option.getD_some, hadm, hpre, List.append_assoc]
  exact hf

theorem inOrder_exec (L : Limits) (ops : List SchedulerOp) (h : (submittedIds ops).Nodup) :
    ∃ P F, InOrder ops (Machine.exec (op L) empty ops).1 (Machine.exec (op L) empty ops).2 P F := by
  refine Machine.exec_invariant distinct_prefixClosed
    (P := fun ops a answers => ∃ P F, InOrder ops a answers P F) ?_ ?_ ops h
  · refine ⟨[], [], ?_, rfl⟩
    constructor <;> simp [empty]
  · rintro ops o hn ⟨P, F, ih⟩
    have hpast : (submittedIds ops).Nodup := distinct_prefixClosed ops o hn
    cases o with
    | submit id prompt maxNewTokens =>
      refine ⟨P, _, ih.queued.submit (s := .new id prompt maxNewTokens) rfl rfl, ?_⟩
      rw [submittedIds_concat, admittedIds_concat, ← ih.first_come]
      simp [op, Sequence.new, SchedulerOp.submitted]
    | schedule => exact ih.schedule (accounted_exec L ops hpast) hpast
    | pushToken id token isEos =>
      refine ⟨P, F, ih.queued.pushToken id token isEos, ?_⟩
      rw [submittedIds_concat, admittedIds_concat, ← ih.first_come]
      simp [op, SchedulerOp.submitted]

theorem Queued.before (h : a.Queued P F) {x y : Sequence} (hx : x ∈ a.waiting)
    (hxp : x.state = .preempted) (hy : y ∈ a.waiting)
    (hxy : y.state = .waiting ∨ progressKey y < progressKey x) : [x, y].Sublist a.waiting := by
  have hxP : x ∈ P := by
    rw [h.waiting_eq] at hx
    rcases List.mem_append.mp hx with hx | hx
    · exact hx
    · have := h.fresh x hx
      simp [hxp] at this
  obtain ⟨P₁, P₂, rfl⟩ := List.append_of_mem hxP
  have hd := h.descending
  rw [List.pairwise_append, List.pairwise_cons] at hd
  have hy₂ : y ∈ P₂ ++ F := by
    rw [h.waiting_eq, List.append_assoc, List.cons_append] at hy
    rcases List.mem_append.mp hy with hy | hy
    · have hlt := hd.2.2 y hy x List.mem_cons_self
      rcases hxy with hs | hxy
      · have := h.preempted y (List.mem_append_left _ hy)
        simp [hs] at this
      · exact absurd hxy hlt.asymm
    · rcases List.mem_cons.mp hy with rfl | hy
      · rcases hxy with hs | hxy
        · simp [hxp] at hs
        · exact absurd hxy (lt_irrefl _)
      · exact hy
  rw [h.waiting_eq, List.append_assoc, List.cons_append]
  exact ((List.singleton_sublist.mpr hy₂).cons_cons x).trans (List.sublist_append_right _ _)

end Ledger

namespace Scheduler

variable {L : Limits} {s : Scheduler} {a : Ledger} {P F : List Sequence}

structure Ordered (ops : List SchedulerOp) (s : Scheduler) (answers : List (Option StepPlan))
    (P F : List Sequence) : Prop where
  waiting_eq : s.waiting = P ++ F
  preempted : ∀ x ∈ P, x.state = .preempted
  fresh : ∀ x ∈ F, x.state = .waiting
  descending : P.Pairwise fun x y => progressKey y < progressKey x
  below_running : ∀ x ∈ s.running, ∀ y ∈ P, progressKey y < progressKey x
  first_come : (admittedIds answers.reduceOption).eraseDups ++ F.map (·.id) = submittedIds ops

theorem Refines.ordered (h : s.Refines L a) {ops : List SchedulerOp}
    {answers : List (Option StepPlan)} (ho : a.InOrder ops answers P F) :
    s.Ordered ops answers P F := by
  refine ⟨h.waiting_eq.trans ho.queued.waiting_eq, ho.queued.preempted, ho.queued.fresh,
    ho.queued.descending, ?_, ho.first_come⟩
  intro x hx y hy
  rw [h.running_eq] at hx
  obtain ⟨z, hz, rfl⟩ := List.mem_map.mp hx
  exact ho.queued.below_running z hz y hy

/-- A plan admits from the front of the queue: a preempted sequence before every less
progressed one and before every fresh request. -/
structure ResumesInOrder (s : Scheduler) (plan : StepPlan) : Prop where
  front : plan.admitted <+: s.waiting.map (·.id)
  before : ∀ x ∈ s.waiting, x.state = .preempted → ∀ y ∈ s.waiting,
    (y.state = .waiting ∨ progressKey y < progressKey x) → y.id ∈ plan.admitted →
      [x.id, y.id].Sublist plan.admitted

theorem Refines.resumesInOrder (h : s.Refines L a) (hv : a.Valid L) (hq : a.Queued P F) :
    s.ResumesInOrder (a.plan L) := by
  have hsplit : (a.plan L).admitted ++ (a.left L).map (·.id) = a.waiting.map (·.id) := by
    rw [Ledger.plan, ← List.map_append, a.taken_append_left]
  constructor
  · rw [h.waiting_eq, ← hsplit]
    exact List.prefix_append _ _
  · rw [h.waiting_eq]
    intro x hx hxp y hy hxy hadm
    have hn : (a.waiting.map (·.id)).Nodup := by
      have hl := hv.nodup
      rw [Ledger.live, List.map_append] at hl
      exact (List.nodup_append.mp hl).1
    have hpair := (hq.before hx hxp hy hxy).map (·.id)
    rw [← hsplit] at hn hpair
    exact pair_sublist_left hn hpair hadm

end Scheduler

open Scheduler in
/-- After every run the queue is a descending run of preempted sequences below all that
runs, then the fresh requests in the order they came; admission takes it from the front. -/
theorem progress_never_inverted (maxBatchSize numBlocks blockSize : ℕ) (hb : 0 < blockSize)
    (ops : List SchedulerOp) (hids : (submittedIds ops).Nodup) :
    ∃ s answers P F s' plan,
      Machine.run op (new ⟨maxBatchSize⟩ (.new numBlocks blockSize hb)) ops = some (s, answers) ∧
      s.Ordered ops answers P F ∧ s.schedule = some (s', plan) ∧ s.ResumesInOrder plan := by
  let L : Limits := ⟨maxBatchSize, numBlocks, blockSize, hb⟩
  have ha := Ledger.accounted_exec L ops hids
  obtain ⟨P, F, ho⟩ := Ledger.inOrder_exec L ops hids
  obtain ⟨s, hr, hs⟩ := run_refines L ops hids
  obtain ⟨s', hsch, -⟩ := schedule_refines ha.valid hs
  exact ⟨s, _, P, F, s', _, hr, hs.ordered ho, hsch, hs.resumesInOrder ha.valid ho.queued⟩

/-- Two requests grow until the less progressed one loses its place to the other. -/
theorem progress_never_inverted_under_pressure :
    let ops : List SchedulerOp :=
      [.submit 1 [5, 6] 3, .submit 2 [7, 8] 3, .schedule, .pushToken 1 9 false, .submit 3 [4] 1,
        .schedule]
    (submittedIds ops).Nodup ∧ ∃ s answers P F s' plan,
      Machine.run Scheduler.op (.new ⟨2⟩ (.new 3 2 (by decide))) ops = some (s, answers) ∧
      s.Ordered ops answers P F ∧ s.schedule = some (s', plan) ∧ s.ResumesInOrder plan :=
  ⟨by decide, progress_never_inverted 2 3 2 (by decide) _ (by decide)⟩

end ForgeInfer
