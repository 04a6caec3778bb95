import ForgeInfer.Scheduler.Conservation

/-! # The plans are a complete log

A board is told of the submissions and of the plans, and of nothing else. It checks that each
plan is possible and moves the ids that it names. The log of every run passes these checks,
and the board then shows the queue and the batch of the scheduler in their order.
-/

namespace ForgeInfer

/-- Where a log says the ids are. -/
structure Board where
  waiting : List SeqId
  running : List SeqId
  retired : List SeqId

namespace Board

def empty : Board := ⟨[], [], []⟩

/-- A plan admits the front of the queue, and each id that then runs is preempted, decoded or
retired, once. -/
def Allows (b : Board) (p : StepPlan) : Prop :=
  p.admitted <+: b.waiting ∧
    (p.preempted ++ p.decodeBatch ++ p.finished).Perm (b.running ++ p.admitted)

instance (b : Board) (p : StepPlan) : Decidable (b.Allows p) :=
  inferInstanceAs (Decidable (_ ∧ _))

/-- The victims join the front of the queue, the last one first. -/
def follow (b : Board) (p : StepPlan) : Board where
  waiting := p.preempted.reverse ++ b.waiting.drop p.admitted.length
  running := p.decodeBatch
  retired := b.retired ++ p.finished

/-- Read an entry of a log; `none` is one that no run leaves. -/
def read (b : Board) : SchedulerOp × Option StepPlan → Option Board
  | (.submit id _ _, none) => some { b with waiting := b.waiting ++ [id] }
  | (.schedule, some p) => if b.Allows p then some (b.follow p) else none
  | (.pushToken _ _ _, none) => some b
  | _ => none

def times (list : StepPlan → List SeqId) (plans : List StepPlan) (id : SeqId) : ℕ :=
  (plans.flatMap list).count id

theorem times_append (list : StepPlan → List SeqId) (plans plans' : List StepPlan) (id : SeqId) :
    times list (plans ++ plans') id = times list plans id + times list plans' id := by
  simp [times]

/-- The board after a log is the one the ledger shows, and its ids have been admitted once more
than preempted when they run or are retired. -/
structure Shows (b : Board) (a : Ledger) (plans : List StepPlan) : Prop where
  waiting_eq : b.waiting = a.waiting.map (·.id)
  running_eq : b.running = a.running.map (·.seq.id)
  retired_eq : b.retired = finishedIds plans
  balance : ∀ id, times (·.admitted) plans id =
    times (·.preempted) plans id + b.running.count id + b.retired.count id

variable {L : Limits} {b : Board} {a : Ledger} {plans : List StepPlan}

theorem Shows.allows (h : b.Shows a plans) : b.Allows (a.plan L) := by
  constructor
  · rw [h.waiting_eq]
    exact (Limits.taken_initial a.running a.waiting).map _
  · have hplaced := (a.placed_perm L).map (·.seq.id)
    have hsurvivors := (a.survivors_perm L).map (·.seq.id)
    rw [h.running_eq]
    simp only [Ledger.placed, List.map_append, List.map_map, Function.comp_def, Slot.seq_place,
      Sequence.id_withState] at hplaced hsurvivors
    simp only [Ledger.plan, List.append_assoc]
    exact (hplaced.trans (hsurvivors.append_left _)).symm

theorem Shows.follow (h : b.Shows a plans) :
    (b.follow (a.plan L)).Shows (a.scheduled L) (plans ++ [a.plan L]) where
  waiting_eq := by
    simp only [Board.follow, Ledger.plan, Ledger.scheduled, Ledger.left, h.waiting_eq,
      List.map_append, List.map_reverse, List.map_map, List.map_drop, List.length_map]
    rfl
  running_eq := by
    simp [Board.follow, Ledger.plan, Ledger.scheduled, Function.comp_def]
  retired_eq := by
    simp [Board.follow, h.retired_eq, finishedIds]
  balance id := by
    have hcount := (h.allows (L := L)).2.count_eq id
    have hbefore := h.balance id
    simp only [List.count_append] at hcount
    simp only [times_append, Board.follow, List.count_append]
    simp only [times, List.flatMap_singleton]
    simp only [times] at hbefore
    omega

theorem Shows.read (h : b.Shows a plans) (o : SchedulerOp) :
    ∃ b', b.read (o, (a.op L o).2) = some b' ∧
      b'.Shows (a.op L o).1 (plans ++ (a.op L o).2.toList) := by
  cases o with
  | submit id prompt maxNewTokens =>
    refine ⟨_, rfl, ?_⟩
    rw [Ledger.op, Option.toList_none, List.append_nil]
    constructor
    · simp [Ledger.submit, h.waiting_eq, Sequence.new]
    · exact h.running_eq
    · exact h.retired_eq
    · exact h.balance
  | schedule => exact ⟨_, if_pos h.allows, h.follow⟩
  | pushToken id token isEos =>
    refine ⟨_, rfl, ?_⟩
    rw [Ledger.op, Option.toList_none, List.append_nil]
    constructor
    · exact h.waiting_eq
    · simp [Ledger.pushToken, h.running_eq, Function.comp_def]
    · exact h.retired_eq
    · exact h.balance

theorem shows_empty : empty.Shows .empty [] := ⟨rfl, rfl, rfl, fun _ => rfl⟩

theorem replay_exec (L : Limits) (ops : List SchedulerOp) :
    (Machine.exec (Ledger.op L) .empty ops).2.length = ops.length ∧
      ∃ b, (ops.zip (Machine.exec (Ledger.op L) .empty ops).2).foldlM read empty = some b ∧
        b.Shows (Machine.exec (Ledger.op L) .empty ops).1
          (Machine.exec (Ledger.op L) .empty ops).2.reduceOption := by
  have hclosed : Machine.PrefixClosed fun _ : List SchedulerOp => True := fun _ _ _ => trivial
  refine Machine.exec_invariant hclosed
    (P := fun ops (a : Ledger) answers => answers.length = ops.length ∧
      ∃ b, (ops.zip answers).foldlM read empty = some b ∧ b.Shows a answers.reduceOption)
    ?_ ?_ ops trivial
  · exact ⟨rfl, empty, rfl, shows_empty⟩
  · rintro ops o - ⟨hlen, b, hread, hshows⟩
    obtain ⟨b', hlast, hnext⟩ := hshows.read (L := L) o
    constructor
    · simp [hlen]
    · refine ⟨b', ?_, ?_⟩
      · rw [List.zip_append hlen.symm, List.foldlM_append, hread]
        simpa using hlast
      · rw [← List.concat_eq_append, List.reduceOption_concat]
        exact hnext

end Board

end ForgeInfer
