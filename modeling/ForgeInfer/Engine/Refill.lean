import ForgeInfer.Engine.Agreement
import ForgeInfer.Scheduler.Offer

/-! # Refilling freed places

Retirement is the last phase, so a sequence that finished in one step keeps its place and
its blocks while the next one admits. When nothing is preempted, a request is left waiting
for want of room exactly unless such a sequence stood in its way.
-/

namespace ForgeInfer

namespace Ledger

variable {L : Limits} {a : Ledger}

theorem survivors_of_no_victims (h : a.victims L = []) : a.survivors L = a.placed L := by
  have hl := (a.placed_perm L).length_eq
  rw [h, List.nil_append] at hl
  exact (a.survivors_sublist L).eq_of_length hl.symm

theorem batch_eq_placed (h : a.victims L = []) (hi : ∀ x ∈ a.placed L, x.seq.isComplete = false) :
    a.batch L = a.placed L := by
  rw [batch, survivors_of_no_victims h, List.filter_eq_self]
  intro x hx
  rw [hi x hx]
  rfl

/-- With nothing preempted, a request left at the front has no room beside the batch exactly
if nothing that runs is complete, or the batch leaves it no blocks. -/
theorem Valid.first_without_room_iff (hv : a.Valid L) (h : a.victims L = []) {s : Sequence}
    {rest : List Sequence} (hs : a.left L = s :: rest) :
    (a.batch L).length = L.maxBatchSize ∨
        L.numBlocks < L.used (a.scheduled L).running + L.blocks s.totalLen ↔
      (∀ x ∈ a.placed L, x.seq.isComplete = false) ∨
        L.numBlocks < L.used (a.scheduled L).running + L.blocks s.totalLen := by
  have hle : (a.placed L).length ≤ L.maxBatchSize := Limits.length_taken_le hv.length_le _
  refine or_congr_left' fun hfit => ?_
  constructor
  · intro hfull
    have hsub : (a.batch L).Sublist (a.placed L) := by
      rw [batch, survivors_of_no_victims h]
      exact List.filter_sublist
    have heq : a.batch L = a.placed L := hsub.eq_of_length_le (hfull ▸ hle)
    intro x hx
    rw [← heq] at hx
    exact incomplete_of_mem_batch hx
  · intro hi
    have heq := batch_eq_placed h hi
    rw [heq]
    by_contra hne
    apply hfit
    have hstop := Limits.taken_stop hs (lt_of_le_of_ne hle hne)
    have hgrow : L.used (a.placed L) ≤ L.used (a.scheduled L).running := by
      rw [Ledger.scheduled, heq]
      exact L.used_le_demand _
    exact hstop.trans_le (Nat.add_le_add_right hgrow _)

end Ledger

namespace Scheduler

variable {L : Limits} {s s' : Scheduler} {a : Ledger}

/-- Whoever waits at the front after an iteration waits for a place in a full batch or for
blocks that are not free. -/
def Refilled (s' : Scheduler) (plan : StepPlan) : Prop :=
  ∀ x ∈ s'.waiting.head?, plan.decodeBatch.length = s'.config.maxBatchSize ∨
    s'.cache.freeBlocks < x.totalLen ⌈/⌉ s'.cache.blockSize

def decodeBlocks (blockSize : ℕ) (run : List Sequence) : ℕ :=
  ((run.filter fun y => !y.isComplete).map fun y => ((y.totalLen + 1) ⌈/⌉ blockSize : ℕ)).sum

/-- Of the sequences that run with the queue's front, none is complete, or those that decode
on leave no blocks for who comes next. -/
def NoneInTheWay (s : Scheduler) (front rest : List Sequence) : Prop :=
  ∀ x ∈ rest.head?, (∀ y ∈ s.running ++ front, y.isComplete = false) ∨
    s.cache.numBlocks <
      decodeBlocks s.cache.blockSize (s.running ++ front) + x.totalLen ⌈/⌉ s.cache.blockSize

theorem decodeBlocks_bare (blockSize : ℕ) (run : List Sequence) :
    decodeBlocks blockSize (run.map (·.bare)) = decodeBlocks blockSize run := by
  simp only [decodeBlocks, List.filter_map, List.map_map]
  rfl

theorem forall_incomplete_bare (run : List Sequence) :
    (∀ y ∈ run.map (·.bare), y.isComplete = false) ↔ ∀ y ∈ run, y.isComplete = false := by
  rw [List.forall_mem_map]
  rfl

theorem used_scheduled_of_no_victims (hs : a.Synced) (h : a.victims L = []) :
    L.used (a.scheduled L).running = decodeBlocks L.blockSize ((a.placed L).map Slot.seq) := by
  unfold decodeBlocks Limits.used Ledger.scheduled Ledger.batch
  rw [Ledger.survivors_of_no_victims h, List.filter_map, List.map_map, List.map_map]
  refine congrArg List.sum (List.map_congr_left fun x hx => ?_)
  obtain ⟨hx, hc⟩ := List.mem_filter.mp hx
  have hg := Slot.held_grow_of_incomplete (x := x) (by simpa using hc)
  simp only [Function.comp_def, hg, hs.placed L x hx]
  rfl

theorem Refines.refills_iff (h : s.Refines L a) (h' : s'.Refines L (a.scheduled L))
    (hv : a.Valid L) (hs : a.Synced) (hnone : (a.plan L).preempted = []) :
    s'.Refilled (a.plan L) ↔ s.NoneInTheWay (a.taken L) (a.left L) := by
  have hvic : a.victims L = [] := List.map_eq_nil_iff.mp hnone
  have hw : s'.waiting = a.left L := by
    rw [h'.waiting_eq, Ledger.scheduled, hvic]
    rfl
  have hlen : (a.plan L).decodeBatch.length = (a.batch L).length := List.length_map _
  have hfree := h'.cache.freeBlocks_eq
  have hu := h'.cache.used_le
  unfold Refilled NoneInTheWay
  rw [hw, h'.maxBatchSize_eq, h'.cache.blockSize_eq, h.cache.blockSize_eq, h.cache.numBlocks_eq,
    hlen, hfree]
  refine forall₂_congr fun x hx => ?_
  obtain ⟨rest, hleft⟩ := List.head?_eq_some_iff.mp hx
  have hrun : decodeBlocks L.blockSize (s.running ++ a.taken L) =
      L.used (a.scheduled L).running := by
    rw [used_scheduled_of_no_victims hs hvic, ← decodeBlocks_bare, ← h.bare_placed,
      decodeBlocks_bare]
  have hinc : (∀ y ∈ s.running ++ a.taken L, y.isComplete = false) ↔
      ∀ y ∈ a.placed L, y.seq.isComplete = false := by
    rw [← forall_incomplete_bare, ← h.bare_placed, forall_incomplete_bare, List.forall_mem_map]
  have hroom : L.numBlocks - L.used (a.scheduled L).running < x.totalLen ⌈/⌉ L.blockSize ↔
      L.numBlocks < L.used (a.scheduled L).running + L.blocks x.totalLen := by
    unfold Limits.blocks
    omega
  rw [hrun, hinc, hroom]
  exact hv.first_without_room_iff hvic hleft

end Scheduler

open Scheduler in
/-- After every run of an engine, an iteration that preempts nothing leaves a request waiting
only for a full batch or for blocks, if and only if no completed sequence stood in its way. -/
theorem refilled_iff (m : Model) (maxBatchSize numBlocks blockSize : ℕ) (hb : 0 < blockSize)
    (ops : List EngineOp) (hids : (submittedTo ops).Nodup) :
    ∃ e answers s' plan,
      Machine.run Engine.op (.new m ⟨maxBatchSize⟩ (.new numBlocks blockSize hb)) ops =
        some (e, answers) ∧
      e.scheduler.schedule = some (s', plan) ∧ (∃ front rest, e.scheduler.Offers front rest) ∧
      ∀ front rest, e.scheduler.Offers front rest → plan.preempted = [] →
        (s'.Refilled plan ↔ e.scheduler.NoneInTheWay front rest) := by
  let L : Limits := ⟨maxBatchSize, numBlocks, blockSize, hb⟩
  have hv := (Ledger.serves_exec L m ops hids).valid
  obtain ⟨e, hr, he⟩ := Engine.run_refines L m ops hids
  obtain ⟨s', hsch, hs'⟩ := schedule_refines hv he.scheduler
  refine ⟨e, _, s', _, hr, hsch, ⟨_, _, he.scheduler.offers hv⟩, ?_⟩
  intro front rest hoffers hnone
  obtain ⟨rfl, rfl⟩ := (he.scheduler.offers_iff hv).mp hoffers
  exact he.scheduler.refills_iff hs' hv (Ledger.synced_exec L m ops) hnone

theorem refilled_iff_behind_a_full_batch :
    let m : Model := ⟨2, 1, 0, fun _ => ⟨[0, 1]⟩⟩
    let ops : List EngineOp := [.submit 1 [5] 2, .submit 2 [6] 1, .step]
    (submittedTo ops).Nodup ∧ ∃ e answers s' plan,
      Machine.run Engine.op (.new m ⟨1⟩ (.new 8 1 (by decide))) ops = some (e, answers) ∧
      e.scheduler.schedule = some (s', plan) ∧ (∃ front rest, e.scheduler.Offers front rest) ∧
      ∀ front rest, e.scheduler.Offers front rest → plan.preempted = [] →
        (s'.Refilled plan ↔ e.scheduler.NoneInTheWay front rest) :=
  ⟨by decide, refilled_iff _ 1 8 1 (by decide) _ (by decide)⟩

/-- When the first request has its one token, the call that retires it leaves the second
waiting with the batch empty and all blocks free. -/
theorem freed_place_stays_empty :
    let m : Model := ⟨2, 1, 0, fun _ => ⟨[0, 1]⟩⟩
    let ops : List EngineOp := [.submit 1 [5] 1, .submit 2 [6] 1, .step]
    (submittedTo ops).Nodup ∧ ∃ e answers s' plan,
      Machine.run Engine.op (.new m ⟨1⟩ (.new 8 1 (by decide))) ops = some (e, answers) ∧
      e.scheduler.schedule = some (s', plan) ∧ plan.preempted = [] ∧
      s'.waiting.map (·.id) = [2] ∧ plan.decodeBatch = [] ∧ s'.cache.freeBlocks = 8 ∧
      ¬s'.Refilled plan := by
  intro m ops
  let e₀ := Engine.new m ⟨1⟩ (.new 8 1 (by decide))
  have hrun : (Machine.run Engine.op e₀ ops).bind (fun r => r.1.scheduler.schedule.map fun p =>
      (p.2, p.1.waiting, p.1.cache.freeBlocks, p.1.config.maxBatchSize, p.1.cache.blockSize)) =
      some (⟨[], [], [], [1]⟩, [⟨2, [6], [], 1, .waiting⟩], 8, 1, 1) := by decide
  obtain ⟨⟨e, answers⟩, hr, hs⟩ := Option.bind_eq_some_iff.mp hrun
  obtain ⟨⟨s', plan⟩, hs, hp⟩ := Option.map_eq_some_iff.mp hs
  simp only [Prod.mk.injEq] at hp
  obtain ⟨rfl, hw, hfree, hbatch, hblock⟩ := hp
  refine ⟨by decide, e, answers, s', _, hr, hs, rfl, by rw [hw]; rfl, rfl, hfree, fun h => ?_⟩
  have hfront := h ⟨2, [6], [], 1, .waiting⟩ (by rw [hw]; rfl)
  rw [hbatch, hfree, hblock] at hfront
  exact absurd hfront (by decide)

end ForgeInfer
