import ForgeInfer.Engine.Agreement
import ForgeInfer.Scheduler.Offer
import ForgeInfer.Scheduler.Victims

/-! # When preemption empties the batch

Admission reserves the tokens a sequence has, decoding asks for one more. Victims leave
until the rest can grow, and the last to leave is the most progressed one. So an iteration
that has something running after admission comes to nothing exactly when that sequence
would outgrow the whole cache on its own.
-/

namespace ForgeInfer

open Scheduler (progressKey)

namespace Ledger

variable {L : Limits} {a : Ledger}

theorem Valid.survivors_eq_nil_iff (hv : a.Valid L) (hne : a.placed L ≠ []) :
    a.survivors L = [] ↔ ∃ x ∈ a.placed L,
      (∀ y ∈ a.placed L, progressKey y.seq ≤ progressKey x.seq) ∧ ¬L.Fits [x] := by
  constructor
  · intro hnil
    obtain ⟨early, x, he, hbig, hle⟩ := Limits.evict_last hne hnil
    have hp := a.placed_perm L
    rw [hnil, List.append_nil, victims, he] at hp
    refine ⟨x, hp.mem_iff.mpr (by simp), ?_, not_le.mpr hbig⟩
    intro y hy
    rcases List.mem_append.mp (hp.mem_iff.mp hy) with hy | hy
    · exact hle y hy
    · rw [List.mem_singleton.mp hy]
  · rintro ⟨x, hx, hle, hbig⟩
    exact Limits.evict_all hv.placed_nodup le_rfl hx (not_le.mp hbig) hle

theorem survivors_eq_nil_iff_plan (L : Limits) (a : Ledger) :
    a.survivors L = [] ↔ (a.plan L).decodeBatch = [] ∧ (a.plan L).finished = [] := by
  have hp := (a.survivors_perm L).length_eq
  rw [List.length_append] at hp
  simp only [plan, ← List.length_eq_zero_iff, List.length_map]
  omega

end Ledger

namespace Scheduler

variable {L : Limits} {s : Scheduler} {a : Ledger} {A : Admission}

/-- The most progressed of some sequences is complete, or fits in the whole cache with its
next token. -/
def TopCanDecode (s : Scheduler) (run : List Sequence) : Prop :=
  ∀ x ∈ run, (∀ y ∈ run, progressKey y ≤ progressKey x) →
    x.isComplete = true ∨ (x.totalLen + 1) ⌈/⌉ s.cache.blockSize ≤ s.cache.numBlocks

theorem topCanDecode_bare (s : Scheduler) (run : List Sequence) :
    s.TopCanDecode (run.map (·.bare)) ↔ s.TopCanDecode run := by
  simp only [TopCanDecode, List.forall_mem_map]
  rfl

theorem Refines.topCanDecode_iff (h : s.Refines L a) (hs : a.Synced) (hv : a.Valid L) :
    s.TopCanDecode (s.running ++ a.taken L) ↔ (a.placed L ≠ [] → a.survivors L ≠ []) := by
  rw [← topCanDecode_bare, ← h.bare_placed, topCanDecode_bare]
  unfold TopCanDecode
  rw [List.forall_mem_map, h.cache.blockSize_eq, h.cache.numBlocks_eq]
  constructor
  · intro hall hne hnil
    obtain ⟨x, hx, hle, hbig⟩ := (hv.survivors_eq_nil_iff hne).mp hnil
    exact hbig ((hs.fits_alone_iff hv hx).mpr (hall x hx (List.forall_mem_map.mpr hle)))
  · intro hsurv x hx hle
    have hne : a.placed L ≠ [] := List.ne_nil_of_mem hx
    by_contra hbig
    refine hsurv hne ((hv.survivors_eq_nil_iff hne).mpr ⟨x, hx, List.forall_mem_map.mp hle, ?_⟩)
    exact fun hfit => hbig ((hs.fits_alone_iff hv hx).mp hfit)

end Scheduler

open Scheduler in
/-- After every run of an engine, an iteration that has something running after admission
decodes or finishes something if and only if the most progressed of what runs and what the
queue offers is complete or fits in the whole cache with its next token. -/
theorem advances_iff (m : Model) (maxBatchSize numBlocks blockSize : ℕ) (hb : 0 < blockSize)
    (ops : List EngineOp) (hids : (submittedTo ops).Nodup) :
    ∃ e answers A s' plan,
      Machine.run Engine.op (.new m ⟨maxBatchSize⟩ (.new numBlocks blockSize hb)) ops =
        some (e, answers) ∧
      admissionLoop maxBatchSize e.scheduler.waiting e.scheduler.cache e.scheduler.running [] =
        some A ∧
      e.scheduler.schedule = some (s', plan) ∧ (∃ front rest, e.scheduler.Offers front rest) ∧
      ∀ front rest, e.scheduler.Offers front rest →
        ((A.running ≠ [] → plan.decodeBatch ≠ [] ∨ plan.finished ≠ []) ↔
          e.scheduler.TopCanDecode (e.scheduler.running ++ front)) := by
  let L : Limits := ⟨maxBatchSize, numBlocks, blockSize, hb⟩
  have hv := (Ledger.serves_exec L m ops hids).valid
  obtain ⟨e, hr, he⟩ := Engine.run_refines L m ops hids
  obtain ⟨A, P, C, s', hi⟩ := schedule_iteration hv he.scheduler
  have hA := hi.admission
  rw [he.scheduler.maxBatchSize_eq] at hA
  refine ⟨e, _, A, s', _, hr, hA, hi.schedule, ⟨_, _, he.scheduler.offers hv⟩, ?_⟩
  intro front rest hoffers
  obtain ⟨rfl, -⟩ := (he.scheduler.offers_iff hv).mp hoffers
  rw [he.scheduler.topCanDecode_iff (Ledger.synced_exec L m ops) hv, hi.placed_eq]
  simp only [ne_eq, List.map_eq_nil_iff, Ledger.survivors_eq_nil_iff_plan, not_and_or]

/-- Two requests that fill the cache, the first of which can go on when the second leaves. -/
theorem advances_iff_under_pressure :
    let m : Model := ⟨2, 1, 0, fun _ => ⟨[0, 1]⟩⟩
    let ops : List EngineOp := [.submit 1 [5, 6] 3, .submit 2 [7] 3]
    (submittedTo ops).Nodup ∧ ∃ e answers A s' plan,
      Machine.run Engine.op (.new m ⟨2⟩ (.new 3 1 (by decide))) ops = some (e, answers) ∧
      Scheduler.admissionLoop 2 e.scheduler.waiting e.scheduler.cache e.scheduler.running [] =
        some A ∧
      e.scheduler.schedule = some (s', plan) ∧ (∃ front rest, e.scheduler.Offers front rest) ∧
      ∀ front rest, e.scheduler.Offers front rest →
        ((A.running ≠ [] → plan.decodeBatch ≠ [] ∨ plan.finished ≠ []) ↔
          e.scheduler.TopCanDecode (e.scheduler.running ++ front)) :=
  ⟨by decide, advances_iff _ 2 3 1 (by decide) _ (by decide)⟩

/-- A prompt that fills the cache is admitted and preempted in one call. -/
theorem batch_is_emptied :
    let m : Model := ⟨2, 1, 0, fun _ => ⟨[0, 1]⟩⟩
    let ops : List EngineOp := [.submit 1 [5] 1]
    (submittedTo ops).Nodup ∧ ∃ e answers A s' plan,
      Machine.run Engine.op (.new m ⟨1⟩ (.new 1 1 (by decide))) ops = some (e, answers) ∧
      Scheduler.admissionLoop 1 e.scheduler.waiting e.scheduler.cache e.scheduler.running [] =
        some A ∧
      e.scheduler.schedule = some (s', plan) ∧ A.running ≠ [] ∧
      ¬(plan.decodeBatch ≠ [] ∨ plan.finished ≠ []) ∧ plan.preempted = [1] := by
  intro m ops
  let e : Engine := (Engine.new m ⟨1⟩ (.new 1 1 (by decide))).submit 1 [5] 1
  have hplan : e.scheduler.schedule.map Prod.snd = some ⟨[1], [], [1], []⟩ := by decide
  have hrun : (Scheduler.admissionLoop 1 e.scheduler.waiting e.scheduler.cache
      e.scheduler.running []).map Scheduler.Admission.running =
        some [⟨1, [5], [], 1, .running⟩] := by decide
  obtain ⟨⟨s', plan⟩, hs, rfl⟩ := Option.map_eq_some_iff.mp hplan
  obtain ⟨A, hA, hone⟩ := Option.map_eq_some_iff.mp hrun
  refine ⟨by decide, e, _, A, s', _, rfl, hA, hs, ?_, by decide, rfl⟩
  rw [hone]
  exact List.cons_ne_nil _ _

end ForgeInfer
