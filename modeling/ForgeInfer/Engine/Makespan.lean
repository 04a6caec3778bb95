import ForgeInfer.Engine.Latency
import ForgeInfer.Engine.Termination

/-! # How many steps a workload takes

Every survivor of a step takes one of its places, and no step leaves work without a survivor.
So the steps of a workload lie between its cost shared by a full batch and its cost, which is
what serving the requests one by one takes.
-/

namespace ForgeInfer

/-- Steps that serving the requests one by one takes: their tokens and a retirement each. -/
def totalCost (m : Model) (reqs : List Request) : ℕ :=
  (reqs.map fun r => (m.greedy r.prompt r.maxNewTokens).length + 1).sum

namespace Ledger

variable {L : Limits} {m : Model} {a : Ledger} {reqs : List Request}

def backlog (m : Model) (a : Ledger) : ℕ := (a.live.map (·.cost m)).sum

theorem live_of_no_backlog (h : a.backlog m = 0) : a.live = [] := by
  cases hl : a.live with
  | nil => rfl
  | cons s rest =>
    rw [backlog, hl, List.map_cons, List.sum_cons, Sequence.cost] at h
    omega

/-- A step takes one place of the backlog for each survivor. -/
theorem backlog_step (L : Limits) (m : Model) (a : Ledger) :
    (a.step L m).1.backlog m + (a.survivors L).length = a.backlog m := by
  have hbare : ∀ s : Sequence, s.bare.cost m = s.cost m := fun s =>
    Sequence.cost_of_bare_eq (Sequence.bare_withState s .waiting) m
  have hlive : a.backlog m = (a.scheduled L).backlog m + runningCost m (a.retired L) := by
    have h := ((a.live_scheduled L).map (·.cost m)).sum_eq
    rw [List.map_append, List.sum_append, List.map_map, List.map_map, List.map_map] at h
    simp only [Function.comp_def, hbare] at h
    exact h
  have hsplit : ∀ b : Ledger,
      b.backlog m = (b.waiting.map (·.cost m)).sum + runningCost m b.running := by
    intro b
    rw [backlog, live, List.map_append, List.sum_append, List.map_map]
    rfl
  have hdec := runningCost_decoded m fun x hx => incomplete_of_mem_scheduled (L := L) (a := a) hx
  have hret := runningCost_retired L m a
  have hlen : (a.scheduled L).running.length = (a.batch L).length := List.length_map _
  have hsurv := (a.survivors_perm L).length_eq
  rw [List.length_append] at hsurv
  have hstep : (a.step L m).1.backlog m = ((a.scheduled L).waiting.map (·.cost m)).sum +
      runningCost m ((a.scheduled L).running.map (Slot.decode m)) := hsplit _
  have hsched := hsplit (a.scheduled L)
  omega

theorem length_survivors_le (hv : a.Valid L) : (a.survivors L).length ≤ L.maxBatchSize :=
  (a.survivors_sublist L).length_le.trans (Limits.length_taken_le hv.length_le _)

theorem drive_within_backlog (hb : 1 ≤ L.maxBatchSize) (m : Model) {n : ℕ} (hv : a.Valid L)
    (hs : a.Synced) (hfit : ∀ s ∈ a.live, s.Fits L) (hn : a.backlog m ≤ n) :
    (drive L m n a).1.live = [] ∧ (drive L m n a).2.length ≤ a.backlog m ∧
      a.backlog m ≤ L.maxBatchSize * (drive L m n a).2.length := by
  induction n generalizing a with
  | zero =>
    have hz := Nat.le_zero.mp hn
    exact ⟨live_of_no_backlog hz, Nat.zero_le _, hz.le.trans (Nat.zero_le _)⟩
  | succ n ih =>
    by_cases hl : a.live = []
    · have hz : a.backlog m = 0 := by rw [backlog, hl]; rfl
      rw [drive_of_nil hl]
      exact ⟨hl, Nat.zero_le _, hz.le⟩
    · have hstep := backlog_step L m a
      have hle := length_survivors_le hv
      have hpos := List.length_pos_of_ne_nil
        (survivors_ne_nil hv hs hb hl fun s hmem => (hfit s hmem).hasRoom)
      obtain ⟨hnil, hup, hlow⟩ := ih (hv.step m) (hs.step L m) (fits_step hfit m) (by omega)
      rw [drive_succ hl, List.length_cons, Nat.mul_succ]
      exact ⟨hnil, by omega, by omega⟩

theorem backlog_loaded (m : Model) (reqs : List Request) :
    (loaded reqs).backlog m = totalCost m reqs := by
  rw [backlog, live_loaded, List.map_map, totalCost]
  congr 1
  refine List.map_congr_left fun r _ => ?_
  simp [Request.sequence, Sequence.cost, Sequence.owed, Sequence.new]

end Ledger

/-- A workload whose requests fit is drained in at most as many steps as serving the requests one
by one takes, and a batch of `b` takes no fewer than a `b`-th of them; a batch of one takes
exactly as many. -/
theorem makespan_within_cost (m : Model) (maxBatchSize numBlocks blockSize : ℕ)
    (hb : 0 < blockSize) (hbatch : 1 ≤ maxBatchSize) (reqs : List Request)
    (hids : (reqs.map (·.id)).Nodup) (hfit : ∀ r ∈ reqs, r.Fits numBlocks blockSize) :
    ∃ e steps,
      ((Engine.new m ⟨maxBatchSize⟩ (.new numBlocks blockSize hb)).submitAll reqs).drive
        (totalCost m reqs) = some (e, steps) ∧
      e.scheduler.hasWork = false ∧ steps.length ≤ totalCost m reqs ∧
      totalCost m reqs ≤ maxBatchSize * steps.length ∧
      (maxBatchSize = 1 → steps.length = totalCost m reqs) := by
  let L : Limits := ⟨maxBatchSize, numBlocks, blockSize, hb⟩
  have hv := Ledger.valid_loaded L hids
  have he₀ : (Engine.loaded L m reqs).Refines L m (.loaded reqs) := Engine.loaded_refines L m reqs
  obtain ⟨e, hd, he⟩ := Engine.drive_refines hv he₀ (totalCost m reqs)
  have hcost := Ledger.backlog_loaded m reqs
  obtain ⟨hnil, hup, hlow⟩ := Ledger.drive_within_backlog (L := L) hbatch m hv
    (Ledger.synced_loaded reqs) (Ledger.fits_loaded hfit) hcost.le
  rw [hcost] at hup hlow
  refine ⟨e, _, hd, ?_, hup, hlow, ?_⟩
  · rw [Bool.eq_false_iff]
    exact fun hw => (Engine.hasWork_iff he).mp hw hnil
  · intro hone
    have hle : totalCost m reqs ≤ maxBatchSize * _ := hlow
    rw [hone, Nat.one_mul] at hle
    exact le_antisymm hup hle

theorem makespan_within_cost_under_pressure :
    let m : Model := ⟨2, 1, 0, fun _ => ⟨[0, 1]⟩⟩
    let reqs : List Request := [⟨1, [5, 6], 4⟩, ⟨2, [7, 8], 3⟩, ⟨3, [9], 0⟩]
    ∃ e steps,
      ((Engine.new m ⟨2⟩ (.new 3 2 (by decide))).submitAll reqs).drive (totalCost m reqs) =
        some (e, steps) ∧
      e.scheduler.hasWork = false ∧ steps.length ≤ totalCost m reqs ∧
      totalCost m reqs ≤ 2 * steps.length ∧ (2 = 1 → steps.length = totalCost m reqs) :=
  makespan_within_cost _ 2 3 2 (by decide) (by decide) _ (by decide) (by decide)

end ForgeInfer
