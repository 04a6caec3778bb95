import ForgeInfer.Engine.Agreement
import ForgeInfer.Engine.Drive

/-! # Continuous batching terminates

A live sequence has some tokens to go, bounded by its limit and by what the cache can hold
of it alone, and a retirement. Every survivor of an iteration does one of these. When all
requests fit on their own an iteration always has a survivor, so the work runs out.
-/

namespace ForgeInfer

/-- Steps a sequence can still take on a cache of its own. -/
def Sequence.remaining (L : Limits) (s : Sequence) : ℕ :=
  min s.maxNewTokens (L.numBlocks * L.blockSize - s.prompt.length) - s.output.length + 1

def Sequence.Fits (L : Limits) (s : Sequence) : Prop :=
  s.output.length ≤ s.maxNewTokens ∧ L.blocks (s.prompt.length + s.maxNewTokens) ≤ L.numBlocks

theorem Sequence.fits_of_bare {L : Limits} {s s' : Sequence} (h : s.bare = s'.bare)
    (hs : s.Fits L) : s'.Fits L := by
  obtain ⟨-, hp, ho, hm⟩ := fields_of_bare h
  rwa [Fits, hp, ho, hm] at hs

def Sequence.HasRoom (L : Limits) (s : Sequence) : Prop :=
  L.blocks s.totalLen ≤ L.numBlocks ∧
    (s.isComplete = false → L.blocks (s.totalLen + 1) ≤ L.numBlocks)

theorem Sequence.Fits.hasRoom {L : Limits} {s : Sequence} (h : s.Fits L) : s.HasRoom L := by
  obtain ⟨ho, hb⟩ := h
  constructor
  · exact (L.blocks_mono (Nat.add_le_add_left ho _)).trans hb
  · intro hc
    rw [isComplete, decide_eq_false_iff_not, not_le] at hc
    exact (L.blocks_mono (Nat.add_le_add_left hc _)).trans hb

namespace Ledger

variable {L : Limits} {m : Model} {a : Ledger}

def remaining (L : Limits) (a : Ledger) : ℕ := (a.live.map (·.remaining L)).sum

theorem live_of_no_remaining (h : a.remaining L = 0) : a.live = [] := by
  cases hl : a.live with
  | nil => rfl
  | cons s rest =>
    rw [remaining, hl, List.map_cons, List.sum_cons, Sequence.remaining] at h
    omega

theorem remaining_decode_lt (m : Model) {x : Slot} (hc : x.seq.isComplete = false)
    (hroom : x.seq.totalLen + 1 ≤ L.numBlocks * L.blockSize) :
    (x.decode m).seq.remaining L + 1 ≤ x.seq.remaining L := by
  simp only [Sequence.isComplete, decide_eq_false_iff_not, Sequence.totalLen] at hc hroom
  simp only [Sequence.remaining, Slot.decode, Sequence.pushToken, List.length_append,
    List.length_singleton]
  split <;> omega

theorem room_of_mem_scheduled (hv : a.Valid L) (hs : a.Synced) {x : Slot}
    (hx : x ∈ (a.scheduled L).running) :
    x.seq.isComplete = false ∧ x.seq.totalLen + 1 ≤ L.numBlocks * L.blockSize := by
  obtain ⟨y, hy, rfl⟩ := List.mem_map.mp hx
  have hc := incomplete_of_mem_batch hy
  have hheld := hs.survivors L y (List.mem_of_mem_filter hy)
  have hle : L.blocks y.grow.held ≤ L.numBlocks :=
    (List.single_le_sum (fun _ _ => Nat.zero_le _) _ (List.mem_map_of_mem hx)).trans
      hv.scheduled.used_running_le
  rw [Slot.held_grow_of_incomplete hc, hheld, Limits.blocks,
    Blocks.ceilDiv_le_iff L.blockSize_pos] at hle
  rw [Slot.seq_grow]
  exact ⟨hc, hle⟩

theorem sum_add_length_le {f g : Slot → ℕ} {run : List Slot} (h : ∀ x ∈ run, f x + 1 ≤ g x) :
    (run.map f).sum + run.length ≤ (run.map g).sum := by
  induction run with
  | nil => exact le_rfl
  | cons x run ih =>
    have hx := h x List.mem_cons_self
    have hrest := ih fun y hy => h y (List.mem_cons_of_mem x hy)
    simp only [List.map_cons, List.sum_cons, List.length_cons]
    omega

/-- Every survivor of an iteration takes a step. -/
theorem remaining_step_le (hv : a.Valid L) (hs : a.Synced) (m : Model) :
    (a.step L m).1.remaining L + (a.survivors L).length ≤ a.remaining L := by
  have hlive : a.remaining L = (a.scheduled L).remaining L +
      ((a.retired L).map fun x => x.seq.remaining L).sum := by
    have h := ((a.live_scheduled L).map (·.remaining L)).sum_eq
    rw [List.map_append, List.sum_append, List.map_map, List.map_map, List.map_map] at h
    exact h
  have hret : (a.retired L).length ≤ ((a.retired L).map fun x => x.seq.remaining L).sum := by
    have h := List.length_le_sum_of_one_le ((a.retired L).map fun x => x.seq.remaining L)
    rw [List.length_map] at h
    apply h
    intro k hk
    obtain ⟨x, -, rfl⟩ := List.mem_map.mp hk
    exact Nat.le_add_left _ _
  have hbatch : (a.step L m).1.remaining L + (a.batch L).length ≤ (a.scheduled L).remaining L := by
    have h := sum_add_length_le fun x hx =>
      remaining_decode_lt m (room_of_mem_scheduled hv hs hx).1 (room_of_mem_scheduled hv hs hx).2
    have hlen : (a.scheduled L).running.length = (a.batch L).length := List.length_map _
    simp only [remaining, live, step, decoded, List.map_append, List.sum_append, List.map_map,
      Function.comp_def] at h ⊢
    omega
  have hlen := (a.survivors_perm L).length_eq
  rw [List.length_append] at hlen
  omega

theorem fits_decode (m : Model) {x : Slot} (h : x.seq.Fits L) (hc : x.seq.isComplete = false) :
    (x.decode m).seq.Fits L := by
  obtain ⟨hlen, hmax⟩ := Slot.limit_decode m hc
  exact ⟨hlen, (L.blocks_mono (Nat.add_le_add_left hmax _)).trans h.2⟩

theorem fits_step (h : ∀ s ∈ a.live, s.Fits L) (m : Model) :
    ∀ s ∈ (a.step L m).1.live, s.Fits L :=
  live_step_preserves Sequence.fits_of_bare (fun hc hs => fits_decode m hs hc) h

/-- When nothing survives an iteration, either nothing was placed and the head of the queue
does not fit, or the last victim cannot take its next token alone. -/
theorem no_survivors (hv : a.Valid L) (hs : a.Synced) (hb : 1 ≤ L.maxBatchSize)
    (hl : a.live ≠ []) (hnil : a.survivors L = []) :
    (a.running = [] ∧ a.taken L = [] ∧ ∃ s rest, a.waiting = s :: rest ∧
      L.numBlocks < L.blocks s.totalLen) ∨
    (∃ early v, a.victims L = early ++ [v] ∧ v ∈ a.placed L ∧ v.seq.isComplete = false ∧
      L.numBlocks < L.blocks (v.seq.totalLen + 1) ∧
      ∀ y ∈ early, Scheduler.progressKey y.seq ≤ Scheduler.progressKey v.seq) := by
  by_cases hp : a.placed L = []
  · left
    obtain ⟨hrun, ht⟩ := List.append_eq_nil_iff.mp hp
    rw [List.map_eq_nil_iff] at ht
    cases hw : a.waiting with
    | nil =>
      refine absurd ?_ hl
      rw [live, hw, hrun]
      rfl
    | cons s rest =>
      have hleft : a.waiting.drop (L.taken a.running a.waiting).length = s :: rest := by
        change a.waiting.drop (a.taken L).length = s :: rest
        rw [ht, hw]
        rfl
      have hstop := Limits.taken_stop hleft (by change (a.placed L).length < _; rw [hp]; exact hb)
      change L.numBlocks < L.used (a.placed L) + _ at hstop
      rw [hp, Limits.used_nil, Nat.zero_add] at hstop
      exact ⟨hrun, ht, s, rest, rfl, hstop⟩
  · right
    obtain ⟨early, v, hvic, hd, hle⟩ := Limits.evict_last hp hnil
    have hvp : v ∈ a.placed L :=
      (a.placed_perm L).mem_iff.mpr (List.mem_append_left _ (by rw [victims, hvic]; simp))
    have hnot := (hs.fits_alone_iff hv hvp).not.mp (not_le.mpr hd)
    rw [not_or, Bool.not_eq_true, not_le] at hnot
    exact ⟨early, v, hvic, hvp, hnot.1, hnot.2, hle⟩

theorem survivors_ne_nil (hv : a.Valid L) (hs : a.Synced) (hb : 1 ≤ L.maxBatchSize)
    (hl : a.live ≠ []) (hroom : ∀ s ∈ a.live, s.HasRoom L) : a.survivors L ≠ [] := by
  intro hnil
  rcases no_survivors hv hs hb hl hnil with
    ⟨-, -, s, rest, hw, hbig⟩ | ⟨-, v, -, hvp, hc, hbig, -⟩
  · have hmem : s ∈ a.live := List.mem_append_left _ (by rw [hw]; exact List.mem_cons_self)
    exact absurd (hroom s hmem).1 (not_le.mpr hbig)
  · obtain ⟨s, hs', hbare⟩ := bare_of_mem_placed hvp
    have hle := (hroom s hs').2 (Sequence.isComplete_of_bare hbare ▸ hc)
    rw [Sequence.totalLen_of_bare hbare] at hle
    exact absurd hle (not_le.mpr hbig)

theorem drive_drains (hb : 1 ≤ L.maxBatchSize) (m : Model) {n : ℕ} (hv : a.Valid L)
    (hs : a.Synced) (hfit : ∀ s ∈ a.live, s.Fits L) (hn : a.remaining L ≤ n) :
    (drive L m n a).1.live = [] := by
  induction n generalizing a with
  | zero => exact live_of_no_remaining (Nat.le_zero.mp hn)
  | succ n ih =>
    by_cases hl : a.live = []
    · rw [drive_of_nil hl]; exact hl
    · have hstep := remaining_step_le hv hs m
      have hne := survivors_ne_nil hv hs hb hl fun s hs' => (hfit s hs').hasRoom
      have hpos := List.length_pos_of_ne_nil hne
      rw [drive_succ hl]
      exact ih (hv.step m) (hs.step L m) (fits_step hfit m) (by omega)

theorem finished_drive (L : Limits) (m : Model) (n : ℕ) {reqs : List Request}
    (hids : (reqs.map (·.id)).Nodup) :
    ((drive L m n (loaded reqs)).1.live.map (·.id) ++
      finishedIds ((drive L m n (loaded reqs)).2.map Prod.fst)).Perm (reqs.map (·.id)) := by
  have h := serves_exec L m (driveOps L m n reqs) (by rwa [submittedTo_driveOps])
  have hp := h.places
  rwa [exec_driveOps, plansOf, reduceOption_driveAnswers, submittedTo_driveOps] at hp

theorem synced_loaded (reqs : List Request) : (loaded reqs).Synced := by rintro x ⟨⟩

theorem fits_loaded {reqs : List Request} (h : ∀ r ∈ reqs, r.Fits L.numBlocks L.blockSize) :
    ∀ s ∈ (loaded reqs).live, s.Fits L := by
  intro s hs
  rw [live_loaded] at hs
  obtain ⟨r, hr, rfl⟩ := List.mem_map.mp hs
  exact ⟨Nat.zero_le _, h r hr⟩

theorem remaining_loaded_le (L : Limits) (reqs : List Request) :
    (loaded reqs).remaining L ≤ totalWork reqs := by
  rw [remaining, live_loaded, List.map_map, totalWork]
  refine List.sum_le_sum fun r _ => ?_
  simp only [Function.comp_apply, Request.sequence, Sequence.new, Sequence.remaining,
    List.length_nil]
  omega

theorem drive_loaded_drains (hb : 1 ≤ L.maxBatchSize) (m : Model) {reqs : List Request}
    (hids : (reqs.map (·.id)).Nodup) (hfit : ∀ r ∈ reqs, r.Fits L.numBlocks L.blockSize) {n : ℕ}
    (hn : totalWork reqs ≤ n) : (drive L m n (loaded reqs)).1.live = [] :=
  drive_drains hb m (valid_loaded L hids) (synced_loaded reqs) (fits_loaded hfit)
    ((remaining_loaded_le L reqs).trans hn)

end Ledger

/-- A workload of requests that fit on their own is drained within its total work: every
request is retired by exactly one plan, the cache ends empty, and the completion loop does
not stop on its guard when that work is within it. -/
theorem batching_terminates (m : Model) (maxBatchSize numBlocks blockSize : ℕ)
    (hb : 0 < blockSize) (hbatch : 1 ≤ maxBatchSize) (reqs : List Request)
    (hids : (reqs.map (·.id)).Nodup) (hfit : ∀ r ∈ reqs, r.Fits numBlocks blockSize) :
    let e₀ := (Engine.new m ⟨maxBatchSize⟩ (.new numBlocks blockSize hb)).submitAll reqs
    (∃ e steps, e₀.drive (totalWork reqs) = some (e, steps) ∧ steps.length ≤ totalWork reqs ∧
      e.scheduler.hasWork = false ∧
      (finishedIds (steps.map Prod.fst)).Perm (reqs.map (·.id)) ∧
      e.scheduler.cache.freeBlocks = numBlocks ∧
      ∀ id, e.scheduler.cache.contains id = false) ∧
    (totalWork reqs ≤ Engine.maxIterations →
      ∃ e outputs, Engine.completionLoop Engine.maxIterations e₀ ∅ =
        some (e, outputs, .drained)) := by
  intro e₀
  let L : Limits := ⟨maxBatchSize, numBlocks, blockSize, hb⟩
  have hv := Ledger.valid_loaded L hids
  have he₀ : e₀.Refines L m (.loaded reqs) := Engine.loaded_refines L m reqs
  constructor
  · obtain ⟨e, hd, he⟩ := Engine.drive_refines hv he₀ (totalWork reqs)
    have hnil : (Ledger.drive L m (totalWork reqs) (.loaded reqs)).1.live = [] :=
      Ledger.drive_loaded_drains hbatch m hids hfit le_rfl
    have hrun := (List.append_eq_nil_iff.mp hnil).2
    rw [List.map_eq_nil_iff] at hrun
    have hcache := he.scheduler.cache
    rw [hrun] at hcache
    refine ⟨e, _, hd, Ledger.length_drive_le L m _ _, ?_, ?_, ?_, ?_⟩
    · rw [Bool.eq_false_iff]
      exact fun hw => (Engine.hasWork_iff he).mp hw hnil
    · have hp := Ledger.finished_drive L m (totalWork reqs) hids
      rwa [hnil] at hp
    · rw [hcache.freeBlocks_eq]
      rfl
    · intro id
      rw [Bool.eq_false_iff]
      intro hc
      have hm := (hcache.mem_iff id).mp (by simpa [PagedKVCache.contains] using hc)
      exact absurd hm (by simp)
  · intro hwork
    obtain ⟨e, hc⟩ := Engine.completionLoop_refines hv he₀ Engine.maxIterations ∅
    have hnil : (Ledger.drive L m Engine.maxIterations (.loaded reqs)).1.live = [] :=
      Ledger.drive_loaded_drains hbatch m hids hfit hwork
    rw [if_pos hnil] at hc
    exact ⟨e, _, hc⟩

/-- Two requests that outgrow the cache together, and one that asks for no token. -/
theorem batching_terminates_under_pressure :
    let m : Model := ⟨2, 1, 0, fun _ => ⟨[0, 1]⟩⟩
    let reqs : List Request := [⟨1, [5, 6], 4⟩, ⟨2, [7, 8], 3⟩, ⟨3, [9], 0⟩]
    let e₀ := (Engine.new m ⟨2⟩ (.new 3 2 (by decide))).submitAll reqs
    (∃ e steps, e₀.drive (totalWork reqs) = some (e, steps) ∧ steps.length ≤ totalWork reqs ∧
      e.scheduler.hasWork = false ∧
      (finishedIds (steps.map Prod.fst)).Perm (reqs.map (·.id)) ∧
      e.scheduler.cache.freeBlocks = 3 ∧
      ∀ id, e.scheduler.cache.contains id = false) ∧
    (totalWork reqs ≤ Engine.maxIterations →
      ∃ e outputs, Engine.completionLoop Engine.maxIterations e₀ ∅ =
        some (e, outputs, .drained)) :=
  batching_terminates _ 2 3 2 (by decide) (by decide) _ (by decide) (by decide)

end ForgeInfer
