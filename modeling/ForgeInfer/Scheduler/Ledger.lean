import ForgeInfer.Foundation.Blocks
import ForgeInfer.Foundation.Trim
import ForgeInfer.Scheduler.Basic
import Mathlib.Algebra.Order.BigOperators.Group.List

/-! # The ledger

What the scheduler does to its requests, with the cache reduced to one number for each
running sequence: the tokens held for it. An iteration places a prefix of the queue,
evicts the least progressed sequences until the others fit with one more token each,
and retires what is complete. No step of it can fail.
-/

namespace ForgeInfer

namespace Sequence

def withState (s : Sequence) (state : SeqState) : Sequence := { s with state := state }

/-- A sequence with its lifecycle state forgotten. -/
def bare (s : Sequence) : Sequence := s.withState .waiting

variable (s : Sequence) (state : SeqState)

@[simp] theorem id_withState : (s.withState state).id = s.id := rfl
@[simp] theorem bare_withState : (s.withState state).bare = s.bare := rfl
@[simp] theorem id_bare : s.bare.id = s.id := rfl

theorem fields_of_bare {s s' : Sequence} (h : s.bare = s'.bare) :
    s.id = s'.id ∧ s.prompt = s'.prompt ∧ s.output = s'.output ∧
      s.maxNewTokens = s'.maxNewTokens := by
  simp only [bare, withState, mk.injEq, and_true] at h
  exact h

theorem isComplete_of_bare {s s' : Sequence} (h : s.bare = s'.bare) :
    s.isComplete = s'.isComplete := by
  obtain ⟨-, -, ho, hm⟩ := fields_of_bare h
  rw [isComplete, isComplete, ho, hm]

theorem totalLen_of_bare {s s' : Sequence} (h : s.bare = s'.bare) :
    s.totalLen = s'.totalLen := by
  obtain ⟨-, hp, ho, -⟩ := fields_of_bare h
  rw [totalLen, totalLen, hp, ho]

end Sequence

/-- A running sequence and the tokens the cache holds for it. -/
structure Slot where
  seq : Sequence
  held : ℕ
  deriving DecidableEq

namespace Slot

def place (s : Sequence) : Slot := ⟨s.withState .running, s.totalLen⟩

/-- One more token reserved, unless the sequence is complete. -/
def grow (x : Slot) : Slot := if x.seq.isComplete then x else { x with held := x.held + 1 }

def pushToken (id : SeqId) (token : TokenId) (isEos : Bool) (x : Slot) : Slot :=
  if x.seq.id = id then { x with seq := x.seq.pushToken token isEos } else x

def preempt (x : Slot) : Sequence := x.seq.withState .preempted

section

variable (id : SeqId) (token : TokenId) (isEos : Bool) (x : Slot)

@[simp] theorem id_pushToken : (x.pushToken id token isEos).seq.id = x.seq.id := by
  unfold pushToken; split <;> rfl

@[simp] theorem state_pushToken : (x.pushToken id token isEos).seq.state = x.seq.state := by
  unfold pushToken; split <;> rfl

@[simp] theorem held_pushToken : (x.pushToken id token isEos).held = x.held := by
  unfold pushToken; split <;> rfl

end

@[simp] theorem seq_place (s : Sequence) : (place s).seq = s.withState .running := rfl
@[simp] theorem held_place (s : Sequence) : (place s).held = s.totalLen := rfl

@[simp] theorem seq_grow (x : Slot) : x.grow.seq = x.seq := by unfold grow; split <;> rfl

theorem pushToken_of_eq {x : Slot} {id : SeqId} (h : x.seq.id = id) (token : TokenId)
    (isEos : Bool) :
    x.pushToken id token isEos = { x with seq := x.seq.pushToken token isEos } :=
  if_pos h

theorem pushToken_of_ne {x : Slot} {id : SeqId} (h : x.seq.id ≠ id) (token : TokenId)
    (isEos : Bool) : x.pushToken id token isEos = x :=
  if_neg h

theorem held_le_grow (x : Slot) : x.held ≤ x.grow.held := by
  unfold grow; split <;> simp

theorem held_grow_of_incomplete {x : Slot} (h : x.seq.isComplete = false) :
    x.grow.held = x.held + 1 := by
  simp [grow, h]

theorem grow_of_complete {x : Slot} (h : x.seq.isComplete = true) : x.grow = x := by
  simp [grow, h]

end Slot

structure Limits where
  maxBatchSize : ℕ
  numBlocks : ℕ
  blockSize : ℕ
  blockSize_pos : 0 < blockSize

namespace Limits

def blocks (L : Limits) (n : ℕ) : ℕ := n ⌈/⌉ L.blockSize

def used (L : Limits) (run : List Slot) : ℕ := (run.map fun x => L.blocks x.held).sum

/-- Blocks in use once every incomplete sequence holds one more token. -/
def demand (L : Limits) (run : List Slot) : ℕ := L.used (run.map Slot.grow)

def taken (L : Limits) : List Slot → List Sequence → List Sequence
  | _, [] => []
  | run, s :: rest =>
    if run.length < L.maxBatchSize ∧ L.used run + L.blocks s.totalLen ≤ L.numBlocks then
      s :: L.taken (run ++ [.place s]) rest
    else []

def leastProgressed (run : List Slot) : Option Slot :=
  run.argmin fun x => Scheduler.progressKey x.seq

/-- Evict until the demand can be met: the victims in order, and the survivors. -/
def evict (L : Limits) : ℕ → List Slot → List Slot × List Slot
  | 0, run => ([], run)
  | n + 1, run =>
    if L.demand run ≤ L.numBlocks then ([], run)
    else
      match leastProgressed run with
      | none => ([], run)
      | some x => (x :: (L.evict n (run.erase x)).1, (L.evict n (run.erase x)).2)

variable {L : Limits} {run : List Slot}

theorem blocks_mono (L : Limits) {m n : ℕ} (h : m ≤ n) : L.blocks m ≤ L.blocks n :=
  Blocks.ceilDiv_mono L.blockSize_pos h

@[simp] theorem used_nil : L.used [] = 0 := rfl

@[simp] theorem used_append (run run' : List Slot) :
    L.used (run ++ run') = L.used run + L.used run' := by
  simp [used]

@[simp] theorem used_cons (x : Slot) (run : List Slot) :
    L.used (x :: run) = L.blocks x.held + L.used run := rfl

theorem used_perm {run run' : List Slot} (h : run.Perm run') : L.used run = L.used run' :=
  (h.map _).sum_eq

theorem used_sublist_le {run run' : List Slot} (h : run.Sublist run') :
    L.used run ≤ L.used run' :=
  (h.map _).sum_le_sum fun _ _ => Nat.zero_le _

@[simp] theorem demand_nil : L.demand [] = 0 := rfl

theorem used_le_demand (L : Limits) (run : List Slot) : L.used run ≤ L.demand run := by
  rw [demand, used, used, List.map_map]
  exact List.sum_le_sum fun x _ => L.blocks_mono x.held_le_grow

theorem taken_initial (run : List Slot) (waiting : List Sequence) :
    L.taken run waiting <+: waiting := by
  induction waiting generalizing run with
  | nil => exact List.nil_prefix
  | cons s rest ih =>
    rw [taken]
    split
    · exact (List.cons_prefix_cons).mpr ⟨rfl, ih _⟩
    · exact List.nil_prefix

theorem taken_append_drop (run : List Slot) (waiting : List Sequence) :
    L.taken run waiting ++ waiting.drop (L.taken run waiting).length = waiting := by
  have h := List.prefix_iff_eq_append.mp (taken_initial (L := L) run waiting)
  exact h

theorem used_taken_le (h : L.used run ≤ L.numBlocks) (waiting : List Sequence) :
    L.used (run ++ (L.taken run waiting).map .place) ≤ L.numBlocks := by
  induction waiting generalizing run with
  | nil => simpa [taken] using h
  | cons s rest ih =>
    rw [taken]
    split
    · next hs =>
      have hu : L.used (run ++ [.place s]) ≤ L.numBlocks := by
        rw [used_append]; exact hs.2
      have := ih hu
      simpa [Nat.add_assoc] using this
    · simpa using h

theorem length_taken_le (h : run.length ≤ L.maxBatchSize) (waiting : List Sequence) :
    (run ++ (L.taken run waiting).map Slot.place).length ≤ L.maxBatchSize := by
  induction waiting generalizing run with
  | nil => simpa [taken] using h
  | cons s rest ih =>
    rw [taken]
    split
    · next hs =>
      have hl : (run ++ [Slot.place s]).length ≤ L.maxBatchSize := by
        rw [List.length_append]; exact hs.1
      have := ih hl
      simpa [Nat.add_assoc] using this
    · simpa using h

/-- Admission stops only at a full batch or at a sequence that does not fit. -/
theorem taken_stop {waiting rest : List Sequence} {s : Sequence}
    (h : waiting.drop (L.taken run waiting).length = s :: rest)
    (hb : (run ++ (L.taken run waiting).map Slot.place).length < L.maxBatchSize) :
    L.numBlocks < L.used (run ++ (L.taken run waiting).map .place) + L.blocks s.totalLen := by
  induction waiting generalizing run with
  | nil => simp at h
  | cons s' rest' ih =>
    rw [taken] at h hb ⊢
    split at h
    · next hs =>
      simp only [hs, and_self, if_true] at hb ⊢
      rw [List.length_cons, List.drop_succ_cons] at h
      have := ih h (by simpa [Nat.add_assoc] using hb)
      simpa [Nat.add_assoc] using this
    · next hs =>
      obtain ⟨rfl, rfl⟩ : s' = s ∧ rest' = rest := by simpa using h
      simp only [hs, if_false, List.map_nil, List.append_nil] at hb ⊢
      rw [not_and] at hs
      exact not_le.mp (hs hb)

theorem leastProgressed_eq_none : leastProgressed run = none ↔ run = [] :=
  List.argmin_eq_none

theorem leastProgressed_mem {x : Slot} (h : leastProgressed run = some x) : x ∈ run :=
  List.argmin_mem h

theorem leastProgressed_le {x y : Slot} (h : leastProgressed run = some x) (hy : y ∈ run) :
    Scheduler.progressKey x.seq ≤ Scheduler.progressKey y.seq :=
  List.le_of_mem_argmin (f := fun x : Slot => Scheduler.progressKey x.seq) hy h

theorem evict_cases (L : Limits) (n : ℕ) (run : List Slot) :
    (L.evict (n + 1) run = ([], run) ∧ L.demand run ≤ L.numBlocks) ∨
    (∃ x, leastProgressed run = some x ∧ L.numBlocks < L.demand run ∧
      L.evict (n + 1) run =
        (x :: (L.evict n (run.erase x)).1, (L.evict n (run.erase x)).2)) := by
  by_cases hd : L.demand run ≤ L.numBlocks
  · exact Or.inl ⟨by simp [evict, hd], hd⟩
  · cases hx : leastProgressed run with
    | none =>
      rw [leastProgressed_eq_none] at hx
      subst hx
      exact absurd (Nat.zero_le _) hd
    | some x => exact Or.inr ⟨x, rfl, not_le.mp hd, by simp [evict, hd, hx]⟩

def Fits (L : Limits) (run : List Slot) : Prop := L.demand run ≤ L.numBlocks

instance (L : Limits) : DecidablePred L.Fits := fun run =>
  inferInstanceAs (Decidable (L.demand run ≤ L.numBlocks))

theorem evict_eq_trim (n : ℕ) (run : List Slot) :
    L.evict n run = Trim.trim (fun x => Scheduler.progressKey x.seq) L.Fits n run := by
  induction n generalizing run with
  | zero => rfl
  | succ n ih =>
    rcases evict_cases L n run with ⟨he, hd⟩ | ⟨x, hx, hd, he⟩
    · rw [he, Trim.trim, if_pos (show L.Fits run from hd)]
    · have hx' : run.argmin (fun x => Scheduler.progressKey x.seq) = some x := hx
      rw [he, Trim.trim, if_neg (show ¬L.Fits run from not_le.mpr hd), hx', ih]

theorem evict_perm (n : ℕ) (run : List Slot) :
    run.Perm ((L.evict n run).1 ++ (L.evict n run).2) := by
  rw [evict_eq_trim]
  exact Trim.trim_perm n run

theorem evict_sublist (n : ℕ) (run : List Slot) : (L.evict n run).2.Sublist run := by
  rw [evict_eq_trim]
  exact Trim.rest_sublist n run

theorem evict_fits {n : ℕ} (h : run.length ≤ n) : L.demand (L.evict n run).2 ≤ L.numBlocks := by
  rw [evict_eq_trim]
  exact Trim.ok_rest _ L.Fits (Nat.zero_le _) h

theorem demand_perm {run' : List Slot} (h : run.Perm run') : L.demand run = L.demand run' :=
  used_perm (h.map Slot.grow)

theorem Fits.perm {run' : List Slot} (h : run.Perm run') (hf : L.Fits run) : L.Fits run' :=
  (demand_perm h).symm.trans_le hf

theorem Fits.sublist {run' : List Slot} (h : run.Sublist run') (hf : L.Fits run') : L.Fits run :=
  (used_sublist_le (h.map Slot.grow)).trans hf

theorem eq_of_key_eq {x y : Slot} (hn : (run.map (·.seq.id)).Nodup) (hx : x ∈ run)
    (hy : y ∈ run) (h : Scheduler.progressKey x.seq = Scheduler.progressKey y.seq) : x = y := by
  have hid : x.seq.id = y.seq.id := by
    have := congrArg (fun k => OrderDual.ofDual (ofLex k).2) h
    exact this
  exact List.inj_on_of_nodup_map hn hx hy hid

theorem nodup_map_key (hn : (run.map (·.seq.id)).Nodup) :
    (run.map fun x => Scheduler.progressKey x.seq).Nodup := by
  refine List.Nodup.map_on ?_ hn.of_map
  intro x hx y hy h
  exact eq_of_key_eq hn hx hy h

/-- When everything is evicted, the last victim is the most progressed one and does not
fit on its own. -/
theorem evict_last {n : ℕ} (hne : run ≠ []) (h : (L.evict n run).2 = []) :
    ∃ early x, (L.evict n run).1 = early ++ [x] ∧ L.numBlocks < L.demand [x] ∧
      ∀ y ∈ early, Scheduler.progressKey y.seq ≤ Scheduler.progressKey x.seq := by
  rw [evict_eq_trim] at h ⊢
  obtain ⟨early, x, he, hnot, hle⟩ := Trim.removed_last hne h
  exact ⟨early, x, he, not_le.mp hnot, hle⟩

/-- A most progressed slot that cannot grow alone takes all others with it. -/
theorem evict_all {n : ℕ} (hn : (run.map (·.seq.id)).Nodup) (hlen : run.length ≤ n) {x : Slot}
    (hx : x ∈ run) (hbig : L.numBlocks < L.demand [x])
    (hle : ∀ y ∈ run, Scheduler.progressKey y.seq ≤ Scheduler.progressKey x.seq) :
    (L.evict n run).2 = [] := by
  rw [evict_eq_trim]
  exact Trim.rest_eq_nil (nodup_map_key hn) Fits.sublist hlen hx (not_le.mpr hbig) hle

end Limits

/-- The queue, the running slots, and the high-water mark of the blocks in use. -/
structure Ledger where
  waiting : List Sequence
  running : List Slot
  peak : ℕ

namespace Ledger

def empty : Ledger := ⟨[], [], 0⟩

/-- The sequences not yet retired. -/
def live (a : Ledger) : List Sequence := a.waiting ++ a.running.map Slot.seq

section Phases

variable (L : Limits) (a : Ledger)

def taken : List Sequence := L.taken a.running a.waiting

def left : List Sequence := a.waiting.drop (a.taken L).length

def placed : List Slot := a.running ++ (a.taken L).map .place

def victims : List Slot := (L.evict (a.placed L).length (a.placed L)).1

def survivors : List Slot := (L.evict (a.placed L).length (a.placed L)).2

def batch : List Slot := (a.survivors L).filter fun x => !x.seq.isComplete

def retired : List Slot := (a.survivors L).filter fun x => x.seq.isComplete

def plan : StepPlan where
  admitted := (a.taken L).map (·.id)
  decodeBatch := (a.batch L).map (·.seq.id)
  preempted := (a.victims L).map (·.seq.id)
  finished := (a.retired L).map (·.seq.id)

def scheduled : Ledger where
  waiting := ((a.victims L).map Slot.preempt).reverse ++ a.left L
  running := (a.batch L).map Slot.grow
  peak := max (max a.peak (L.used (a.placed L))) (L.demand (a.survivors L))

end Phases

def submit (a : Ledger) (s : Sequence) : Ledger := { a with waiting := a.waiting ++ [s] }

def pushToken (a : Ledger) (id : SeqId) (token : TokenId) (isEos : Bool) : Ledger :=
  { a with running := a.running.map (Slot.pushToken id token isEos) }

def op (L : Limits) (a : Ledger) : SchedulerOp → Ledger × Option StepPlan
  | .submit id prompt maxNewTokens => (a.submit (.new id prompt maxNewTokens), none)
  | .schedule => (a.scheduled L, some (a.plan L))
  | .pushToken id token isEos => (a.pushToken id token isEos, none)

variable {L : Limits} {a : Ledger}

theorem taken_append_left (L : Limits) (a : Ledger) : a.taken L ++ a.left L = a.waiting :=
  Limits.taken_append_drop _ _

theorem placed_perm (L : Limits) (a : Ledger) :
    (a.placed L).Perm (a.victims L ++ a.survivors L) :=
  Limits.evict_perm _ _

theorem survivors_perm (L : Limits) (a : Ledger) :
    (a.survivors L).Perm (a.batch L ++ a.retired L) := by
  have h := List.filter_append_perm (fun x : Slot => !x.seq.isComplete) (a.survivors L)
  simp only [Bool.not_not] at h
  exact h.symm

theorem survivors_sublist (L : Limits) (a : Ledger) : (a.survivors L).Sublist (a.placed L) :=
  Limits.evict_sublist _ _

theorem demand_survivors_le (L : Limits) (a : Ledger) :
    L.demand (a.survivors L) ≤ L.numBlocks :=
  Limits.evict_fits le_rfl

theorem incomplete_of_mem_batch {x : Slot} (h : x ∈ a.batch L) : x.seq.isComplete = false := by
  simpa using (List.mem_filter.mp h).2

theorem complete_of_mem_retired {x : Slot} (h : x ∈ a.retired L) : x.seq.isComplete = true :=
  (List.mem_filter.mp h).2

theorem incomplete_of_mem_scheduled {x : Slot} (h : x ∈ (a.scheduled L).running) :
    x.seq.isComplete = false := by
  obtain ⟨y, hy, rfl⟩ := List.mem_map.mp h
  rw [Slot.seq_grow]
  exact incomplete_of_mem_batch hy

theorem bare_of_mem_placed {x : Slot} (hx : x ∈ a.placed L) :
    ∃ s ∈ a.live, s.bare = x.seq.bare := by
  rcases List.mem_append.mp hx with hx | hx
  · exact ⟨x.seq, List.mem_append_right _ (List.mem_map_of_mem hx), rfl⟩
  · obtain ⟨s, hs, rfl⟩ := List.mem_map.mp hx
    exact ⟨s, List.mem_append_left _ ((Limits.taken_initial _ _).subset hs), rfl⟩

theorem ids_placed (L : Limits) (a : Ledger) :
    (a.live.map (·.id)).Perm ((a.placed L).map (·.seq.id) ++ (a.left L).map (·.id)) := by
  have hw := congrArg (List.map fun s => s.id) (a.taken_append_left L)
  simp only [live, placed, List.map_append, List.map_map, Function.comp_def, Slot.seq_place,
    Sequence.id_withState, List.perm_iff_count, List.count_append, ← hw]
  intro i
  omega

theorem live_submit (a : Ledger) (s : Sequence) : (a.submit s).live.Perm (s :: a.live) := by
  simp only [live, submit, List.append_assoc, List.singleton_append]
  exact List.perm_middle

theorem live_scheduled (L : Limits) (a : Ledger) :
    (a.live.map (·.bare)).Perm
      ((a.scheduled L).live.map (·.bare) ++
        (a.retired L).map fun x => x.seq.bare) := by
  have hw := congrArg (List.map fun s => s.bare) (a.taken_append_left L)
  have hp := (a.placed_perm L).map fun x => x.seq.bare
  have hs := (a.survivors_perm L).map fun x => x.seq.bare
  simp only [live, scheduled, placed, List.map_append, List.map_map, List.map_reverse,
    Function.comp_def, Slot.preempt, Slot.seq_grow, Slot.seq_place, Sequence.bare_withState,
    List.perm_iff_count, List.count_append, List.count_reverse, ← hw] at hp hs ⊢
  intro s
  have := hp s; have := hs s
  omega

theorem ids_scheduled (L : Limits) (a : Ledger) :
    (a.live.map (·.id)).Perm ((a.scheduled L).live.map (·.id) ++ (a.plan L).finished) := by
  have h := (a.live_scheduled L).map (·.id)
  simp only [List.map_append, List.map_map, Function.comp_def, Sequence.id_bare] at h
  exact h

structure Valid (L : Limits) (a : Ledger) : Prop where
  nodup : (a.live.map (·.id)).Nodup
  running_state : ∀ x ∈ a.running, x.seq.state = .running
  waiting_state : ∀ s ∈ a.waiting, s.state = .waiting ∨ s.state = .preempted
  used_le_peak : L.used a.running ≤ a.peak
  peak_le : a.peak ≤ L.numBlocks
  length_le : a.running.length ≤ L.maxBatchSize

theorem valid_empty (L : Limits) : empty.Valid L := by
  constructor <;> simp [empty, live]

namespace Valid

theorem used_running_le (h : a.Valid L) : L.used a.running ≤ L.numBlocks :=
  h.used_le_peak.trans h.peak_le

theorem running_nodup (h : a.Valid L) : (a.running.map (·.seq.id)).Nodup := by
  have hn := h.nodup
  rw [live, List.map_append, List.map_map] at hn
  exact (List.nodup_append.mp hn).2.1

theorem notMem_running (h : a.Valid L) {s : Sequence} (hs : s ∈ a.waiting) :
    s.id ∉ a.running.map (·.seq.id) := by
  intro hmem
  have hn := h.nodup
  rw [live, List.map_append, List.map_map, List.nodup_append] at hn
  exact hn.2.2 s.id (List.mem_map_of_mem hs) s.id hmem rfl

theorem used_placed_le (h : a.Valid L) : L.used (a.placed L) ≤ L.numBlocks :=
  Limits.used_taken_le h.used_running_le _

theorem placed_state (h : a.Valid L) : ∀ x ∈ a.placed L, x.seq.state = .running := by
  intro x hx
  rcases List.mem_append.mp hx with hx | hx
  · exact h.running_state x hx
  · obtain ⟨s, -, rfl⟩ := List.mem_map.mp hx
    rfl

theorem placed_nodup (h : a.Valid L) : ((a.placed L).map (·.seq.id)).Nodup :=
  (List.nodup_append.mp ((a.ids_placed L).nodup_iff.mp h.nodup)).1

theorem submit (h : a.Valid L) {s : Sequence} (hs : s.state = .waiting)
    (hid : s.id ∉ a.live.map (·.id)) : (a.submit s).Valid L where
  nodup :=
    ((a.live_submit s).map (·.id)).nodup_iff.mpr (List.nodup_cons.mpr ⟨hid, h.nodup⟩)
  running_state := h.running_state
  waiting_state := by
    intro s' hs'
    rcases List.mem_append.mp hs' with hs' | hs'
    · exact h.waiting_state s' hs'
    · obtain rfl := List.mem_singleton.mp hs'
      exact Or.inl hs
  used_le_peak := h.used_le_peak
  peak_le := h.peak_le
  length_le := h.length_le

theorem used_scheduled_le (L : Limits) (a : Ledger) :
    L.used (a.scheduled L).running ≤ L.demand (a.survivors L) :=
  Limits.used_sublist_le (List.filter_sublist.map _)

theorem length_scheduled_le (h : a.Valid L) :
    (a.scheduled L).running.length ≤ L.maxBatchSize := by
  have hs : (a.batch L).length ≤ (a.survivors L).length := List.length_filter_le _ _
  have hp := (a.survivors_sublist L).length_le
  have hl : (a.placed L).length ≤ L.maxBatchSize := Limits.length_taken_le h.length_le _
  simp only [Ledger.scheduled, List.length_map]
  omega

theorem scheduled (h : a.Valid L) : (a.scheduled L).Valid L where
  nodup :=
    (List.nodup_append.mp ((a.ids_scheduled L).nodup_iff.mp h.nodup)).1
  running_state := by
    intro x hx
    obtain ⟨y, hy, rfl⟩ := List.mem_map.mp hx
    rw [Slot.seq_grow]
    exact h.placed_state y ((a.survivors_sublist L).subset (List.mem_of_mem_filter hy))
  waiting_state := by
    intro s hs
    rcases List.mem_append.mp hs with hs | hs
    · rw [List.mem_reverse, List.mem_map] at hs
      obtain ⟨x, -, rfl⟩ := hs
      exact Or.inr rfl
    · exact h.waiting_state s (List.mem_of_mem_drop hs)
  used_le_peak := (used_scheduled_le L a).trans (le_max_right _ _)
  peak_le := max_le (max_le h.peak_le h.used_placed_le) (a.demand_survivors_le L)
  length_le := h.length_scheduled_le

theorem pushToken (h : a.Valid L) (id : SeqId) (token : TokenId) (isEos : Bool) :
    (a.pushToken id token isEos).Valid L where
  nodup := by
    have hn := h.nodup
    simp only [live, List.map_append, List.map_map, Function.comp_def] at hn
    simpa only [live, Ledger.pushToken, List.map_append, List.map_map, Function.comp_def,
      Slot.id_pushToken] using hn
  running_state := by
    intro x hx
    obtain ⟨y, hy, rfl⟩ := List.mem_map.mp hx
    rw [Slot.state_pushToken]
    exact h.running_state y hy
  waiting_state := h.waiting_state
  used_le_peak := by
    have hu : L.used (a.pushToken id token isEos).running = L.used a.running := by
      simp only [Limits.used, Ledger.pushToken, List.map_map, Function.comp_def,
        Slot.held_pushToken]
    exact hu.le.trans h.used_le_peak
  peak_le := h.peak_le
  length_le := by
    simpa only [Ledger.pushToken, List.length_map] using h.length_le

end Valid

end Ledger

end ForgeInfer
