import ForgeInfer.Scheduler.Order

/-! # Iterations of the first in line

When ids ascend along the line of live sequences and progress descends along it, admission,
eviction and retirement all act on a front of the line. An iteration then does to the
sequences of a front what it would do if there were no others.
-/

namespace ForgeInfer

open Scheduler (progressKey)

namespace Limits

variable {L : Limits} {run : List Slot}

theorem taken_filter {p : SeqId → Bool} (waiting : List Sequence)
    (hp : (run.map (·.seq.id) ++ waiting.map (·.id)).Pairwise fun i j => p j → p i) :
    L.taken (run.filter fun x => p x.seq.id) (waiting.filter fun s => p s.id) =
      (L.taken run waiting).filter fun s => p s.id := by
  induction waiting generalizing run with
  | nil => rfl
  | cons s rest ih =>
    obtain ⟨-, htail, hcross⟩ := List.pairwise_append.mp hp
    by_cases hs : p s.id
    · have hrun : (run.filter fun x => p x.seq.id) = run := List.filter_eq_self.mpr fun x hx =>
        hcross _ (List.mem_map_of_mem hx) s.id List.mem_cons_self hs
      have hp' : ((run ++ [Slot.place s]).map (·.seq.id) ++ rest.map (·.id)).Pairwise
          fun i j => p j → p i := by simpa using hp
      have hnext := ih hp'
      have hplaced : ((run ++ [Slot.place s]).filter fun x => p x.seq.id) = run ++ [.place s] := by
        simp [hrun, hs]
      rw [hplaced] at hnext
      rw [List.filter_cons_of_pos (p := fun s : Sequence => p s.id) hs, hrun, taken, taken]
      split
      · rw [List.filter_cons_of_pos (p := fun s : Sequence => p s.id) hs, hnext]
      · rfl
    · have hrest : ∀ t ∈ s :: rest, ¬p t.id := by
        intro t ht
        rcases List.mem_cons.mp ht with rfl | ht
        · exact hs
        · exact fun hpt => hs ((List.pairwise_cons.mp htail).1 t.id (List.mem_map_of_mem ht) hpt)
      have hnil : ((s :: rest).filter fun s => p s.id) = [] := List.filter_eq_nil_iff.mpr hrest
      have htaken : ((L.taken run (s :: rest)).filter fun s => p s.id) = [] :=
        List.filter_eq_nil_iff.mpr fun t ht => hrest t ((taken_initial run _).subset ht)
      rw [hnil, htaken, taken]

/-- Evicting from an upper set of the progress order evicts the same of it. -/
theorem evict_filter {p : Slot → Bool} {n n' : ℕ}
    (hp : ∀ x ∈ run, ∀ y ∈ run, p x → progressKey x.seq ≤ progressKey y.seq → p y)
    (hlen : run.length ≤ n) (hlen' : (run.filter p).length ≤ n') :
    L.evict n' (run.filter p) = ((L.evict n run).1.filter p, (L.evict n run).2.filter p) := by
  rw [evict_eq_trim, evict_eq_trim]
  exact Trim.trim_filter Fits.sublist hp hlen hlen'

end Limits

/-- Submitted before the other one, and at least as far. -/
def Sequence.Before (s t : Sequence) : Prop := s.id < t.id ∧ t.output.length ≤ s.output.length

theorem Sequence.Before.progressKey_lt {s t : Sequence} (h : s.Before t) :
    progressKey t < progressKey s := by
  rcases h.2.lt_or_eq with hlt | heq
  · exact Prod.Lex.toLex_lt_toLex.mpr (Or.inl hlt)
  · exact Prod.Lex.toLex_lt_toLex.mpr (Or.inr ⟨heq, h.1⟩)

def StepPlan.restrict (p : SeqId → Bool) (plan : StepPlan) : StepPlan where
  admitted := plan.admitted.filter p
  decodeBatch := plan.decodeBatch.filter p
  preempted := plan.preempted.filter p
  finished := plan.finished.filter p

namespace Ledger

variable {L : Limits} {a b : Ledger} {p : SeqId → Bool}

def line (a : Ledger) : List Sequence := a.running.map Slot.seq ++ a.waiting

/-- Ids ascend along the line, and progress descends. -/
def InLine (a : Ledger) : Prop := a.line.Pairwise Sequence.Before

theorem inLine_empty : empty.InLine := List.Pairwise.nil

theorem inLine_iff_bare : a.InLine ↔ (a.line.map Sequence.bare).Pairwise Sequence.Before := by
  rw [List.pairwise_map]
  rfl

theorem map_bare_line (L : Limits) (a : Ledger) :
    ((a.placed L).map Slot.seq ++ a.left L).map Sequence.bare = a.line.map Sequence.bare := by
  conv_rhs => rw [line, ← a.taken_append_left L]
  simp [placed, Function.comp_def]

theorem InLine.placed (h : a.InLine) (L : Limits) :
    (a.placed L).Pairwise fun x y => x.seq.Before y.seq := by
  have hline := inLine_iff_bare.mp h
  rw [← map_bare_line L a, List.pairwise_map, List.pairwise_append] at hline
  exact List.pairwise_map.mp hline.1

theorem InLine.placed_descending (h : a.InLine) (L : Limits) :
    (a.placed L).Pairwise fun x y => progressKey y.seq < progressKey x.seq :=
  (h.placed L).imp Sequence.Before.progressKey_lt

theorem InLine.before_of_id_lt (h : a.InLine) {x y : Slot} (hx : x ∈ a.placed L)
    (hy : y ∈ a.placed L) (hlt : x.seq.id < y.seq.id) : x.seq.Before y.seq := by
  have hline := h.placed L
  refine List.Pairwise.forall_of_forall_of_flip
    (R := fun x y : Slot => x.seq.id < y.seq.id → x.seq.Before y.seq) ?_ ?_ ?_ hx hy hlt
  · exact fun z _ hz => absurd hz (lt_irrefl _)
  · refine hline.imp ?_
    exact fun hxy _ => hxy
  · refine hline.imp ?_
    exact fun hxy hyx => absurd hxy.1 hyx.asymm

/-- Eviction cuts the line of placed sequences in two. -/
theorem InLine.placed_eq (h : a.InLine) (hv : a.Valid L) :
    a.placed L = a.survivors L ++ (a.victims L).reverse := by
  have hperm : (a.placed L).Perm (a.survivors L ++ (a.victims L).reverse) :=
    (a.placed_perm L).trans (List.perm_append_comm.trans
      ((List.reverse_perm _).symm.append_left _))
  have hdesc := h.placed_descending L
  refine hperm.eq_of_pairwise (fun _ _ _ _ hxy hyx => absurd hxy hyx.asymm) hdesc ?_
  refine List.pairwise_append.mpr ⟨hdesc.sublist (a.survivors_sublist L), ?_, ?_⟩
  · exact List.pairwise_reverse.mpr hv.victims_ascending
  · intro x hx y hy
    exact hv.victims_lt_survivors (List.mem_reverse.mp hy) hx

theorem InLine.scheduled (h : a.InLine) (hv : a.Valid L) : (a.scheduled L).InLine := by
  refine inLine_iff_bare.mpr ((inLine_iff_bare.mp h).sublist ?_)
  rw [← map_bare_line L a, h.placed_eq hv]
  simp only [line, Ledger.scheduled, List.map_append, List.map_map, List.map_reverse,
    Function.comp_def, Slot.seq_grow, Slot.preempt, Sequence.bare_withState, ← List.append_assoc]
  refine List.Sublist.append_right (List.Sublist.append_right ?_ _) _
  exact List.filter_sublist.map _

/-- The second ledger is the first one without the ids that lack the property. -/
structure Restricts (p : SeqId → Bool) (a b : Ledger) : Prop where
  waiting_eq : b.waiting = a.waiting.filter fun s => p s.id
  running_eq : b.running = a.running.filter fun x => p x.seq.id

namespace Restricts

theorem taken_eq (h : Restricts p a b) (ha : a.InLine) (hp : ∀ i j, i < j → p j → p i) :
    b.taken L = (a.taken L).filter fun s => p s.id := by
  rw [taken, h.waiting_eq, h.running_eq]
  apply Limits.taken_filter
  have hids : (a.line.map (·.id)).Pairwise (· < ·) := List.pairwise_map.mpr (ha.imp And.left)
  rw [line, List.map_append, List.map_map] at hids
  exact hids.imp (hp _ _)

theorem left_eq (h : Restricts p a b) (ha : a.InLine) (hp : ∀ i j, i < j → p j → p i) :
    b.left L = (a.left L).filter fun s => p s.id := by
  have hw := congrArg (List.filter fun s => p s.id) (a.taken_append_left L)
  rw [List.filter_append, ← h.taken_eq ha hp, ← h.waiting_eq, ← b.taken_append_left L] at hw
  exact (List.append_cancel_left hw).symm

theorem placed_eq (h : Restricts p a b) (ha : a.InLine) (hp : ∀ i j, i < j → p j → p i) :
    b.placed L = (a.placed L).filter fun x => p x.seq.id := by
  rw [placed, h.taken_eq ha hp, h.running_eq, placed, List.filter_append, List.filter_map]
  rfl

theorem evict_eq (h : Restricts p a b) (ha : a.InLine) (hp : ∀ i j, i < j → p j → p i) :
    b.victims L = (a.victims L).filter (fun x => p x.seq.id) ∧
      b.survivors L = (a.survivors L).filter fun x => p x.seq.id := by
  have hup : ∀ x ∈ a.placed L, ∀ y ∈ a.placed L, p x.seq.id →
      progressKey x.seq ≤ progressKey y.seq → p y.seq.id := by
    intro x hx y hy hpx hle
    rcases lt_trichotomy x.seq.id y.seq.id with hlt | heq | hgt
    · exact absurd hle (not_le.mpr (ha.before_of_id_lt hx hy hlt).progressKey_lt)
    · exact heq ▸ hpx
    · exact hp _ _ hgt hpx
  have he := Limits.evict_filter (L := L) (n := (a.placed L).length) hup le_rfl le_rfl
  rw [← h.placed_eq ha hp] at he
  exact ⟨congrArg Prod.fst he, congrArg Prod.snd he⟩

theorem batch_eq (h : Restricts p a b) (ha : a.InLine) (hp : ∀ i j, i < j → p j → p i) :
    b.batch L = (a.batch L).filter fun x => p x.seq.id := by
  rw [batch, (h.evict_eq ha hp).2, batch, List.filter_comm]

theorem retired_eq (h : Restricts p a b) (ha : a.InLine) (hp : ∀ i j, i < j → p j → p i) :
    b.retired L = (a.retired L).filter fun x => p x.seq.id := by
  rw [retired, (h.evict_eq ha hp).2, retired, List.filter_comm]

theorem plan_eq (h : Restricts p a b) (ha : a.InLine) (hp : ∀ i j, i < j → p j → p i) :
    b.plan L = (a.plan L).restrict p := by
  simp only [plan, StepPlan.restrict, h.taken_eq ha hp, h.batch_eq ha hp, (h.evict_eq ha hp).1,
    h.retired_eq ha hp, List.filter_map, Function.comp_def]

theorem scheduled (h : Restricts p a b) (ha : a.InLine) (hp : ∀ i j, i < j → p j → p i) :
    Restricts p (a.scheduled L) (b.scheduled L) where
  waiting_eq := by
    rw [Ledger.scheduled, Ledger.scheduled, (h.evict_eq ha hp).1, h.left_eq ha hp,
      List.filter_append, List.filter_reverse, List.filter_map]
    rfl
  running_eq := by
    rw [Ledger.scheduled, Ledger.scheduled, h.batch_eq ha hp, List.filter_map]
    simp only [Function.comp_def, Slot.seq_grow]

end Restricts

end Ledger

end ForgeInfer
