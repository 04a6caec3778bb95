import ForgeInfer.Scheduler.Conservation

/-! # What the queue offers

Admission looks at the queue from its front and stops at the first sequence that it has no
room for. What it takes is therefore a matter of the state before it: the longest front of
the queue that the batch and the cache can hold beside what runs.
-/

namespace ForgeInfer

namespace Limits

variable {L : Limits} {run : List Slot}

structure Room (L : Limits) (run : List Slot) : Prop where
  length_le : run.length ≤ L.maxBatchSize
  used_le : L.used run ≤ L.numBlocks

theorem Room.of_append {run' : List Slot} (h : L.Room (run ++ run')) : L.Room run := by
  have hs := List.sublist_append_left run run'
  exact ⟨hs.length_le.trans h.length_le, (used_sublist_le hs).trans h.used_le⟩

theorem room_place_iff (s : Sequence) :
    L.Room (run ++ [.place s]) ↔
      run.length < L.maxBatchSize ∧ L.used run + L.blocks s.totalLen ≤ L.numBlocks := by
  have hl : (run ++ [Slot.place s]).length = run.length + 1 := List.length_append
  have hu : L.used (run ++ [Slot.place s]) = L.used run + L.blocks s.totalLen := used_append _ _
  constructor
  · rintro ⟨h₁, h₂⟩
    rw [hl] at h₁
    rw [hu] at h₂
    exact ⟨h₁, h₂⟩
  · rintro ⟨h₁, h₂⟩
    constructor
    · rw [hl]; exact h₁
    · rw [hu]; exact h₂

/-- Admission takes exactly the longest front with room. -/
theorem taken_of_room {front rest : List Sequence} (h : L.Room (run ++ front.map .place))
    (hstop : ∀ x ∈ rest.head?, ¬L.Room (run ++ front.map .place ++ [.place x])) :
    L.taken run (front ++ rest) = front := by
  induction front generalizing run with
  | nil =>
    rw [List.nil_append]
    cases rest with
    | nil => rfl
    | cons x rest =>
      unfold taken
      rw [List.map_nil, List.append_nil] at h hstop
      exact if_neg fun hc => hstop x rfl ((room_place_iff x).mpr hc)
  | cons s front ih =>
    rw [List.map_cons, List.append_cons] at h hstop
    have hs := (room_place_iff s).mp h.of_append
    rw [List.cons_append, taken, if_pos hs, ih h hstop]

end Limits

namespace Scheduler

/-- The batch and the cache have room for a front of the queue beside what runs. -/
structure HasRoom (s : Scheduler) (front : List Sequence) : Prop where
  length_le : s.running.length + front.length ≤ s.config.maxBatchSize
  blocks_le : s.cache.usedBlocks +
    (front.map fun x => (x.totalLen ⌈/⌉ s.cache.blockSize : ℕ)).sum ≤ s.cache.numBlocks

/-- The queue ends its longest front with room before `rest`. -/
structure Offers (s : Scheduler) (front rest : List Sequence) : Prop where
  split : s.waiting = front ++ rest
  room : s.HasRoom front
  stop : ∀ x ∈ rest.head?, ¬s.HasRoom (front ++ [x])

variable {L : Limits} {s : Scheduler} {a : Ledger}

theorem Refines.hasRoom_iff (h : s.Refines L a) (front : List Sequence) :
    s.HasRoom front ↔ L.Room (a.running ++ front.map .place) := by
  have hl : s.running.length + front.length =
      (a.running ++ front.map Slot.place).length := by
    rw [h.running_eq, List.length_append, List.length_map, List.length_map]
  have hu : s.cache.usedBlocks +
      (front.map fun x => (x.totalLen ⌈/⌉ s.cache.blockSize : ℕ)).sum =
        L.used (a.running ++ front.map .place) := by
    rw [h.cache.usedBlocks_eq, h.cache.blockSize_eq, Limits.used_append]
    unfold Limits.used
    rw [List.map_map]
    rfl
  constructor
  · rintro ⟨h₁, h₂⟩
    exact ⟨hl ▸ h.maxBatchSize_eq ▸ h₁, hu ▸ h.cache.numBlocks_eq ▸ h₂⟩
  · rintro ⟨h₁, h₂⟩
    exact ⟨hl ▸ h.maxBatchSize_eq ▸ h₁, hu ▸ h.cache.numBlocks_eq ▸ h₂⟩

theorem Refines.offers (h : s.Refines L a) (hv : a.Valid L) : s.Offers (a.taken L) (a.left L) where
  split := by rw [h.waiting_eq, a.taken_append_left]
  room := (h.hasRoom_iff _).mpr ⟨Limits.length_taken_le hv.length_le _, hv.used_placed_le⟩
  stop := by
    rintro x hx hroom
    obtain ⟨rest, hleft⟩ := List.head?_eq_some_iff.mp hx
    have hr := (h.hasRoom_iff _).mp hroom
    rw [List.map_append, List.map_singleton, ← List.append_assoc] at hr
    obtain ⟨hb, hu⟩ := (Limits.room_place_iff x).mp hr
    exact absurd hu (not_le.mpr (Limits.taken_stop hleft hb))

theorem Refines.offers_iff (h : s.Refines L a) (hv : a.Valid L) {front rest : List Sequence} :
    s.Offers front rest ↔ front = a.taken L ∧ rest = a.left L := by
  constructor
  · intro ho
    have ht : a.taken L = front := by
      rw [Ledger.taken, ← h.waiting_eq, ho.split]
      refine Limits.taken_of_room ((h.hasRoom_iff _).mp ho.room) fun x hx hroom => ?_
      apply ho.stop x hx
      rw [h.hasRoom_iff, List.map_append, List.map_singleton, ← List.append_assoc]
      exact hroom
    refine ⟨ht.symm, ?_⟩
    have hs := a.taken_append_left L
    rw [← h.waiting_eq, ho.split, ht] at hs
    exact (List.append_cancel_left hs).symm
  · rintro ⟨rfl, rfl⟩
    exact h.offers hv

theorem Refines.bare_placed (h : s.Refines L a) :
    ((a.placed L).map Slot.seq).map (·.bare) = (s.running ++ a.taken L).map (·.bare) := by
  rw [h.running_eq, Ledger.placed]
  simp only [List.map_append, List.map_map]
  rfl

end Scheduler

end ForgeInfer
