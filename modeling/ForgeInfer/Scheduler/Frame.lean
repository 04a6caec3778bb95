import ForgeInfer.Cache.Frame
import ForgeInfer.Scheduler.Refinement

/-! # Frames of the loops

Each loop of an iteration touches the block tables of the sequences it handles: preemption
and retirement drop them, the commit puts one more token behind what they hold.
-/

namespace ForgeInfer

namespace Scheduler

variable {id : SeqId} {t : BlockTable} {c c' : PagedKVCache} {l : List Sequence}
  {batch batch' : List SeqId}

theorem preemptionLoop_cases (n : ℕ) (p : Preemption) :
    preemptionLoop (n + 1) p = p ∨
    ∃ i victim, p.running[i]? = some victim ∧
      preemptionLoop (n + 1) p =
        preemptionLoop n
          { waiting := { victim with state := .preempted } :: p.waiting
            cache := p.cache.free victim.id
            running := p.running.eraseIdx i
            preempted := p.preempted ++ [victim.id] } := by
  rw [preemptionLoop]
  split
  · exact Or.inl rfl
  · cases victimIdx p.running with
    | none => exact Or.inl rfl
    | some i =>
      cases hi : p.running[i]? with
      | none => exact Or.inl (by simp [hi])
      | some victim => exact Or.inr ⟨i, victim, hi, by simp [hi]⟩

theorem blockTable_preemptionLoop (n : ℕ) (p : Preemption)
    (hid : id ∉ (preemptionLoop n p).preempted) :
    (preemptionLoop n p).cache.blockTable id = p.cache.blockTable id ∧ id ∉ p.preempted := by
  induction n generalizing p with
  | zero => exact ⟨rfl, hid⟩
  | succ n ih =>
    rcases preemptionLoop_cases n p with he | ⟨i, victim, -, he⟩
    · rw [he] at hid ⊢
      exact ⟨rfl, hid⟩
    · rw [he] at hid ⊢
      obtain ⟨hc, hn⟩ := ih _ hid
      rw [List.mem_append, List.mem_singleton, not_or] at hn
      exact ⟨hc.trans (PagedKVCache.blockTable_free_ne hn.2), hn.1⟩

theorem commitLoop_cases {x : Sequence} (h : commitLoop (x :: l) c batch = some (c', batch')) :
    ((x.state ≠ .running ∨ x.isComplete = true) ∧ commitLoop l c batch = some (c', batch')) ∨
    (x.state = .running ∧ x.isComplete = false ∧ ∃ c₁, c.append x.id 1 = some (c₁, .ok ()) ∧
      commitLoop l c₁ (batch ++ [x.id]) = some (c', batch')) ∨
    (x.isComplete = false ∧ ∃ c₁ e, c.append x.id 1 = some (c₁, .error e) ∧
      commitLoop l c₁ batch = some (c', batch')) := by
  unfold commitLoop at h
  split at h
  · next hs => exact Or.inl ⟨hs, h⟩
  · next hs =>
    rw [not_or, not_not, Bool.not_eq_true] at hs
    right
    cases ha : c.append x.id 1 with
    | none => simp [ha] at h
    | some r =>
      obtain ⟨c₁, result⟩ := r
      rw [ha] at h
      cases result with
      | ok => exact Or.inl ⟨hs.1, hs.2, c₁, rfl, h⟩
      | error e => exact Or.inr ⟨hs.2, c₁, e, rfl, h⟩

theorem blockTable_commitLoop_of_complete (h : commitLoop l c batch = some (c', batch'))
    (hid : ∀ x ∈ l, x.id = id → x.isComplete = true) :
    c'.blockTable id = c.blockTable id := by
  induction l generalizing c batch with
  | nil =>
    simp only [commitLoop, Option.some.injEq, Prod.mk.injEq] at h
    rw [h.1]
  | cons x l ih =>
    have hl : ∀ y ∈ l, y.id = id → y.isComplete = true := fun y hy =>
      hid y (List.mem_cons_of_mem x hy)
    have hne : x.isComplete = false → id ≠ x.id := by
      rintro hc rfl
      rw [hid x List.mem_cons_self rfl] at hc
      cases hc
    rcases commitLoop_cases h with ⟨-, h⟩ | ⟨-, hc, c₁, ha, h⟩ | ⟨hc, c₁, e, ha, h⟩
    · exact ih h hl
    · exact (ih h hl).trans (PagedKVCache.blockTable_append_ne ha (hne hc))
    · exact (ih h hl).trans (PagedKVCache.blockTable_append_ne ha (hne hc))

theorem length_commitLoop_le (h : commitLoop l c batch = some (c', batch')) :
    batch'.length ≤ batch.length + (l.filter fun x => !x.isComplete).length := by
  induction l generalizing c batch with
  | nil =>
    simp only [commitLoop, Option.some.injEq, Prod.mk.injEq] at h
    rw [h.2]
    exact Nat.le_add_right _ _
  | cons x l ih =>
    have hle : (l.filter fun x => !x.isComplete).length ≤
        ((x :: l).filter fun x => !x.isComplete).length :=
      ((List.sublist_cons_self x l).filter _).length_le
    rcases commitLoop_cases h with ⟨-, h⟩ | ⟨-, hc, c₁, -, h⟩ | ⟨hc, c₁, e, -, h⟩
    · exact (ih h).trans (Nat.add_le_add_left hle _)
    · have := ih h
      simp only [List.length_append, List.length_cons, List.length_nil, List.filter_cons, hc,
        Bool.not_false, if_true] at this ⊢
      omega
    · exact (ih h).trans (Nat.add_le_add_left hle _)

/-- When the commit loop has added an id for each incomplete sequence, none was refused: the
loop comes to each of them and reserves its token. -/
theorem commitLoop_split (h : commitLoop l c batch = some (c', batch'))
    (hlen : batch'.length = batch.length + (l.filter fun x => !x.isComplete).length)
    {done todo : List Sequence} {x : Sequence} (hl : l = done ++ x :: todo)
    (hx : x.state = .running) (hc : x.isComplete = false) :
    ∃ c₁ batch₁ c₂, commitLoop done c batch = some (c₁, batch₁) ∧
      c₁.append x.id 1 = some (c₂, .ok ()) ∧
      commitLoop todo c₂ (batch₁ ++ [x.id]) = some (c', batch') := by
  induction l generalizing c batch done with
  | nil => simp at hl
  | cons y l ih =>
    have hle := fun {c b} (h' : commitLoop l c b = some (c', batch')) => length_commitLoop_le h'
    have hcons : y.isComplete = false → ((y :: l).filter fun x => !x.isComplete).length =
        (l.filter fun x => !x.isComplete).length + 1 := by
      intro hy
      simp [hy]
    rcases commitLoop_cases h with ⟨hs, h'⟩ | ⟨hr, hy, c₁, ha, h'⟩ | ⟨hy, c₁, e, -, h'⟩
    · have hyc : y.isComplete = true := by
        by_contra hy
        have := hle h'
        have := hcons (Bool.eq_false_iff.mpr hy)
        omega
      cases done with
      | nil =>
        obtain ⟨rfl, -⟩ := List.cons_eq_cons.mp hl
        rw [hc] at hyc
        cases hyc
      | cons z done =>
        obtain ⟨rfl, rfl⟩ := List.cons_eq_cons.mp hl
        obtain ⟨c₂, batch₂, c₃, hd, ha⟩ := ih h' (by simpa [hyc] using hlen) rfl
        exact ⟨c₂, batch₂, c₃, by simpa [commitLoop, hyc] using hd, ha⟩
    · cases done with
      | nil =>
        obtain ⟨rfl, rfl⟩ := List.cons_eq_cons.mp hl
        exact ⟨c, batch, c₁, rfl, ha, h'⟩
      | cons z done =>
        obtain ⟨rfl, rfl⟩ := List.cons_eq_cons.mp hl
        obtain ⟨c₂, batch₂, c₃, hd, ha'⟩ := ih h' (by
          rw [hlen, hcons hy, List.length_append, List.length_singleton]; omega) rfl
        exact ⟨c₂, batch₂, c₃, by simpa [commitLoop, hr, hy, ha] using hd, ha'⟩
    · -- a refusal leaves the batch one id short
      have := hle h'
      have := hcons hy
      omega

theorem blockTable_commitLoop_of_incomplete (h : commitLoop l c batch = some (c', batch'))
    (hlen : batch'.length = batch.length + (l.filter fun x => !x.isComplete).length)
    (hn : (l.map (·.id)).Nodup) {x : Sequence} (hx : x ∈ l) (hr : x.state = .running)
    (hc : x.isComplete = false) (ht : c.blockTable x.id = some t) :
    ∃ blocks, c'.blockTable x.id = some ⟨t.blocks ++ blocks, t.numTokens + 1⟩ := by
  obtain ⟨done, todo, rfl⟩ := List.append_of_mem hx
  obtain ⟨c₁, batch₁, c₂, hd, ha, htodo⟩ := commitLoop_split h hlen rfl hr hc
  rw [List.map_append, List.map_cons, List.nodup_middle, List.nodup_cons, ← List.map_append] at hn
  have hother : ∀ y ∈ done ++ todo, y.id = x.id → y.isComplete = true := fun y hy he =>
    absurd (List.mem_map.mpr ⟨y, hy, he⟩) hn.1
  have h₁ := blockTable_commitLoop_of_complete hd fun y hy => hother y (List.mem_append_left _ hy)
  have h₂ := blockTable_commitLoop_of_complete htodo fun y hy =>
    hother y (List.mem_append_right _ hy)
  obtain ⟨blocks, -, hb⟩ := PagedKVCache.blockTable_append_ok ha (h₁.trans ht)
  exact ⟨blocks, h₂.trans hb⟩

theorem blockTable_retireLoop (l : List Sequence) (r : Retirement)
    (hid : ∀ x ∈ l, x.id = id → x.isComplete = false) :
    (retireLoop l r).cache.blockTable id = r.cache.blockTable id := by
  induction l generalizing r with
  | nil => rfl
  | cons x l ih =>
    have hl : ∀ y ∈ l, y.id = id → y.isComplete = false := fun y hy =>
      hid y (List.mem_cons_of_mem x hy)
    unfold retireLoop
    split
    · next hc =>
      refine (ih _ hl).trans (PagedKVCache.blockTable_free_ne ?_)
      rintro rfl
      rw [hid x List.mem_cons_self rfl] at hc
      cases hc
    · exact ih _ hl

namespace Iteration

variable {L : Limits} {s s' : Scheduler} {a : Ledger} {A : Admission} {P : Preemption}
  {C : PagedKVCache}

theorem running_state (h : s.Iteration L a A P C s') (hv : a.Valid L) :
    ∀ x ∈ P.running, x.state = .running := by
  rw [h.survivors_eq]
  intro x hx
  obtain ⟨y, hy, rfl⟩ := List.mem_map.mp hx
  exact hv.placed_state y ((a.survivors_sublist L).subset hy)

theorem length_batch (h : s.Iteration L a A P C s') :
    (a.plan L).decodeBatch.length =
      ([] : List SeqId).length + (P.running.filter fun x => !x.isComplete).length := by
  rw [h.survivors_eq, List.filter_map, List.length_map, List.length_nil, Nat.zero_add]
  exact List.length_map _

end Iteration

end Scheduler

end ForgeInfer
