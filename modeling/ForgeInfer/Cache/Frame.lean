import ForgeInfer.Cache.Partition

/-! # Frames of the cache

What an operation on one sequence does to its block table, and that the tables of the
others stay.
-/

namespace ForgeInfer

namespace PagedKVCache

variable {c c' : PagedKVCache} {seq id : SeqId} {t : BlockTable}

theorem blockTable_free_ne (h : id ≠ seq) : (c.free seq).blockTable id = c.blockTable id := by
  unfold free blockTable
  split
  · rfl
  · exact AList.lookup_erase_ne h

theorem blockTable_append_ne {count : ℕ} {result : Except CacheError Unit}
    (h : c.append seq count = some (c', result)) (hne : id ≠ seq) :
    c'.blockTable id = c.blockTable id := by
  rcases append_cases c seq count with ⟨-, ha⟩ | ⟨t, -, -, ha⟩ | ⟨t, -, -, ha⟩
  all_goals
    rw [ha, Option.some.injEq, Prod.mk.injEq] at h
    obtain ⟨rfl, -⟩ := h
  · rfl
  · rfl
  · exact AList.lookup_insert_ne hne

theorem blockTable_append_ok {count : ℕ} (h : c.append seq count = some (c', .ok ()))
    (ht : c.blockTable seq = some t) :
    ∃ blocks, blocks.length = c.blocksNeededFor seq count ∧
      c'.blockTable seq = some ⟨t.blocks ++ blocks, t.numTokens + count⟩ := by
  rcases append_cases c seq count with ⟨-, ha⟩ | ⟨t', -, -, ha⟩ | ⟨t', ht', hn, ha⟩
  · rw [ha] at h; cases h
  · rw [ha] at h; cases h
  · rw [ha, Option.some.injEq, Prod.mk.injEq] at h
    obtain ⟨rfl, -⟩ := h
    obtain rfl : t' = t := Option.some.inj (ht'.symm.trans ht)
    exact ⟨_, length_popped hn, AList.lookup_insert _⟩

theorem blockTable_admitSeq (ht : c.blockTable seq = some t) (id : SeqId) :
    (c.admitSeq id).blockTable seq = some t := by
  unfold admitSeq
  split
  · exact ht
  · next hid =>
    have hne : seq ≠ id := by
      rintro rfl
      exact hid (AList.lookup_isSome.mp (Option.isSome_of_eq_some ht))
    exact (AList.lookup_insert_ne hne).trans ht

theorem blockSize_append {count : ℕ} {result : Except CacheError Unit}
    (h : c.append seq count = some (c', result)) : c'.blockSize = c.blockSize := by
  rcases append_cases c seq count with ⟨-, ha⟩ | ⟨t, -, -, ha⟩ | ⟨t, -, -, ha⟩
  all_goals
    rw [ha, Option.some.injEq, Prod.mk.injEq] at h
    obtain ⟨rfl, -⟩ := h
    rfl

theorem blockSize_free (c : PagedKVCache) (seq : SeqId) :
    (c.free seq).blockSize = c.blockSize := by
  unfold free; split <;> rfl

theorem blockSize_admitSeq (c : PagedKVCache) (seq : SeqId) :
    (c.admitSeq seq).blockSize = c.blockSize := by
  unfold admitSeq; split <;> rfl

/-- What an operation can do: register, append, free, or evict a victim that it frees. -/
theorem op_cases {o : CacheOp} (ho : c.op o = some (c', ())) :
    (∃ id, o = .call (.admitSeq id) ∧ c' = c.admitSeq id) ∨
    (∃ id count result, o = .call (.append id count) ∧ c.append id count = some (c', result)) ∨
    (∃ id, o = .call (.free id) ∧ c' = c.free id) ∨
    ∃ order, o = .evictLargest order ∧
      (c' = c ∨ ∃ id, (c.evictLargest order).2 = some id ∧ c' = c.free id) := by
  cases o with
  | call k =>
    rw [op, Option.map_eq_some_iff] at ho
    obtain ⟨⟨c₁, r⟩, hk, he⟩ := ho
    obtain rfl : c₁ = c' := (Prod.mk.inj he).1
    cases k with
    | admitSeq id => exact Or.inl ⟨id, rfl, (Prod.mk.inj (Option.some.inj hk)).1.symm⟩
    | append id count =>
      rw [call, Option.map_eq_some_iff] at hk
      obtain ⟨⟨c₂, result⟩, ha, he₂⟩ := hk
      obtain rfl : c₂ = c₁ := (Prod.mk.inj he₂).1
      exact Or.inr (Or.inl ⟨id, count, result, rfl, ha⟩)
    | free id => exact Or.inr (Or.inr (Or.inl ⟨id, rfl, (Prod.mk.inj (Option.some.inj hk)).1.symm⟩))
  | evictLargest order =>
    obtain ⟨rfl, -⟩ := Prod.mk.inj (Option.some.inj ho)
    refine Or.inr (Or.inr (Or.inr ⟨order, rfl, ?_⟩))
    rcases evictLargest_cases c order with ⟨-, he⟩ | ⟨id, hid, he⟩
    · exact Or.inl he
    · exact Or.inr ⟨id, hid, he⟩

theorem blockSize_op {o : CacheOp} (ho : c.op o = some (c', ())) : c'.blockSize = c.blockSize := by
  rcases op_cases ho with ⟨id, -, rfl⟩ | ⟨id, count, result, -, ha⟩ | ⟨id, -, rfl⟩ |
    ⟨order, -, rfl | ⟨id, -, rfl⟩⟩
  · exact blockSize_admitSeq c id
  · exact blockSize_append ha
  · exact blockSize_free c id
  · rfl
  · exact blockSize_free c id

end PagedKVCache

end ForgeInfer
