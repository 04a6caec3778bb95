import ForgeInfer.Cache.Frame
import ForgeInfer.Foundation.Paging

/-! # Token slots

Token `i` of a sequence is kept in block `i / blockSize` of its table, at place
`i % blockSize`. No two tokens of known sequences share a slot, and a token stays in its
slot until its own sequence is freed or evicted.
-/

namespace ForgeInfer

namespace PagedKVCache

/-- The physical slot of a stored token: a block, and the place in it. -/
def slot (c : PagedKVCache) (seq : SeqId) (i : ℕ) : Option (BlockId × ℕ) :=
  match c.blockTable seq with
  | none => none
  | some t => if i < t.numTokens then Paging.place c.blockSize t.blocks i else none

def Drops (c : PagedKVCache) (seq : SeqId) : CacheOp → Prop
  | .call (.free id) => id = seq
  | .evictLargest order => (c.evictLargest order).2 = some seq
  | _ => False

def Retains (c : PagedKVCache) (seq : SeqId) (ops : List CacheOp) : Prop :=
  ∀ past o c' os, past ++ [o] <+: ops → Machine.run op c past = some (c', os) →
    ¬c'.Drops seq o

variable {c c' : PagedKVCache} {seq id : SeqId} {t : BlockTable} {i j : ℕ} {p : BlockId × ℕ}

theorem slot_eq_some_iff : c.slot seq i = some p ↔
    ∃ t, c.blockTable seq = some t ∧ i < t.numTokens ∧
      Paging.place c.blockSize t.blocks i = some p := by
  rw [slot]
  constructor
  · split
    · rintro ⟨⟩
    · next t ht =>
      split
      · next hi => exact fun h => ⟨t, ht, hi, h⟩
      · rintro ⟨⟩
  · rintro ⟨t, ht, hi, h⟩
    rw [ht]
    exact (if_pos hi).trans h

theorem slot_of_extends {t' : BlockTable} {more : List BlockId} (hb : c'.blockSize = c.blockSize)
    (ht : c.blockTable seq = some t) (ht' : c'.blockTable seq = some t')
    (hblocks : t'.blocks = t.blocks ++ more) (htokens : t.numTokens ≤ t'.numTokens)
    (h : c.slot seq i = some p) : c'.slot seq i = some p := by
  obtain ⟨t₁, ht₁, hi, hp⟩ := slot_eq_some_iff.mp h
  obtain rfl : t₁ = t := Option.some.inj (ht₁.symm.trans ht)
  refine slot_eq_some_iff.mpr ⟨t', ht', hi.trans_le htokens, ?_⟩
  rw [hb, hblocks]
  exact Paging.place_append hp more

theorem slot_congr (hb : c'.blockSize = c.blockSize)
    (ht : c'.blockTable seq = c.blockTable seq) : c'.slot seq i = c.slot seq i := by
  rw [slot, slot, hb, ht]

structure AppendEffect (c : PagedKVCache) (seq : SeqId) (count : ℕ) (c' : PagedKVCache) :
    Prop where
  others : ∀ id ≠ seq, c'.blockTable id = c.blockTable id
  grown : ∃ t fresh, c.blockTable seq = some t ∧
    c'.blockTable seq = some ⟨t.blocks ++ fresh, t.numTokens + count⟩ ∧
    c.freeList = c'.freeList ++ fresh.reverse

/-- An append is refused and changes nothing, or grows the table of its sequence by free
blocks. -/
theorem append_effect (c : PagedKVCache) (seq : SeqId) (count : ℕ) :
    ∃ c' result, c.append seq count = some (c', result) ∧
      ((∃ e, result = .error e ∧ c' = c) ∨
        (result = .ok () ∧ c.AppendEffect seq count c')) := by
  rcases append_cases c seq count with ⟨-, ha⟩ | ⟨t, -, -, ha⟩ | ⟨t, ht, hn, ha⟩
  · exact ⟨c, _, ha, Or.inl ⟨_, rfl, rfl⟩⟩
  · exact ⟨c, _, ha, Or.inl ⟨_, rfl, rfl⟩⟩
  · refine ⟨_, _, ha, Or.inr ⟨rfl, fun id hne => blockTable_append_ne ha hne, ?_⟩⟩
    refine ⟨t, c.popped (c.blocksNeededFor seq count), ht, AList.lookup_insert _, ?_⟩
    simp only [popped, List.reverse_reverse]
    exact (List.take_append_drop _ _).symm

theorem slot_free (h : c.slot seq i = some p) (hne : seq ≠ id) :
    (c.free id).slot seq i = some p := by
  rw [slot_congr (blockSize_free c id) (blockTable_free_ne hne)]
  exact h

theorem slot_admitSeq (h : c.slot seq i = some p) (id : SeqId) :
    (c.admitSeq id).slot seq i = some p := by
  obtain ⟨t, ht, -, -⟩ := slot_eq_some_iff.mp h
  rw [slot_congr (blockSize_admitSeq c id) ((blockTable_admitSeq ht id).trans ht.symm)]
  exact h

theorem slot_append {count : ℕ} {result : Except CacheError Unit}
    (ha : c.append id count = some (c', result)) (h : c.slot seq i = some p) :
    c'.slot seq i = some p := by
  have hb := blockSize_append ha
  obtain ⟨c₁, r₁, ha₁, he⟩ := append_effect c id count
  obtain ⟨rfl, rfl⟩ := Prod.mk.inj (Option.some.inj (ha₁.symm.trans ha))
  rcases he with ⟨-, -, rfl⟩ | ⟨-, he⟩
  · exact h
  · by_cases hne : seq = id
    · subst hne
      obtain ⟨t, fresh, ht, ht', -⟩ := he.grown
      exact slot_of_extends hb ht ht' rfl (Nat.le_add_right _ _) h
    · rw [slot_congr hb (he.others seq hne)]
      exact h

theorem slot_op {o : CacheOp} (ho : c.op o = some (c', ())) (hd : ¬c.Drops seq o)
    (h : c.slot seq i = some p) : c'.slot seq i = some p := by
  rcases op_cases ho with ⟨id, -, rfl⟩ | ⟨id, count, result, -, ha⟩ | ⟨id, rfl, rfl⟩ |
    ⟨order, rfl, rfl | ⟨id, hid, rfl⟩⟩
  · exact slot_admitSeq h id
  · exact slot_append ha h
  · exact slot_free h fun he => hd he.symm
  · exact h
  · refine slot_free h ?_
    rintro rfl
    exact hd hid

theorem Retains.concat {ops : List CacheOp} {o : CacheOp} (h : c.Retains seq (ops ++ [o])) :
    c.Retains seq ops :=
  fun past o' c' os hp => h past o' c' os (hp.trans (List.prefix_append _ _))

theorem slot_run (hv : c.Valid) {ops : List CacheOp} (hr : c.Retains seq ops)
    (h : c.slot seq i = some p) :
    ∃ c' os, Machine.run op c ops = some (c', os) ∧ c'.Valid ∧ c'.slot seq i = some p := by
  -- from the end of the script, where the earlier calls retain the sequence as well
  induction ops using List.reverseRecOn with
  | nil => exact ⟨c, [], rfl, hv, h⟩
  | append_singleton ops o ih =>
    obtain ⟨c₁, os, hrun, hv₁, h₁⟩ := ih hr.concat
    obtain ⟨c₂, ho, hv₂, -, -⟩ := op_spec hv₁ o
    have hd : ¬c₁.Drops seq o := hr ops o c₁ os (List.prefix_refl _) hrun
    exact ⟨c₂, _, Machine.run_concat hrun ho, hv₂, slot_op ho hd h₁⟩

namespace Valid

theorem nodup_owned (h : c.Valid) : c.owned.Nodup :=
  (List.nodup_append.mp (h.partition.nodup_iff.mpr List.nodup_range)).2.1

theorem isSome_slot_iff (h : c.Valid) : (c.slot seq i).isSome ↔ i < c.seqLen seq := by
  rw [slot, seqLen]
  cases ht : c.blockTable seq with
  | none => simp [show c.tables.lookup seq = none from ht]
  | some t =>
    have hlen : ((c.tables.lookup seq).map BlockTable.numTokens).getD 0 = t.numTokens := by
      rw [show c.tables.lookup seq = some t from ht]
      rfl
    rw [hlen]
    constructor
    · intro hs
      by_contra hi
      simp [hi] at hs
    · intro hi
      simpa [hi] using (Paging.isSome_place c.blockSize_pos).mpr (hi.trans_le (h.numTokens_le ht))

theorem slot_injective (h : c.Valid) (hi : c.slot seq i = some p) (hj : c.slot id j = some p) :
    seq = id ∧ i = j := by
  obtain ⟨t, ht, -, hp⟩ := slot_eq_some_iff.mp hi
  obtain ⟨t', ht', -, hp'⟩ := slot_eq_some_iff.mp hj
  obtain ⟨he, hij⟩ := Paging.place_injective_flatMap h.nodup_owned
    (Keyed.mem_entries_iff.mpr ht) (Keyed.mem_entries_iff.mpr ht') hp hp'
  exact ⟨congrArg Sigma.fst he, hij⟩

end Valid

end PagedKVCache

open PagedKVCache in
/-- In every cache that a script builds, the stored tokens have slots of their own. A
refused append changes nothing, and one that succeeds only adds free blocks to the table of
its sequence. A token stays in its slot along any further script that neither frees nor
evicts its sequence. -/
theorem slots_private_and_stable (numBlocks blockSize : ℕ) (hb : 0 < blockSize)
    (ops : List CacheOp) :
    ∃ c os, Machine.run op (new numBlocks blockSize hb) ops = some (c, os) ∧
      (∀ seq i, (c.slot seq i).isSome ↔ i < c.seqLen seq) ∧
      (∀ seq i id j p, c.slot seq i = some p → c.slot id j = some p → seq = id ∧ i = j) ∧
      (∀ seq count, ∃ c' result, c.append seq count = some (c', result) ∧
        ((∃ e, result = .error e ∧ c' = c) ∨
          (result = .ok () ∧ c.AppendEffect seq count c'))) ∧
      ∀ more seq i p, c.Retains seq more → c.slot seq i = some p →
        ∃ c' os', Machine.run op c more = some (c', os') ∧ c'.slot seq i = some p := by
  obtain ⟨c, os, hr, hv, -, -⟩ := run_spec numBlocks blockSize hb ops
  refine ⟨c, os, hr, fun _ _ => hv.isSome_slot_iff, fun _ _ _ _ _ => hv.slot_injective,
    append_effect c, ?_⟩
  intro more seq i p hretains hslot
  obtain ⟨c', os', hr', -, hslot'⟩ := slot_run hv hretains hslot
  exact ⟨c', os', hr', hslot'⟩

open PagedKVCache in
theorem slots_private_and_stable_after_eviction :
    let ops : List CacheOp :=
      [.call (.admitSeq 1), .call (.append 1 3), .call (.admitSeq 2), .call (.append 2 1),
        .call (.append 1 2), .call (.append 2 4), .evictLargest ⟨id, fun _ => .refl _⟩]
    ∃ c os, Machine.run op (new 4 2 (by decide)) ops = some (c, os) ∧
      (∀ seq i, (c.slot seq i).isSome ↔ i < c.seqLen seq) ∧
      (∀ seq i id j p, c.slot seq i = some p → c.slot id j = some p → seq = id ∧ i = j) ∧
      (∀ seq count, ∃ c' result, c.append seq count = some (c', result) ∧
        ((∃ e, result = .error e ∧ c' = c) ∨
          (result = .ok () ∧ c.AppendEffect seq count c'))) ∧
      ∀ more seq i p, c.Retains seq more → c.slot seq i = some p →
        ∃ c' os', Machine.run op c more = some (c', os') ∧ c'.slot seq i = some p :=
  slots_private_and_stable 4 2 (by decide) _

end ForgeInfer
