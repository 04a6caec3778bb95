import ForgeInfer.Cache.Slots
import ForgeInfer.Foundation.Largest
import ForgeInfer.Foundation.Monotone

/-! # Memory pressure

How full the cache is, what a refusal is worth, and what evictions gain: the fraction in use
is never misreported, a refused append tells exactly what it lacks, and evicting the largest
tables first frees as much as any choice of as many sequences could.
-/

namespace ForgeInfer

open Binary32

theorem maxByKey_spec {α : Type*} {key : α → ℕ} {l : List α} {x : α}
    (h : maxByKey key l = some x) : x ∈ l ∧ ∀ y ∈ l, key y ≤ key x := by
  cases l with
  | nil => cases h
  | cons z zs =>
    rw [maxByKey, Option.some.injEq] at h
    induction zs generalizing z with
    | nil =>
      obtain rfl : z = x := h
      simp
    | cons y ys ih =>
      rw [List.foldl_cons] at h
      obtain ⟨hmem, hall⟩ := ih _ h
      split at hmem
      · next hle =>
        rw [if_pos hle] at hall
        refine ⟨List.mem_cons_of_mem z hmem, ?_⟩
        rintro w (_ | ⟨_, hw⟩)
        · exact hle.trans (hall y List.mem_cons_self)
        · exact hall w hw
      · next hlt =>
        rw [if_neg hlt] at hall
        have hz := hall z List.mem_cons_self
        constructor
        · rcases List.mem_cons.mp hmem with rfl | hmem
          · exact List.mem_cons_self
          · exact List.mem_cons_of_mem z (List.mem_cons_of_mem y hmem)
        · rintro w (_ | ⟨_, hw⟩)
          · exact hz
          · rcases List.mem_cons.mp hw with rfl | hw
            · exact (not_le.mp hlt).le.trans hz
            · exact hall w (List.mem_cons_of_mem z hw)

namespace PagedKVCache

def utilisation (c : PagedKVCache) : F32 :=
  if c.numBlocks = 0 then 0 else F32.round c.usedBlocks / F32.round c.numBlocks

def held (c : PagedKVCache) : List ℕ := c.tables.entries.map fun e => e.2.blocks.length

variable {c c' : PagedKVCache} {seq id : SeqId} {t : BlockTable}

theorem tables_free (c : PagedKVCache) (id : SeqId) : (c.free id).tables = c.tables.erase id := by
  unfold free
  split
  · next h => exact (AList.ext (List.kerase_of_notMem_keys (AList.lookup_eq_none.mp h))).symm
  · rfl

theorem freeBlocks_free (ht : c.tables.lookup id = some t) :
    (c.free id).freeBlocks = c.freeBlocks + t.blocks.length := by
  simp [free, ht, freeBlocks]

theorem free_of_unknown (ht : c.tables.lookup id = none) : c.free id = c := by
  simp [free, ht]

theorem held_perm (ht : c.tables.lookup id = some t) :
    c.held.Perm (t.blocks.length :: (c.free id).held) := by
  have h := (Keyed.entries_perm_cons_erase ht).map fun e => e.2.blocks.length
  rwa [List.map_cons, ← tables_free] at h

theorem evictLargest_spec (c : PagedKVCache) (order : IterOrder (Σ _ : SeqId, BlockTable)) :
    (c.held = [] ∧ (c.evictLargest order).1 = c) ∨
      ∃ id t, c.tables.lookup id = some t ∧ (c.evictLargest order).1 = c.free id ∧
        ∀ n ∈ c.held, n ≤ t.blocks.length := by
  unfold evictLargest
  cases hmax : maxByKey (fun e => e.2.blocks.length) (order.iter c.tables.entries) with
  | none =>
    left
    have hnil : order.iter c.tables.entries = [] := by
      cases hl : order.iter c.tables.entries with
      | nil => rfl
      | cons e es => rw [hl] at hmax; cases hmax
    have hentries := (order.perm c.tables.entries).symm
    rw [hnil] at hentries
    exact ⟨by rw [held, List.perm_nil.mp hentries, List.map_nil], rfl⟩
  | some e =>
    right
    obtain ⟨hmem, hall⟩ := maxByKey_spec hmax
    have hin := (order.perm c.tables.entries).mem_iff.mp hmem
    refine ⟨e.1, e.2, Keyed.mem_entries_iff.mp hin, rfl, ?_⟩
    intro n hn
    obtain ⟨e', he', rfl⟩ := List.mem_map.mp hn
    exact hall e' ((order.perm c.tables.entries).mem_iff.mpr he')

theorem run_evictions (c : PagedKVCache) (orders : List (IterOrder (Σ _ : SeqId, BlockTable))) :
    ∃ c' os, Machine.run op c (orders.map .evictLargest) = some (c', os) ∧
      c'.freeBlocks = c.freeBlocks + Largest.sum orders.length c.held := by
  induction orders generalizing c with
  | nil => exact ⟨c, [], rfl, by simp⟩
  | cons order orders ih =>
    obtain ⟨c', os, hr, hfree⟩ := ih (c.evictLargest order).1
    refine ⟨c', () :: os, ?_, ?_⟩
    · have hop : c.op (.evictLargest order) = some ((c.evictLargest order).1, ()) := rfl
      rw [List.map_cons, Machine.run_cons_of_step hop, hr]
      rfl
    · rw [hfree]
      rcases c.evictLargest_spec order with ⟨hnil, he⟩ | ⟨id, t, ht, he, hall⟩
      · rw [he, hnil]
        simp
      · have hperm := held_perm ht
        rw [he, freeBlocks_free ht, List.length_cons, Largest.sum_succ_of_perm hperm fun n hn =>
          hall n (hperm.mem_iff.mpr (List.mem_cons_of_mem _ hn)), Nat.add_assoc]

theorem freeBlocks_foldl_free (c : PagedKVCache) (ids : List SeqId) :
    ∃ m : List ℕ, m.Subperm c.held ∧ m.length ≤ ids.length ∧
      (ids.foldl free c).freeBlocks = c.freeBlocks + m.sum := by
  induction ids generalizing c with
  | nil => exact ⟨[], List.nil_subperm, le_rfl, rfl⟩
  | cons id ids ih =>
    obtain ⟨m, hm, hlen, hfree⟩ := ih (c.free id)
    rw [List.foldl_cons, hfree]
    cases ht : c.tables.lookup id with
    | none =>
      rw [free_of_unknown ht] at hm ⊢
      exact ⟨m, hm, hlen.trans (Nat.le_succ _), rfl⟩
    | some t =>
      refine ⟨t.blocks.length :: m, ?_, Nat.succ_le_succ hlen, ?_⟩
      · exact (List.subperm_cons _).mpr hm |>.trans (held_perm ht).symm.subperm
      · rw [freeBlocks_free ht, List.sum_cons, Nat.add_assoc]

/-- No operation of the script frees, evicts or appends to the sequence. -/
def Spares (c : PagedKVCache) (seq : SeqId) (ops : List CacheOp) : Prop :=
  ∀ past o c' os, past ++ [o] <+: ops → Machine.run op c past = some (c', os) →
    ¬c'.Drops seq o ∧ ∀ count, o ≠ .call (.append seq count)

theorem Spares.concat {ops : List CacheOp} {o : CacheOp} (h : c.Spares seq (ops ++ [o])) :
    c.Spares seq ops :=
  fun past o' c' os hp => h past o' c' os (hp.trans (List.prefix_append _ _))

theorem blockTable_op {o : CacheOp} (ho : c.op o = some (c', ())) (hd : ¬c.Drops seq o)
    (ha : ∀ count, o ≠ .call (.append seq count)) (ht : c.blockTable seq = some t) :
    c'.blockTable seq = some t := by
  rcases op_cases ho with ⟨id, -, rfl⟩ | ⟨id, count, result, rfl, happ⟩ | ⟨id, rfl, rfl⟩ |
    ⟨order, rfl, rfl | ⟨id, hid, rfl⟩⟩
  · exact blockTable_admitSeq ht id
  · have hne : seq ≠ id := by
      rintro rfl
      exact ha count rfl
    rwa [blockTable_append_ne happ hne]
  · have hne : seq ≠ id := fun he => hd he.symm
    rwa [blockTable_free_ne hne]
  · exact ht
  · have hne : seq ≠ id := by
      rintro rfl
      exact hd hid
    rwa [blockTable_free_ne hne]

theorem blockTable_run (hv : c.Valid) {ops : List CacheOp} (hs : c.Spares seq ops)
    (ht : c.blockTable seq = some t) :
    ∃ c' os, Machine.run op c ops = some (c', os) ∧ c'.Valid ∧ c'.blockSize = c.blockSize ∧
      c'.numBlocks = c.numBlocks ∧ c'.blockTable seq = some t := by
  -- from the end of the script, where the earlier calls spare the sequence as well
  induction ops using List.reverseRecOn with
  | nil => exact ⟨c, [], rfl, hv, rfl, rfl, ht⟩
  | append_singleton ops o ih =>
    obtain ⟨c₁, os, hrun, hv₁, hsize, hnum, ht₁⟩ := ih hs.concat
    obtain ⟨c₂, ho, hv₂, hnum₂, -⟩ := op_spec hv₁ o
    obtain ⟨hd, ha⟩ := hs ops o c₁ os (List.prefix_refl _) hrun
    exact ⟨c₂, _, Machine.run_concat hrun ho, hv₂, (blockSize_op ho).trans hsize, hnum₂.trans hnum,
      blockTable_op ho hd ha ht₁⟩

theorem blockSize_run {ops : List CacheOp} {os : List Unit}
    (h : Machine.run op c ops = some (c', os)) : c'.blockSize = c.blockSize := by
  induction ops generalizing c os with
  | nil =>
    obtain ⟨rfl, -⟩ := Prod.mk.inj (Option.some.inj h)
    rfl
  | cons o ops ih =>
    cases ho : c.op o with
    | none => simp [Machine.run, ho] at h
    | some r =>
      rw [Machine.run_cons_of_step (show c.op o = some (r.1, ()) from ho),
        Option.map_eq_some_iff] at h
      obtain ⟨⟨c₂, os₂⟩, hr, he⟩ := h
      obtain ⟨rfl, -⟩ := Prod.mk.inj he
      exact (ih hr).trans (blockSize_op ho)

theorem append_ok_iff {count : ℕ} (ht : c.blockTable seq = some t) :
    (∃ c', c.append seq count = some (c', .ok ())) ↔
      c.blocksNeededFor seq count ≤ c.freeBlocks := by
  rcases append_cases c seq count with ⟨hm, -⟩ | ⟨t', -, hn, he⟩ | ⟨t', -, hn, he⟩
  · exact absurd ht (by simp [blockTable, AList.lookup_eq_none.mpr hm])
  · constructor
    · rintro ⟨c', h⟩
      rw [he] at h
      cases h
    · exact fun h => absurd h (not_le.mpr hn)
  · exact ⟨fun _ => hn, fun _ => ⟨_, he⟩⟩

theorem blocksNeededFor_congr (hb : c'.blockSize = c.blockSize)
    (ht : c'.blockTable seq = c.blockTable seq) (count : ℕ) :
    c'.blocksNeededFor seq count = c.blocksNeededFor seq count := by
  simp only [blockTable] at ht
  simp only [blocksNeededFor, hb, ht]

theorem run_frees (c : PagedKVCache) (ids : List SeqId) :
    ∃ os, Machine.run op c (ids.map fun id => .call (.free id)) = some (ids.foldl free c, os) := by
  induction ids generalizing c with
  | nil => exact ⟨[], rfl⟩
  | cons id ids ih =>
    obtain ⟨os, hr⟩ := ih (c.free id)
    refine ⟨() :: os, ?_⟩
    rw [List.map_cons, Machine.run_cons_of_step (show c.op (.call (.free id)) = _ from rfl), hr]
    rfl

theorem lookup_foldl_free (c : PagedKVCache) (ids : List SeqId) (seq : SeqId) :
    (ids.foldl free c).tables.lookup seq = if seq ∈ ids then none else c.tables.lookup seq := by
  induction ids generalizing c with
  | nil => rfl
  | cons id ids ih =>
    rw [List.foldl_cons, ih, tables_free]
    by_cases hid : seq = id
    · subst hid
      simp
    · rw [AList.lookup_erase_ne hid]
      simp [hid]

theorem spares_frees {ids : List SeqId} (h : seq ∉ ids) :
    c.Spares seq (ids.map fun id => .call (.free id)) := by
  intro past o c' os hp _
  have ho : o ∈ ids.map fun id => CacheOp.call (.free id) :=
    hp.subset (List.mem_append_right past (List.mem_singleton_self o))
  obtain ⟨id, hid, rfl⟩ := List.mem_map.mp ho
  constructor
  · intro (he : id = seq)
    exact h (he ▸ hid)
  · rintro count ⟨⟩

namespace Valid

theorem freeBlocks_add_le (h : c.Valid) (ht : c.tables.lookup seq = some t) :
    c.freeBlocks + t.blocks.length ≤ c.numBlocks := by
  have hlen := h.length_freeList_add
  rw [(owned_perm ht).length_eq, List.length_append] at hlen
  rw [freeBlocks]
  omega

theorem freeBlocks_add_eq (h : c.Valid) (ht : c.tables.lookup seq = some t)
    (halone : ∀ id, id ≠ seq → c.tables.lookup id = none) :
    c.freeBlocks + t.blocks.length = c.numBlocks := by
  have hnil : (c.tables.erase seq).entries = [] := by
    rw [List.eq_nil_iff_forall_not_mem]
    rintro ⟨id, t'⟩ he
    have hl := Keyed.mem_entries_iff.mp he
    by_cases hid : id = seq
    · subst hid
      simp at hl
    · rw [AList.lookup_erase_ne hid, halone id hid] at hl
      cases hl
  have hlen := h.length_freeList_add
  rw [(owned_perm ht).length_eq, hnil, List.flatMap_nil, List.append_nil] at hlen
  exact hlen

/-- A refused append can come to succeed exactly when its sequence would fit by itself. -/
theorem can_append_iff (h : c.Valid) (ht : c.tables.lookup seq = some t) (count : ℕ) :
    (∃ more c' os c'', c.Spares seq more ∧ Machine.run op c more = some (c', os) ∧
      c'.append seq count = some (c'', .ok ())) ↔
        (t.numTokens + count) ⌈/⌉ c.blockSize ≤ c.numBlocks := by
  have hneed := h.blocksNeededFor_eq ht count
  rw [← h.capacity_of_lookup ht] at hneed
  constructor
  · rintro ⟨more, c', os, c'', hs, hr, happ⟩
    obtain ⟨c₁, os₁, hr₁, hv₁, hsize, hnum, ht₁⟩ := blockTable_run h hs ht
    obtain ⟨rfl, -⟩ := Prod.mk.inj (Option.some.inj (hr₁.symm.trans hr))
    have hroom := (append_ok_iff ht₁).mp ⟨c'', happ⟩
    have hadd := hv₁.freeBlocks_add_le ht₁
    rw [blocksNeededFor_congr hsize (ht₁.trans ht.symm)] at hroom
    omega
  · intro hfit
    let ids := c.tables.keys.filter fun id => id ≠ seq
    have hnot : seq ∉ ids := by simp [ids]
    have hs : c.Spares seq (ids.map fun id => .call (.free id)) := spares_frees hnot
    obtain ⟨c', os, hr, hv, hsize, hnum, ht'⟩ := blockTable_run h hs ht
    obtain ⟨os', hrun⟩ := run_frees c ids
    obtain ⟨hc, -⟩ := Prod.mk.inj (Option.some.inj (hr.symm.trans hrun))
    have halone : ∀ id, id ≠ seq → c'.tables.lookup id = none := by
      intro id hid
      rw [hc, lookup_foldl_free]
      by_cases hmem : id ∈ ids
      · rw [if_pos hmem]
      · rw [if_neg hmem, AList.lookup_eq_none]
        intro hin
        exact hmem (List.mem_filter.mpr ⟨hin, by simpa using hid⟩)
    have hfree := hv.freeBlocks_add_eq ht' halone
    have hroom : c'.blocksNeededFor seq count ≤ c'.freeBlocks := by
      rw [blocksNeededFor_congr hsize (ht'.trans ht.symm)]
      omega
    obtain ⟨c'', happ⟩ := (append_ok_iff ht').mpr hroom
    exact ⟨_, c', os, c'', hs, hr, happ⟩

end Valid

end PagedKVCache

open PagedKVCache in
/-- Evictions in a row, whatever order the map is listed in, free as many blocks as the largest
tables hold, which is the most that freeing as many sequences can gain. -/
theorem evictions_free_most (c : PagedKVCache)
    (orders : List (IterOrder (Σ _ : SeqId, BlockTable))) :
    ∃ c' os, Machine.run op c (orders.map .evictLargest) = some (c', os) ∧
      c'.freeBlocks = c.freeBlocks + Largest.sum orders.length c.held ∧
      ∀ ids : List SeqId, ids.length ≤ orders.length →
        (ids.foldl free c).freeBlocks ≤ c'.freeBlocks := by
  obtain ⟨c', os, hr, hfree⟩ := run_evictions c orders
  refine ⟨c', os, hr, hfree, ?_⟩
  intro ids hlen
  obtain ⟨m, hm, hmlen, hgain⟩ := freeBlocks_foldl_free c ids
  rw [hgain, hfree]
  exact Nat.add_le_add_left (Largest.sum_le_sum hm (hmlen.trans hlen)) _

open PagedKVCache in
/-- A refused append of a cache in use names the free blocks and what it lacks. Whatever is done
to other sequences afterwards, it succeeds as soon as the blocks it named are free, and not
before; and they can become free exactly when its sequence would fit the cache by itself. -/
theorem refusals_are_exact (numBlocks blockSize : ℕ) (hb : 0 < blockSize) (ops : List CacheOp) :
    ∃ c os, Machine.run op (new numBlocks blockSize hb) ops = some (c, os) ∧
      ∀ seq count needed free, c.append seq count = some (c, .error (.outOfBlocks needed free)) →
        free = c.freeBlocks ∧ free < needed ∧
        (∀ more, c.Spares seq more → ∃ c' os', Machine.run op c more = some (c', os') ∧
          ((∃ c'', c'.append seq count = some (c'', .ok ())) ↔ needed ≤ c'.freeBlocks)) ∧
        ((∃ more c' os' c'', c.Spares seq more ∧ Machine.run op c more = some (c', os') ∧
          c'.append seq count = some (c'', .ok ())) ↔
            (c.seqLen seq + count) ⌈/⌉ blockSize ≤ numBlocks) := by
  obtain ⟨c, os, hr, hv, hnum, -⟩ := run_spec numBlocks blockSize hb ops
  have hsize : c.blockSize = blockSize := blockSize_run hr
  refine ⟨c, os, hr, ?_⟩
  intro seq count needed free happ
  rcases append_cases c seq count with ⟨-, he⟩ | ⟨t, ht, hn, he⟩ | ⟨t, -, -, he⟩
  · rw [he] at happ
    cases happ
  · rw [he] at happ
    cases happ
    refine ⟨rfl, hn, ?_, ?_⟩
    · intro more hs
      obtain ⟨c', os', hr', -, hsize', -, ht'⟩ := blockTable_run hv hs ht
      refine ⟨c', os', hr', ?_⟩
      rw [append_ok_iff ht', blocksNeededFor_congr hsize' (ht'.trans ht.symm)]
    · have hlen : c.seqLen seq = t.numTokens := by
        rw [seqLen, ht]
        rfl
      rw [hv.can_append_iff ht, hlen, hsize, hnum]
  · rw [he, Option.some.injEq, Prod.mk.injEq] at happ
    cases happ.2

/-- A sequence of three tokens that wants four more while another holds half of the cache, and
one that never fits. -/
theorem refusals_are_exact_under_pressure :
    let ops : List CacheOp :=
      [.call (.admitSeq 1), .call (.append 1 3), .call (.admitSeq 2), .call (.append 2 4)]
    ∃ c os, Machine.run PagedKVCache.op (.new 4 2 (by decide)) ops = some (c, os) ∧
      ∀ seq count needed free, c.append seq count = some (c, .error (.outOfBlocks needed free)) →
        free = c.freeBlocks ∧ free < needed ∧
        (∀ more, c.Spares seq more → ∃ c' os', Machine.run PagedKVCache.op c more = some (c', os') ∧
          ((∃ c'', c'.append seq count = some (c'', .ok ())) ↔ needed ≤ c'.freeBlocks)) ∧
        ((∃ more c' os' c'', c.Spares seq more ∧ Machine.run PagedKVCache.op c more = some (c', os') ∧
          c'.append seq count = some (c'', .ok ())) ↔ ((c.seqLen seq + count) ⌈/⌉ (2 : ℕ) : ℕ) ≤ 4) :=
  refusals_are_exact 4 2 (by decide) _

open PagedKVCache in
/-- The reported utilisation is that of the blocks in use in every cache that a script builds. -/
theorem utilisation_is_fraction (numBlocks blockSize : ℕ) (hb : 0 < blockSize)
    (hbig : numBlocks < 2 ^ 64) (ops : List CacheOp) :
    ∃ c os, Machine.run op (new numBlocks blockSize hb) ops = some (c, os) ∧
      F32.IsFraction c.owned.length numBlocks c.utilisation := by
  obtain ⟨c, os, hr, hv, hnum, -⟩ := run_spec numBlocks blockSize hb ops
  refine ⟨c, os, hr, ?_⟩
  have hlen := hv.length_freeList_add
  have hused : c.usedBlocks = c.owned.length := by
    rw [usedBlocks]
    omega
  rw [utilisation, hused, hnum]
  exact F32.isFraction (by omega) hbig

theorem utilisation_is_fraction_of_four :
    let ops : List CacheOp :=
      [.call (.admitSeq 1), .call (.append 1 3), .call (.admitSeq 2), .call (.append 2 1)]
    ∃ c os, Machine.run PagedKVCache.op (.new 4 2 (by decide)) ops = some (c, os) ∧
      F32.IsFraction c.owned.length 4 c.utilisation :=
  utilisation_is_fraction 4 2 (by decide) (by decide) _

end ForgeInfer
