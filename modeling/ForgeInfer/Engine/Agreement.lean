import ForgeInfer.Engine.Refinement

/-! # Scheduler and cache agree

Tokens are counted twice, as reserved slots of the cache and as a sequence's prompt and
output. A placement sets both, and an engine step moves both by one or neither, so
between the engine's calls they are equal.
-/

namespace ForgeInfer

namespace Ledger

variable {L : Limits} {m : Model} {a : Ledger}

def Synced (a : Ledger) : Prop := ∀ x ∈ a.running, x.held = x.seq.totalLen

theorem Synced.placed (h : a.Synced) (L : Limits) : ∀ x ∈ a.placed L, x.held = x.seq.totalLen := by
  intro x hx
  rcases List.mem_append.mp hx with hx | hx
  · exact h x hx
  · obtain ⟨s, -, rfl⟩ := List.mem_map.mp hx
    rfl

theorem Synced.fits_alone_iff (hs : a.Synced) (hv : a.Valid L) {x : Slot} (hx : x ∈ a.placed L) :
    L.Fits [x] ↔ x.seq.isComplete = true ∨ L.blocks (x.seq.totalLen + 1) ≤ L.numBlocks := by
  have hheld := hs.placed L x hx
  unfold Limits.Fits Limits.demand
  rw [List.map_singleton, Limits.used_cons, Limits.used_nil, Nat.add_zero]
  cases hc : x.seq.isComplete with
  | true =>
    rw [Slot.grow_of_complete hc]
    refine iff_of_true ?_ (Or.inl rfl)
    have hle : L.used [x] ≤ L.used (a.placed L) :=
      Limits.used_sublist_le (List.singleton_sublist.mpr hx)
    exact (Nat.le_add_right _ _).trans (hle.trans hv.used_placed_le)
  | false =>
    rw [Slot.held_grow_of_incomplete hc, hheld]
    simp

theorem Synced.survivors (h : a.Synced) (L : Limits) :
    ∀ x ∈ a.survivors L, x.held = x.seq.totalLen := fun x hx =>
  h.placed L x ((a.survivors_sublist L).subset hx)

theorem Synced.step (h : a.Synced) (L : Limits) (m : Model) : (a.step L m).1.Synced := by
  intro z hz
  obtain ⟨y, hy, rfl⟩ := List.mem_map.mp hz
  obtain ⟨x, hx, rfl⟩ := List.mem_map.mp hy
  have hs := h.survivors L x (List.mem_of_mem_filter hx)
  have hg := Slot.held_grow_of_incomplete (incomplete_of_mem_batch hx)
  simp only [hg, hs, Slot.decode, Slot.seq_grow, Sequence.totalLen,
    Sequence.pushToken, List.length_append, List.length_singleton]
  omega

theorem synced_exec (L : Limits) (m : Model) (ops : List EngineOp) :
    (Machine.exec (engineOp L m) .empty ops).1.Synced := by
  have hok : Machine.PrefixClosed fun _ : List EngineOp => True := fun _ _ _ => trivial
  refine Machine.exec_invariant hok (P := fun _ (a : Ledger) _ => a.Synced) ?_ ?_ ops trivial
  · rintro x ⟨⟩
  · rintro ops (⟨id, prompt, maxNewTokens⟩ | ⟨⟩) - ih
    · exact ih
    · exact ih.step L m

end Ledger

namespace PagedKVCache.Holds

variable {c : PagedKVCache} {L : Limits} {run : List Slot} {peak : ℕ}

theorem seqLen_eq (h : c.Holds L run peak) {x : Slot} (hx : x ∈ run) :
    c.seqLen x.seq.id = x.held := by
  rw [PagedKVCache.seqLen_eq, Counter.seqLen, h.lookup hx]; rfl

end PagedKVCache.Holds

/-- What the scheduler believes about its cache between two calls. -/
structure Scheduler.Agrees (s : Scheduler) (blockSize : ℕ) : Prop where
  tables : ∀ id, s.cache.contains id ↔ id ∈ s.running.map (·.id)
  lengths : ∀ x ∈ s.running, s.cache.seqLen x.id = x.prompt.length + x.output.length
  blocks : ∀ x ∈ s.running, ∃ t, s.cache.blockTable x.id = some t ∧
    t.blocks.length = (s.cache.seqLen x.id) ⌈/⌉ blockSize
  used : s.cache.usedBlocks =
    (s.running.map fun x => ((x.prompt.length + x.output.length) ⌈/⌉ blockSize : ℕ)).sum

theorem Scheduler.Refines.agrees {s : Scheduler} {L : Limits} {a : Ledger} (h : s.Refines L a)
    (hs : a.Synced) : s.Agrees L.blockSize where
  tables := by
    intro id
    have hm := h.cache.mem_iff id
    simpa [PagedKVCache.contains, h.running_eq] using hm
  lengths := by
    rw [h.running_eq]
    rintro _ hmem
    obtain ⟨x, hx, rfl⟩ := List.mem_map.mp hmem
    rw [h.cache.seqLen_eq hx, hs x hx]
    rfl
  blocks := by
    rw [h.running_eq]
    rintro _ hmem
    obtain ⟨x, hx, rfl⟩ := List.mem_map.mp hmem
    obtain ⟨t, ht, -, hlen⟩ := h.cache.blockTable_eq hx
    exact ⟨t, ht, by rw [hlen, h.cache.seqLen_eq hx]; rfl⟩
  used := by
    rw [h.cache.usedBlocks_eq, h.running_eq, List.map_map, Limits.used]
    refine congrArg List.sum (List.map_congr_left fun x hx => ?_)
    rw [hs x hx]
    rfl

/-- Between the engine's calls exactly the running sequences have tables, and a table
has exactly the blocks that its sequence's tokens fill. -/
theorem scheduler_and_cache_agree (m : Model) (maxBatchSize numBlocks blockSize : ℕ)
    (hb : 0 < blockSize) (ops : List EngineOp) (hids : (submittedTo ops).Nodup) :
    ∃ e answers,
      Machine.run Engine.op (.new m ⟨maxBatchSize⟩ (.new numBlocks blockSize hb)) ops =
        some (e, answers) ∧
      e.scheduler.Agrees blockSize ∧
      (e.scheduler.running = [] → e.scheduler.cache.usedBlocks = 0) := by
  obtain ⟨e, hr, he⟩ := Engine.run_refines ⟨maxBatchSize, numBlocks, blockSize, hb⟩ m ops hids
  have ha := he.scheduler.agrees (Ledger.synced_exec _ m ops)
  refine ⟨e, _, hr, ha, fun hnil => ?_⟩
  rw [ha.used, hnil]
  rfl

theorem scheduler_and_cache_agree_under_pressure :
    let m : Model := ⟨2, 1, 0, fun _ => ⟨[0, 1]⟩⟩
    let ops : List EngineOp := [.submit 1 [5, 6] 3, .submit 2 [7, 8] 3, .step, .step]
    ∃ e answers,
      Machine.run Engine.op (.new m ⟨2⟩ (.new 3 2 (by decide))) ops = some (e, answers) ∧
      e.scheduler.Agrees 2 ∧
      (e.scheduler.running = [] → e.scheduler.cache.usedBlocks = 0) :=
  scheduler_and_cache_agree _ 2 3 2 (by decide) _ (by decide)

end ForgeInfer
