import ForgeInfer.Cache.Frame
import ForgeInfer.Scheduler.Conservation

/-! # Iterations of any scheduler

Nothing stops a caller from submitting one id twice, and then two sequences share a block
table. Still no iteration panics, no block is lost, and every table belongs to a running
sequence. Each loop keeps this whatever the ids are.
-/

namespace ForgeInfer

namespace PagedKVCache

variable {c c' : PagedKVCache} {id j : SeqId}

theorem mem_tables_admitSeq : j ∈ (c.admitSeq id).tables → j = id ∨ j ∈ c.tables := by
  unfold admitSeq
  split
  · exact Or.inr
  · exact (AList.mem_insert _).mp

theorem mem_tables_free (h : j ∈ (c.free id).tables) : j ≠ id ∧ j ∈ c.tables := by
  unfold free at h
  split at h
  · next hnone =>
    refine ⟨?_, h⟩
    rintro rfl
    exact AList.lookup_eq_none.mp hnone h
  · exact AList.mem_erase.mp h

theorem mem_tables_append {count : ℕ} {result : Except CacheError Unit}
    (h : c.append id count = some (c', result)) (hj : j ∈ c'.tables) : j ∈ c.tables := by
  rcases append_cases c id count with ⟨-, ha⟩ | ⟨t, -, -, ha⟩ | ⟨t, ht, -, ha⟩
  all_goals
    rw [ha, Option.some.injEq, Prod.mk.injEq] at h
    obtain ⟨rfl, -⟩ := h
  · exact hj
  · exact hj
  · rcases (AList.mem_insert _).mp hj with rfl | hj
    · exact AList.lookup_isSome.mp (Option.isSome_of_eq_some ht)
    · exact hj

/-- A valid cache of a size whose tables all belong to sequences of the list. -/
structure Backs (c : PagedKVCache) (numBlocks : ℕ) (run : List Sequence) : Prop where
  valid : c.Valid
  numBlocks_eq : c.numBlocks = numBlocks
  owners : ∀ id ∈ c.tables, id ∈ run.map (·.id)

namespace Backs

variable {numBlocks : ℕ} {run run' : List Sequence}

theorem append (h : c.Backs numBlocks run) (id : SeqId) (count : ℕ) :
    ∃ c' result, c.append id count = some (c', result) ∧ c'.Backs numBlocks run := by
  obtain ⟨c', hop, hv, hn, -⟩ := op_spec h.valid (.call (.append id count))
  rcases op_cases hop with ⟨i, he, -⟩ | ⟨i, k, result, he, ha⟩ | ⟨i, he, -⟩ | ⟨order, he, -⟩
  · cases he
  · cases he
    exact ⟨c', result, ha, hv, hn.trans h.numBlocks_eq, fun j hj =>
      h.owners j (mem_tables_append ha hj)⟩
  · cases he
  · cases he

theorem admitSeq (h : c.Backs numBlocks run) {s s' : Sequence} (hid : s'.id = s.id) :
    (c.admitSeq s.id).Backs numBlocks (run ++ [s']) := by
  refine ⟨h.valid.admitSeq s.id, (numBlocks_admitSeq c s.id).trans h.numBlocks_eq, ?_⟩
  intro j hj
  rw [List.map_append, List.mem_append]
  rcases mem_tables_admitSeq hj with rfl | hj
  · exact Or.inr (by simp [hid])
  · exact Or.inl (h.owners j hj)

/-- Without the table of an id, the others with it need not be there. -/
theorem free (h : c.Backs numBlocks run)
    (hrun : ∀ j ∈ run.map (·.id), j ≠ id → j ∈ run'.map (·.id)) :
    (c.free id).Backs numBlocks run' := by
  refine ⟨h.valid.free id, (numBlocks_free c id).trans h.numBlocks_eq, ?_⟩
  intro j hj
  obtain ⟨hne, hj⟩ := mem_tables_free hj
  exact hrun j (h.owners j hj) hne

end Backs

end PagedKVCache

namespace Scheduler

variable {numBlocks : ℕ} {c : PagedKVCache} {run : List Sequence}

theorem admissionLoop_backs {maxBatchSize : ℕ} (h : c.Backs numBlocks run)
    (hlen : run.length ≤ maxBatchSize) (waiting : List Sequence) (admitted : List SeqId) :
    ∃ A, admissionLoop maxBatchSize waiting c run admitted = some A ∧
      A.cache.Backs numBlocks A.running ∧ A.running.length ≤ maxBatchSize ∧
      A.running.map (·.id) ++ A.waiting.map (·.id) = run.map (·.id) ++ waiting.map (·.id) := by
  induction waiting generalizing c run admitted with
  | nil => exact ⟨_, rfl, h, hlen, rfl⟩
  | cons s rest ih =>
    rw [admissionLoop]
    split
    · next hroom =>
      have hadmit : (c.admitSeq s.id).Backs numBlocks (run ++ [{ s with state := .running }]) :=
        h.admitSeq rfl
      obtain ⟨c', result, ha, h'⟩ := hadmit.append s.id s.totalLen
      rw [ha]
      cases result with
      | ok u =>
        obtain ⟨A, hA, hback, hle, hids⟩ := ih h'
          (by rw [List.length_append]; exact hroom) (admitted ++ [s.id])
        exact ⟨A, hA, hback, hle, by simpa using hids⟩
      | error e =>
        refine ⟨_, rfl, h'.free fun j hj hne => ?_, hlen, rfl⟩
        simp only [List.map_append, List.mem_append, List.map_singleton, List.mem_singleton] at hj
        exact hj.resolve_right hne
    · exact ⟨_, rfl, h, hlen, rfl⟩

theorem preemptionLoop_backs (n : ℕ) {p : Preemption} (h : p.cache.Backs numBlocks p.running) :
    (preemptionLoop n p).cache.Backs numBlocks (preemptionLoop n p).running ∧
      (preemptionLoop n p).running.length ≤ p.running.length ∧
      ((preemptionLoop n p).running.map (·.id) ++ (preemptionLoop n p).waiting.map (·.id)).Perm
        (p.running.map (·.id) ++ p.waiting.map (·.id)) := by
  induction n generalizing p with
  | zero => exact ⟨h, le_rfl, .refl _⟩
  | succ n ih =>
    rw [preemptionLoop]
    split
    · exact ⟨h, le_rfl, .refl _⟩
    · split
      · exact ⟨h, le_rfl, .refl _⟩
      · next i _ =>
        split
        · exact ⟨h, le_rfl, .refl _⟩
        · next victim hv =>
          obtain ⟨hi, hget⟩ := List.getElem?_eq_some_iff.mp hv
          have hperm : p.running.Perm (victim :: p.running.eraseIdx i) := by
            rw [← hget]
            exact (List.getElem_cons_eraseIdx_perm hi).symm
          have hrest : ∀ j ∈ p.running.map (·.id), j ≠ victim.id →
              j ∈ (p.running.eraseIdx i).map (·.id) := by
            intro j hj hne
            rw [(hperm.map _).mem_iff] at hj
            exact (List.mem_cons.mp hj).resolve_left hne
          obtain ⟨hback, hle, hids⟩ := ih (p := { p with
            waiting := { victim with state := .preempted } :: p.waiting
            cache := p.cache.free victim.id
            running := p.running.eraseIdx i
            preempted := p.preempted ++ [victim.id] }) (h.free hrest)
          refine ⟨hback, hle.trans (List.length_eraseIdx_le _ _), hids.trans ?_⟩
          refine List.perm_middle.trans ?_
          exact ((hperm.map (·.id)).symm.append_right _)

theorem commitLoop_backs (h : c.Backs numBlocks run) (todo : List Sequence) (batch : List SeqId) :
    ∃ c' batch', commitLoop todo c batch = some (c', batch ++ batch') ∧ c'.Backs numBlocks run ∧
      ∀ id ∈ batch', ∃ s ∈ todo, s.isComplete = false ∧ s.id = id := by
  induction todo generalizing c batch with
  | nil => exact ⟨c, [], by simp [commitLoop], h, by simp⟩
  | cons s todo ih =>
    have hlift : ∀ {ids : List SeqId}, (∀ id ∈ ids, ∃ t ∈ todo, t.isComplete = false ∧ t.id = id) →
        ∀ id ∈ ids, ∃ t ∈ s :: todo, t.isComplete = false ∧ t.id = id := by
      intro ids hids id hid
      obtain ⟨t, ht, hrest⟩ := hids id hid
      exact ⟨t, List.mem_cons_of_mem s ht, hrest⟩
    rw [commitLoop]
    split
    · obtain ⟨c', batch', hc, hback, hids⟩ := ih h batch
      exact ⟨c', batch', hc, hback, hlift hids⟩
    · next hs =>
      rw [not_or, Bool.not_eq_true] at hs
      obtain ⟨c₁, result, ha, h₁⟩ := h.append s.id 1
      rw [ha]
      cases result with
      | ok u =>
        obtain ⟨c', batch', hc, hback, hids⟩ := ih h₁ (batch ++ [s.id])
        refine ⟨c', s.id :: batch', by simpa using hc, hback, ?_⟩
        intro id hid
        rcases List.mem_cons.mp hid with rfl | hid
        · exact ⟨s, List.mem_cons_self, hs.2, rfl⟩
        · exact hlift hids id hid
      | error e =>
        obtain ⟨c', batch', hc, hback, hids⟩ := ih h₁ batch
        exact ⟨c', batch', hc, hback, hlift hids⟩

theorem retireLoop_backs (todo : List Sequence) {r : Retirement}
    (h : r.cache.Backs numBlocks (r.stillRunning ++ todo)) :
    (retireLoop todo r).cache.Backs numBlocks (retireLoop todo r).stillRunning ∧
      (retireLoop todo r).stillRunning = r.stillRunning ++ todo.filter (!·.isComplete) ∧
      (retireLoop todo r).finished = r.finished ++ (todo.filter (·.isComplete)).map (·.id) := by
  induction todo generalizing r with
  | nil => simpa [retireLoop] using h
  | cons s todo ih =>
    rw [retireLoop]
    split
    · next hc =>
      obtain ⟨hback, hstill, hfin⟩ := ih (r := { r with
        cache := r.cache.free s.id
        finished := r.finished ++ [s.id] }) (h.free fun j hj hne => by
          rw [List.map_append, List.map_cons, List.mem_append, List.mem_cons] at hj
          rw [List.map_append, List.mem_append]
          exact hj.imp_right fun hj => hj.resolve_left hne)
      exact ⟨hback, by simp [hstill, hc], by simp [hfin, hc]⟩
    · next hc =>
      obtain ⟨hback, hstill, hfin⟩ := ih (r := { r with
        stillRunning := r.stillRunning ++ [s] }) (by simpa using h)
      exact ⟨hback, by simp [hstill, hc], by simp [hfin, hc]⟩

structure Sound (s : Scheduler) (maxBatchSize numBlocks : ℕ) : Prop where
  maxBatchSize_eq : s.config.maxBatchSize = maxBatchSize
  backs : s.cache.Backs numBlocks s.running
  length_le : s.running.length ≤ maxBatchSize

variable {s : Scheduler} {maxBatchSize : ℕ}

theorem sound_new (maxBatchSize numBlocks blockSize : ℕ) (hb : 0 < blockSize) :
    (new ⟨maxBatchSize⟩ (.new numBlocks blockSize hb)).Sound maxBatchSize numBlocks where
  maxBatchSize_eq := rfl
  backs := ⟨PagedKVCache.valid_new _ _ _, rfl, fun id hid => absurd hid (AList.notMem_empty id)⟩
  length_le := Nat.zero_le _

/-- An iteration completes, keeps the invariant, moves each id to one place, and decodes only
what runs after it. -/
theorem Sound.schedule (h : s.Sound maxBatchSize numBlocks) :
    ∃ s' plan, s.schedule = some (s', plan) ∧ s'.Sound maxBatchSize numBlocks ∧
      (s'.live.map (·.id) ++ plan.finished).Perm (s.live.map (·.id)) ∧
      ∀ id ∈ plan.decodeBatch, id ∈ s'.running.map (·.id) := by
  obtain ⟨hmax, hback, hlen⟩ := h
  obtain ⟨A, hA, hbackA, hlenA, hidsA⟩ := admissionLoop_backs hback hlen s.waiting []
  obtain ⟨hbackP, hlenP, hidsP⟩ := preemptionLoop_backs A.running.length
    (p := ⟨A.waiting, A.cache, A.running, []⟩) hbackA
  set p := preemptionLoop A.running.length ⟨A.waiting, A.cache, A.running, []⟩ with hp
  obtain ⟨c, batch, hc, hbackC, hbatch⟩ := commitLoop_backs hbackP p.running []
  obtain ⟨hbackR, hstill, hfin⟩ := retireLoop_backs p.running (r := ⟨c, [], []⟩) hbackC
  rw [List.nil_append] at hc hstill hfin
  rw [← hmax] at hA
  set r := retireLoop p.running ⟨c, [], []⟩ with hr
  have hschedule : s.schedule = some ({ s with
      cache := r.cache, waiting := p.waiting, running := r.stillRunning },
      ⟨A.admitted, batch, p.preempted, r.finished⟩) := by
    simp [Scheduler.schedule, hA, ← hp, hc, ← hr]
  refine ⟨_, _, hschedule, ⟨hmax, hbackR, ?_⟩, ?_, ?_⟩
  · rw [hstill]
    exact (List.length_filter_le _ _).trans (hlenP.trans hlenA)
  · have hsplit := (List.filter_append_perm (fun x : Sequence => x.isComplete) p.running).map (·.id)
    simp only [live, hstill, hfin, List.map_append, List.perm_iff_count, List.count_append]
      at hidsP hsplit ⊢
    intro i
    have h₁ := hidsP i
    have h₂ := hsplit i
    have h₃ := congrArg (List.count i) hidsA
    simp only [List.count_append] at h₃
    omega
  · intro id hid
    obtain ⟨x, hx, hxc, rfl⟩ := hbatch id hid
    rw [hstill]
    exact List.mem_map_of_mem (List.mem_filter.mpr ⟨hx, by simp [hxc]⟩)

theorem map_id_pushToken (s : Scheduler) (id : SeqId) (token : TokenId) (isEos : Bool) :
    (s.pushToken id token isEos).running.map (·.id) = s.running.map (·.id) := by
  rw [pushToken]
  induction s.running with
  | nil => rfl
  | cons x run ih =>
    rw [List.replaceF]
    by_cases hx : x.id = id
    · simp [hx, Sequence.pushToken]
    · simpa [hx] using ih

theorem Sound.pushToken (h : s.Sound maxBatchSize numBlocks) (id : SeqId) (token : TokenId)
    (isEos : Bool) : (s.pushToken id token isEos).Sound maxBatchSize numBlocks where
  maxBatchSize_eq := h.maxBatchSize_eq
  backs := by
    refine ⟨h.backs.valid, h.backs.numBlocks_eq, ?_⟩
    rw [map_id_pushToken]
    exact h.backs.owners
  length_le := by
    have hlen := congrArg List.length (map_id_pushToken s id token isEos)
    rw [List.length_map, List.length_map] at hlen
    exact hlen.trans_le h.length_le

end Scheduler

end ForgeInfer
