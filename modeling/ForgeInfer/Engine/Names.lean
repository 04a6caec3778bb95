import ForgeInfer.Engine.Rename
import ForgeInfer.Engine.Sound
import ForgeInfer.Foundation.Ascending

/-! # Ids are names

A driver may number its requests as it likes, as long as it keeps their order. Renamings that
agree on the submitted ids do the same to a run, so a run knows no other ids. A renaming that
ascends on them is one that ascends everywhere, up to another, and so an engine plans, emits
and returns the same under other names.
-/

namespace ForgeInfer

def StepPlan.ids (p : StepPlan) : List SeqId :=
  p.admitted ++ p.decodeBatch ++ p.preempted ++ p.finished

def StepAnswer.ids (r : StepAnswer) : List SeqId :=
  r.toList.flatMap fun a => a.1.ids ++ a.2.map Prod.fst

/-- The ids that an engine knows: those of its requests and of its block tables. -/
def Engine.ids (e : Engine) : List SeqId :=
  e.scheduler.live.map (·.id) ++ e.scheduler.cache.tables.keys

/-- The second engine is the first one, with other names for the ids. -/
structure Engine.RenamedBy (f : SeqId → SeqId) (e e' : Engine) : Prop where
  model_eq : e'.model = e.model
  config_eq : e'.scheduler.config = e.scheduler.config
  waiting_eq : e'.scheduler.waiting = e.scheduler.waiting.map (Sequence.rename f)
  running_eq : e'.scheduler.running = e.scheduler.running.map (Sequence.rename f)
  blockSize_eq : e'.scheduler.cache.blockSize = e.scheduler.cache.blockSize
  numBlocks_eq : e'.scheduler.cache.numBlocks = e.scheduler.cache.numBlocks
  freeList_eq : e'.scheduler.cache.freeList = e.scheduler.cache.freeList
  entries_eq : e'.scheduler.cache.tables.entries =
    e.scheduler.cache.tables.entries.map (Sigma.map f fun _ => id)
  peakBlocks_eq : e'.scheduler.cache.peakBlocks = e.scheduler.cache.peakBlocks

section Support

variable {f g : SeqId → SeqId}

theorem Sequence.rename_eq_iff {s : Sequence} : s.rename f = s.rename g ↔ f s.id = g s.id := by
  simp [Sequence.rename]

theorem Emission.rename_eq_iff {t : Emission} : t.rename f = t.rename g ↔ f t.1 = g t.1 := by
  simp [Emission.rename]

theorem GenerationOutput.rename_eq_iff {o : GenerationOutput} :
    o.rename f = o.rename g ↔ f o.id = g o.id := by
  simp [GenerationOutput.rename]

theorem StepPlan.rename_eq_iff {p : StepPlan} :
    p.rename f = p.rename g ↔ ∀ id ∈ p.ids, f id = g id := by
  simp only [StepPlan.rename, StepPlan.mk.injEq, List.map_inj_left, StepPlan.ids, List.mem_append,
    or_imp, forall_and, and_assoc]

theorem StepAnswer.rename_eq_iff {r : StepAnswer} :
    rename f r = rename g r ↔ ∀ id ∈ ids r, f id = g id := by
  cases r with
  | none => simp [StepAnswer.rename, StepAnswer.ids]
  | some a =>
    simp only [StepAnswer.rename, StepAnswer.ids, Option.map_some, Option.some.injEq, Prod.mk.injEq,
      StepPlan.rename_eq_iff, List.map_inj_left, Emission.rename_eq_iff, Option.toList_some,
      List.flatMap_singleton, List.mem_append, or_imp, forall_and, List.forall_mem_map]

end Support

section Composition

variable {f g : SeqId → SeqId}

theorem Sequence.rename_injective (hf : Function.Injective f) :
    Function.Injective (Sequence.rename f) := by
  rintro ⟨i, p, o, n, s⟩ ⟨i', p', o', n', s'⟩ h
  simpa [Sequence.rename, hf.eq_iff] using h

theorem Emission.rename_injective (hf : Function.Injective f) :
    Function.Injective (Emission.rename f) := by
  rintro ⟨i, t⟩ ⟨i', t'⟩ h
  simpa [Emission.rename, hf.eq_iff] using h

theorem GenerationOutput.rename_injective (hf : Function.Injective f) :
    Function.Injective (GenerationOutput.rename f) := by
  rintro ⟨i, t⟩ ⟨i', t'⟩ h
  simpa [GenerationOutput.rename, hf.eq_iff] using h

theorem StepPlan.rename_injective (hf : Function.Injective f) :
    Function.Injective (StepPlan.rename f) := by
  rintro ⟨a, d, p, r⟩ ⟨a', d', p', r'⟩ h
  simpa [StepPlan.rename, (List.map_injective_iff.mpr hf).eq_iff] using h

theorem StepAnswer.rename_injective (hf : Function.Injective f) :
    Function.Injective (StepAnswer.rename f) := by
  apply Option.map_injective
  rintro ⟨p, e⟩ ⟨p', e'⟩ h
  obtain ⟨hp, he⟩ := Prod.mk.inj h
  exact Prod.ext (StepPlan.rename_injective hf hp)
    (List.map_injective_iff.mpr (Emission.rename_injective hf) he)

theorem StepAnswer.rename_rename (r : StepAnswer) :
    rename g (rename f r) = rename (g ∘ f) r := by
  cases r <;> simp [StepAnswer.rename, StepPlan.rename, Emission.rename]

end Composition

theorem eq_map_of_map_eq {α β γ : Type*} {a : β → γ} (ha : Function.Injective a) {b : α → γ}
    {f : α → β} {l : List α} {l' : List β} (h : l'.map a = l.map b)
    (hl : ∀ x ∈ l, b x = a (f x)) : l' = l.map f := by
  apply List.map_injective_iff.mpr ha
  rw [h, List.map_map]
  exact List.map_congr_left hl

namespace Engine

variable {f g : SeqId → SeqId} {ops : List EngineOp}

theorem agree_of_rename_eq {e : Engine} {hf : StrictMono f} {hg : StrictMono g}
    (h : e.rename hf = e.rename hg) : ∀ id ∈ e.ids, f id = g id := by
  have hs := congrArg Engine.scheduler h
  have hw : e.scheduler.waiting.map (Sequence.rename f) =
      e.scheduler.waiting.map (Sequence.rename g) := congrArg Scheduler.waiting hs
  have hr : e.scheduler.running.map (Sequence.rename f) =
      e.scheduler.running.map (Sequence.rename g) := congrArg Scheduler.running hs
  have ht : Keyed.mapKeys f hf.injective e.scheduler.cache.tables =
      Keyed.mapKeys g hg.injective e.scheduler.cache.tables :=
    congrArg (fun s => s.cache.tables) hs
  simp only [List.map_inj_left, Sequence.rename_eq_iff] at hw hr
  rw [Keyed.mapKeys_eq_iff] at ht
  intro id hid
  simp only [ids, Scheduler.live, List.map_append, List.mem_append, List.mem_map] at hid
  rcases hid with (⟨s, hs, rfl⟩ | ⟨s, hs, rfl⟩) | hid
  · exact hw s hs
  · exact hr s hs
  · exact ht id hid

theorem renamedBy_of_rename_eq {e e' : Engine} {a b : SeqId → SeqId} {ha : StrictMono a}
    {hb : StrictMono b} (h : e'.rename ha = e.rename hb) (hids : ∀ id ∈ e.ids, a (f id) = b id) :
    e.RenamedBy f e' := by
  have hs := congrArg Engine.scheduler h
  have hc := congrArg Scheduler.cache hs
  have hlive : ∀ s ∈ e.scheduler.live, s.rename b = (s.rename f).rename a := by
    intro s hs
    have hid := hids s.id (List.mem_append_left _ (List.mem_map_of_mem hs))
    simp [Sequence.rename, hid]
  have hseq := Sequence.rename_injective ha.injective
  constructor
  · exact (congrArg Engine.model h :)
  · exact (congrArg Scheduler.config hs :)
  · refine eq_map_of_map_eq hseq (congrArg Scheduler.waiting hs) fun s hs => ?_
    exact hlive s (List.mem_append_left _ hs)
  · refine eq_map_of_map_eq hseq (congrArg Scheduler.running hs) fun s hs => ?_
    exact hlive s (List.mem_append_right _ hs)
  · exact (congrArg PagedKVCache.blockSize hc :)
  · exact (congrArg PagedKVCache.numBlocks hc :)
  · exact (congrArg PagedKVCache.freeList hc :)
  · refine eq_map_of_map_eq (ha.injective.sigma_map fun _ => Function.injective_id)
      (congrArg (fun c => c.tables.entries) hc) fun t ht => ?_
    have hid := hids t.1 (List.mem_append_right _ (List.mem_map_of_mem ht))
    exact Sigma.ext hid.symm HEq.rfl
  · exact (congrArg PagedKVCache.peakBlocks hc :)

theorem rename_ops_eq (h : ∀ id ∈ submittedTo ops, f id = g id) :
    ops.map (EngineOp.rename f) = ops.map (EngineOp.rename g) := by
  refine List.map_congr_left fun o ho => ?_
  cases o with
  | submit id prompt maxNewTokens =>
    have hid := h id (List.mem_filterMap.mpr ⟨_, ho, rfl⟩)
    simp only [EngineOp.rename, hid]
  | step => rfl

section Runs

variable {m : Model} {config : SchedulerConfig} {numBlocks blockSize : ℕ} {hb : 0 < blockSize}
  {e : Engine} {answers : List StepAnswer}

theorem run_new_rename (hf : StrictMono f)
    (hr : Machine.run op (new m config (.new numBlocks blockSize hb)) ops = some (e, answers)) :
    Machine.run op (new m config (.new numBlocks blockSize hb)) (ops.map (EngineOp.rename f)) =
      some (e.rename hf, answers.map (StepAnswer.rename f)) := by
  have h := run_rename hf (new m config (.new numBlocks blockSize hb)) ops
  rw [hr] at h
  exact h

/-- A run knows no ids but the submitted ones, and the outputs of its completion name no
others: two renamings that differ on every other id do the same to it. -/
theorem rename_mark_eq
    (hr : Machine.run op (new m config (.new numBlocks blockSize hb)) ops = some (e, answers)) :
    e.rename (Ascending.strictMono_mark (submittedTo ops).toFinset) =
        e.rename (strictMono_mul_left_of_pos Nat.two_pos) ∧
      answers.map (StepAnswer.rename (Ascending.mark (submittedTo ops).toFinset)) =
        answers.map (StepAnswer.rename fun n => 2 * n) := by
  have hops : ops.map (EngineOp.rename (Ascending.mark (submittedTo ops).toFinset)) =
      ops.map (EngineOp.rename fun n => 2 * n) :=
    rename_ops_eq fun id hid => Ascending.mark_eq_two_mul_iff.mpr (List.mem_toFinset.mpr hid)
  have h₁ := run_new_rename (Ascending.strictMono_mark (submittedTo ops).toFinset) hr
  have h₂ := run_new_rename (strictMono_mul_left_of_pos Nat.two_pos) hr
  rw [hops, h₂, Option.some.injEq, Prod.mk.injEq] at h₁
  exact ⟨h₁.1.symm, h₁.2.symm⟩

theorem mem_submitted_of_mem_ids
    (hr : Machine.run op (new m config (.new numBlocks blockSize hb)) ops = some (e, answers)) :
    ∀ id ∈ e.ids, id ∈ submittedTo ops := by
  intro id hid
  have h := agree_of_rename_eq (rename_mark_eq hr).1 id hid
  exact List.mem_toFinset.mp (Ascending.mark_eq_two_mul_iff.mp h)

theorem mem_submitted_of_mem_answers
    (hr : Machine.run op (new m config (.new numBlocks blockSize hb)) ops = some (e, answers)) :
    ∀ r ∈ answers, ∀ id ∈ StepAnswer.ids r, id ∈ submittedTo ops := by
  intro r hmem id hid
  have h := StepAnswer.rename_eq_iff.mp (List.map_inj_left.mp (rename_mark_eq hr).2 r hmem) id hid
  exact List.mem_toFinset.mp (Ascending.mark_eq_two_mul_iff.mp h)

theorem mem_submitted_of_mem_result
    (hr : Machine.run op (new m config (.new numBlocks blockSize hb)) ops = some (e, answers))
    {order : IterOrder (Σ _ : SeqId, List TokenId)} {result : List GenerationOutput}
    (hc : e.runToCompletion order = some result) : ∀ o ∈ result, o.id ∈ submittedTo ops := by
  intro o ho
  have h₁ := runToCompletion_rename (Ascending.strictMono_mark (submittedTo ops).toFinset) order
    order e
  rw [(rename_mark_eq hr).1, runToCompletion_rename _ order order, hc, Option.map_some,
    Option.map_some, Option.some.injEq, List.map_inj_left] at h₁
  have h := GenerationOutput.rename_eq_iff.mp (h₁ o ho)
  exact List.mem_toFinset.mp (Ascending.mark_eq_two_mul_iff.mp h.symm)

end Runs

end Engine

/-- Calls under other ids in the same order, repeated ones included, get the same answers under
these ids and leave the renamed engine, and completing the run returns the same outputs under
them. -/
theorem ids_are_names (m : Model) (maxBatchSize numBlocks blockSize : ℕ) (hb : 0 < blockSize)
    (ops : List EngineOp) {f : SeqId → SeqId} (hf : StrictMonoOn f {id | id ∈ submittedTo ops}) :
    let e₀ := Engine.new m ⟨maxBatchSize⟩ (.new numBlocks blockSize hb)
    ∃ e answers e',
      Machine.run Engine.op e₀ ops = some (e, answers) ∧
      Machine.run Engine.op e₀ (ops.map (EngineOp.rename f)) =
        some (e', answers.map (StepAnswer.rename f)) ∧
      e.RenamedBy f e' ∧
      ∀ order order', ∃ result, e.runToCompletion order = some result ∧
        e'.runToCompletion order' = some (result.map (GenerationOutput.rename f)) := by
  intro e₀
  obtain ⟨e, answers, hr, h⟩ := Engine.accounts_run m maxBatchSize numBlocks blockSize hb ops
  obtain ⟨e', answers', hr', -⟩ := Engine.accounts_run m maxBatchSize numBlocks blockSize hb
    (ops.map (EngineOp.rename f))
  -- both runs under names that they share
  have hfin : StrictMonoOn f (submittedTo ops).toFinset := by rwa [List.coe_toFinset]
  obtain ⟨a, b, ha, hbm, hab⟩ := Ascending.exists_common hfin
  have hids : ∀ id ∈ submittedTo ops, a (f id) = b id := fun id hid =>
    hab id (List.mem_toFinset.mpr hid)
  have hops : (ops.map (EngineOp.rename f)).map (EngineOp.rename a) =
      ops.map (EngineOp.rename b) := by
    rw [← Engine.rename_ops_eq hids, List.map_map]
    refine List.map_congr_left fun o _ => ?_
    cases o <;> rfl
  have hleft := Engine.run_new_rename ha hr'
  rw [hops, Engine.run_new_rename hbm hr, Option.some.injEq, Prod.mk.injEq] at hleft
  obtain ⟨hstate, hanswers⟩ := hleft
  have hrenamed : answers' = answers.map (StepAnswer.rename f) := by
    apply eq_map_of_map_eq (StepAnswer.rename_injective ha.injective) hanswers.symm
    intro r hmem
    rw [StepAnswer.rename_rename]
    refine StepAnswer.rename_eq_iff.mpr fun id hid => (hids id ?_).symm
    exact Engine.mem_submitted_of_mem_answers hr r hmem id hid
  refine ⟨e, answers, e', hr, hrenamed ▸ hr', ?_, ?_⟩
  · exact Engine.renamedBy_of_rename_eq hstate.symm fun id hid =>
      hids id (Engine.mem_submitted_of_mem_ids hr id hid)
  · intro order order'
    obtain ⟨result, hc⟩ := Engine.runToCompletion_sound h.sound order
    refine ⟨result, hc, ?_⟩
    have hleft := Engine.runToCompletion_rename ha order' order' e'
    rw [← hstate, Engine.runToCompletion_rename hbm order order', hc] at hleft
    obtain ⟨result', hc', hmap⟩ := Option.map_eq_some_iff.mp hleft.symm
    rw [hc']
    congr 1
    refine eq_map_of_map_eq (GenerationOutput.rename_injective ha.injective) hmap fun o ho => ?_
    have hid := hids o.id (Engine.mem_submitted_of_mem_result hr hc o ho)
    simp [GenerationOutput.rename, hid]

/-- The ids are counted from zero, which ascends on the submitted ones only, and one id is
submitted twice. -/
theorem ids_are_names_from_zero :
    let m : Model := ⟨2, 1, 0, fun _ => ⟨[0, 1]⟩⟩
    let f : SeqId → SeqId := fun id => id - 1
    let ops : List EngineOp :=
      [.submit 1 [5, 6] 4, .submit 2 [7] 3, .step, .submit 1 [8] 2, .step]
    let e₀ := Engine.new m ⟨2⟩ (.new 2 2 (Nat.succ_pos 1))
    ∃ e answers e',
      Machine.run Engine.op e₀ ops = some (e, answers) ∧
      Machine.run Engine.op e₀ (ops.map (EngineOp.rename f)) =
        some (e', answers.map (StepAnswer.rename f)) ∧
      e.RenamedBy f e' ∧
      ∀ order order', ∃ result, e.runToCompletion order = some result ∧
        e'.runToCompletion order' = some (result.map (GenerationOutput.rename f)) := by
  intro m f ops e₀
  have hf : StrictMonoOn f {id | id ∈ submittedTo ops} := by
    intro i hi j _ hij
    have hpos : ∀ k ∈ submittedTo ops, 1 ≤ k := by decide
    exact Nat.sub_lt_sub_right (hpos i hi) hij
  exact ids_are_names m 2 2 2 (Nat.succ_pos 1) ops hf

end ForgeInfer
