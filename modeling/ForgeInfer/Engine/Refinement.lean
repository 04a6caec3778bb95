import ForgeInfer.Engine.Basic
import ForgeInfer.Scheduler.Conservation

/-! # The engine refines the ledger

An engine step is an iteration of the ledger followed by one token for every running slot.
The lookups by id find their sequences, so the engine never panics.
-/

namespace ForgeInfer

def EngineOp.submitted : EngineOp → Option SeqId
  | .submit id _ _ => some id
  | .step => none

abbrev StepAnswer := Option (StepPlan × List Emission)

def submittedTo (ops : List EngineOp) : List SeqId := ops.filterMap EngineOp.submitted

def plansOf (answers : List StepAnswer) : List StepPlan := answers.reduceOption.map Prod.fst

def emissionsOf (answers : List StepAnswer) : List Emission := answers.reduceOption.flatMap Prod.snd

theorem submittedTo_concat (ops : List EngineOp) (o : EngineOp) :
    submittedTo (ops ++ [o]) = submittedTo ops ++ o.submitted.toList := by
  rw [submittedTo, List.filterMap_append]
  cases h : o.submitted <;> simp [submittedTo, h]

theorem submittedTo_prefixClosed :
    Machine.PrefixClosed fun ops : List EngineOp => (submittedTo ops).Nodup := by
  intro ops o h
  rw [submittedTo_concat] at h
  exact (List.nodup_append.mp h).1

theorem plansOf_concat (answers : List StepAnswer) (r : StepAnswer) :
    plansOf (answers ++ [r]) = plansOf answers ++ (r.map Prod.fst).toList := by
  rw [plansOf, ← List.concat_eq_append, List.reduceOption_concat, List.map_append]
  cases r <;> rfl

theorem emissionsOf_concat (answers : List StepAnswer) (r : StepAnswer) :
    emissionsOf (answers ++ [r]) = emissionsOf answers ++ (r.map Prod.snd).getD [] := by
  rw [emissionsOf, ← List.concat_eq_append, List.reduceOption_concat, List.flatMap_append]
  cases r <;> simp [emissionsOf]

@[simp] theorem plansOf_concat_none (answers : List StepAnswer) :
    plansOf (answers ++ [none]) = plansOf answers := by
  rw [plansOf_concat]; exact List.append_nil _

@[simp] theorem emissionsOf_concat_none (answers : List StepAnswer) :
    emissionsOf (answers ++ [none]) = emissionsOf answers := by
  rw [emissionsOf_concat]; exact List.append_nil _

namespace Slot

def token (m : Model) (x : Slot) : TokenId := m.next (x.seq.prompt ++ x.seq.output)

def emission (m : Model) (x : Slot) : Emission :=
  (x.seq.id, x.token m, x.token m == m.eosToken)

def decode (m : Model) (x : Slot) : Slot :=
  { x with seq := x.seq.pushToken (x.token m) (x.token m == m.eosToken) }

@[simp] theorem id_decode (m : Model) (x : Slot) : (x.decode m).seq.id = x.seq.id := rfl

@[simp] theorem held_decode (m : Model) (x : Slot) : (x.decode m).held = x.held := rfl

theorem limit_decode (m : Model) {x : Slot} (h : x.seq.isComplete = false) :
    (x.decode m).seq.output.length ≤ (x.decode m).seq.maxNewTokens ∧
      (x.decode m).seq.maxNewTokens ≤ x.seq.maxNewTokens := by
  simp only [Sequence.isComplete, decide_eq_false_iff_not, not_le] at h
  simp only [decode, Sequence.pushToken, List.length_append, List.length_singleton]
  split <;> omega

theorem pushToken_token (m : Model) (x : Slot) :
    x.pushToken x.seq.id (x.token m) (x.token m == m.eosToken) = x.decode m :=
  pushToken_of_eq rfl _ _

end Slot

namespace Ledger

def decoded (m : Model) (a : Ledger) : Ledger := { a with running := a.running.map (Slot.decode m) }

def step (L : Limits) (m : Model) (a : Ledger) : Ledger × StepPlan × List Emission :=
  ((a.scheduled L).decoded m, a.plan L, (a.scheduled L).running.map (Slot.emission m))

def engineOp (L : Limits) (m : Model) (a : Ledger) : EngineOp → Ledger × StepAnswer
  | .submit id prompt maxNewTokens => (a.submit (.new id prompt maxNewTokens), none)
  | .step => ((a.step L m).1, some (a.step L m).2)

variable {L : Limits} {m : Model} {a : Ledger}

theorem ids_decoded (m : Model) (a : Ledger) :
    (a.decoded m).live.map (·.id) = a.live.map (·.id) := by
  simp [decoded, live, Function.comp_def]

theorem Valid.decoded (h : a.Valid L) (m : Model) : (a.decoded m).Valid L where
  nodup := by rw [ids_decoded]; exact h.nodup
  running_state := by
    intro x hx
    obtain ⟨y, hy, rfl⟩ := List.mem_map.mp hx
    exact h.running_state y hy
  waiting_state := h.waiting_state
  used_le_peak := by
    have hu : L.used (a.decoded m).running = L.used a.running := by
      simp [Limits.used, Ledger.decoded, Function.comp_def]
    exact hu.le.trans h.used_le_peak
  peak_le := h.peak_le
  length_le := by rw [Ledger.decoded, List.length_map]; exact h.length_le

theorem Valid.step (h : a.Valid L) (m : Model) : (a.step L m).1.Valid L := h.scheduled.decoded m

theorem ids_step (L : Limits) (m : Model) (a : Ledger) :
    (a.live.map (·.id)).Perm ((a.step L m).1.live.map (·.id) ++ (a.plan L).finished) := by
  rw [step, ids_decoded]
  exact a.ids_scheduled L

/-- What an engine step leaves live was live before, or was decoded. -/
theorem step_origin (L : Limits) (m : Model) (a : Ledger) {y : Sequence}
    (hy : y ∈ (a.step L m).1.live) :
    (∃ s ∈ a.live, s.bare = y.bare) ∨
    (∃ s ∈ a.live, ∃ x ∈ (a.scheduled L).running, s.bare = x.seq.bare ∧ y = (x.decode m).seq) := by
  have hmem : ∀ z ∈ (a.scheduled L).live, ∃ s ∈ a.live, s.bare = z.bare := fun z hz =>
    List.mem_map.mp ((a.live_scheduled L).mem_iff.mpr
      (List.mem_append_left _ (List.mem_map_of_mem hz)))
  rcases List.mem_append.mp hy with hw | hr
  · exact Or.inl (hmem y (List.mem_append_left _ hw))
  · obtain ⟨z, hz, rfl⟩ := List.mem_map.mp hr
    obtain ⟨x, hx, rfl⟩ := List.mem_map.mp hz
    obtain ⟨s, hs, hb⟩ := hmem x.seq (List.mem_append_right _ (List.mem_map_of_mem hx))
    exact Or.inr ⟨s, hs, x, hx, hb, rfl⟩

/-- What survives a change of the lifecycle state and a forward pass survives a step. -/
theorem live_step_preserves {P : Sequence → Prop}
    (hbare : ∀ {s s' : Sequence}, s.bare = s'.bare → P s → P s')
    (hdecode : ∀ {x : Slot}, x.seq.isComplete = false → P x.seq → P (x.decode m).seq)
    (h : ∀ s ∈ a.live, P s) : ∀ s ∈ (a.step L m).1.live, P s := by
  intro y hy
  rcases step_origin L m a hy with ⟨s, hs, hb⟩ | ⟨s, hs, x, hx, hb, rfl⟩
  · exact hbare hb (h s hs)
  · exact hdecode (incomplete_of_mem_scheduled hx) (hbare hb (h s hs))

theorem plansOf_step (L : Limits) (m : Model) (a : Ledger) (answers : List StepAnswer) :
    plansOf (answers ++ [some (a.step L m).2]) = plansOf answers ++ [a.plan L] := by
  rw [plansOf_concat]; rfl

theorem emissionsOf_step (L : Limits) (m : Model) (a : Ledger) (answers : List StepAnswer) :
    emissionsOf (answers ++ [some (a.step L m).2]) =
      emissionsOf answers ++ (a.scheduled L).running.map (Slot.emission m) := by
  rw [emissionsOf_concat]; rfl

theorem running_subset_live (a : Ledger) :
    ∀ id ∈ a.running.map (·.seq.id), id ∈ a.live.map (·.id) := by
  intro id hid
  rw [live, List.map_append, List.map_map]
  exact List.mem_append_right _ hid

theorem decoded_subset_live (L : Limits) (a : Ledger) :
    ∀ id ∈ (a.scheduled L).running.map (·.seq.id), id ∈ a.live.map (·.id) := fun id hid =>
  (a.ids_scheduled L).mem_iff.mpr
    (List.mem_append_left _ ((a.scheduled L).running_subset_live id hid))

theorem Valid.engineOp (h : a.Valid L) {o : EngineOp}
    (hid : ∀ id ∈ o.submitted, id ∉ a.live.map (·.id)) : (a.engineOp L m o).1.Valid L := by
  cases o with
  | submit id prompt maxNewTokens => exact h.submit rfl (hid id rfl)
  | step => exact h.step m

theorem ids_engineOp (L : Limits) (m : Model) (a : Ledger) (o : EngineOp) :
    ((a.engineOp L m o).1.live.map (·.id) ++
        finishedIds ((a.engineOp L m o).2.map Prod.fst).toList).Perm
      (a.live.map (·.id) ++ o.submitted.toList) := by
  cases o with
  | submit id prompt maxNewTokens => exact ids_op L a (.submit id prompt maxNewTokens)
  | step => simpa [engineOp, step, finishedIds, EngineOp.submitted] using (ids_step L m a).symm

/-- Ids submitted to the ledger are live or retired, and nothing else is. -/
structure Serves (L : Limits) (ops : List EngineOp) (a : Ledger) (answers : List StepAnswer) :
    Prop where
  valid : a.Valid L
  places : (a.live.map (·.id) ++ finishedIds (plansOf answers)).Perm (submittedTo ops)

namespace Serves

variable {ops : List EngineOp} {answers : List StepAnswer}

theorem fresh (h : Serves L ops a answers) {o : EngineOp}
    (hn : (submittedTo (ops ++ [o])).Nodup) : ∀ id ∈ o.submitted, id ∉ a.live.map (·.id) := by
  intro id hid hmem
  rw [submittedTo_concat, List.nodup_append] at hn
  have hs : id ∈ submittedTo ops := h.places.mem_iff.mp (List.mem_append_left _ hmem)
  exact hn.2.2 id hs id (Option.mem_toList.mpr hid) rfl

theorem notMem_live_of_finished (h : Serves L ops a answers) (hn : (submittedTo ops).Nodup)
    {id : SeqId} (hid : id ∈ finishedIds (plansOf answers)) : id ∉ a.live.map (·.id) := by
  intro hmem
  have hd := h.places.nodup_iff.mpr hn
  exact (List.nodup_append.mp hd).2.2 id hmem id hid rfl

theorem empty (L : Limits) : Serves L [] .empty [] := ⟨valid_empty L, List.Perm.nil⟩

theorem engineOp (h : Serves L ops a answers) (m : Model) {o : EngineOp}
    (hn : (submittedTo (ops ++ [o])).Nodup) :
    Serves L (ops ++ [o]) (a.engineOp L m o).1 (answers ++ [(a.engineOp L m o).2]) := by
  refine ⟨h.valid.engineOp (h.fresh hn), ?_⟩
  have hi := ids_engineOp L m a o
  have hp := h.places
  rw [plansOf_concat, finishedIds_append, submittedTo_concat]
  simp only [List.perm_iff_count, List.count_append] at hi hp ⊢
  intro i
  have := hi i; have := hp i
  omega

end Serves

theorem serves_exec (L : Limits) (m : Model) (ops : List EngineOp) (h : (submittedTo ops).Nodup) :
    Serves L ops (Machine.exec (engineOp L m) .empty ops).1
      (Machine.exec (engineOp L m) .empty ops).2 := by
  refine Machine.exec_invariant submittedTo_prefixClosed (P := Serves L) ?_ ?_ ops h
  · exact Serves.empty L
  · intro ops o hn ih
    exact ih.engineOp m hn

end Ledger

namespace Scheduler

variable {L : Limits} {s : Scheduler} {a : Ledger}

theorem Refines.runningSeq_eq (h : s.Refines L a) {x : Slot} (hx : x ∈ a.running) :
    s.runningSeq x.seq.id = some x.seq := by
  have hmem : x.seq ∈ s.running := by rw [h.running_eq]; exact List.mem_map_of_mem hx
  cases hf : s.runningSeq x.seq.id with
  | none =>
    have := List.find?_eq_none.mp hf x.seq hmem
    simp at this
  | some seq =>
    have hid : seq.id = x.seq.id := by simpa using List.find?_some hf
    have hseq : seq ∈ a.running.map Slot.seq := h.running_eq ▸ List.mem_of_find?_eq_some hf
    obtain ⟨y, hy, rfl⟩ := List.mem_map.mp hseq
    rw [List.inj_on_of_nodup_map h.cache.nodup hy hx hid]

theorem pushToken_middle {done todo : List Slot} {x : Slot}
    (hn : ((done ++ x :: todo).map (·.seq.id)).Nodup) (token : TokenId) (isEos : Bool) :
    (done ++ x :: todo).map (Slot.pushToken x.seq.id token isEos) =
      done ++ x.pushToken x.seq.id token isEos :: todo := by
  rw [List.map_append, List.map_cons, List.nodup_middle, List.nodup_cons, ← List.map_append] at hn
  have hne : ∀ y ∈ done ++ todo, y.pushToken x.seq.id token isEos = y := fun y hy =>
    Slot.pushToken_of_ne (fun he => hn.1 (List.mem_map.mpr ⟨y, hy, he⟩)) _ _
  have hd : done.map (Slot.pushToken x.seq.id token isEos) = done :=
    (List.map_congr_left fun y hy => hne y (List.mem_append_left _ hy)).trans (List.map_id _)
  have ht : todo.map (Slot.pushToken x.seq.id token isEos) = todo :=
    (List.map_congr_left fun y hy => hne y (List.mem_append_right _ hy)).trans (List.map_id _)
  rw [List.map_append, List.map_cons, hd, ht]

end Scheduler

namespace Engine

variable {L : Limits} {m : Model} {a : Ledger}

theorem decodeLoop_refines (m : Model) (done todo : List Slot) {s : Scheduler}
    (h : s.Refines L { a with running := done ++ todo }) (emitted : List Emission) :
    ∃ s', decodeLoop m (todo.map (·.seq.id)) s emitted =
        some (s', emitted ++ todo.map (Slot.emission m)) ∧
      s'.Refines L { a with running := done ++ todo.map (Slot.decode m) } := by
  induction todo generalizing done s emitted with
  | nil => exact ⟨s, by simp [decodeLoop], h⟩
  | cons x todo ih =>
    have hr := h.runningSeq_eq (x := x) (List.mem_append_right _ List.mem_cons_self)
    have hp := Scheduler.pushToken_refines h x.seq.id (x.token m) (x.token m == m.eosToken)
    have hn : ((done ++ x :: todo).map (·.seq.id)).Nodup := h.cache.nodup
    rw [Ledger.pushToken, Scheduler.pushToken_middle hn, Slot.pushToken_token] at hp
    have happ : done ++ x.decode m :: todo = (done ++ [x.decode m]) ++ todo := by simp
    rw [happ] at hp
    obtain ⟨s', hl, hs'⟩ := ih (done ++ [x.decode m]) hp (emitted ++ [x.emission m])
    refine ⟨s', ?_, ?_⟩
    · rw [List.append_assoc] at hl
      rw [List.map_cons, decodeLoop, hr]
      exact hl
    · simpa using hs'

structure Refines (e : Engine) (L : Limits) (m : Model) (a : Ledger) : Prop where
  model_eq : e.model = m
  scheduler : e.scheduler.Refines L a

theorem refines_new (L : Limits) (m : Model) :
    (new m ⟨L.maxBatchSize⟩ (.new L.numBlocks L.blockSize L.blockSize_pos)).Refines L m .empty :=
  ⟨rfl, Scheduler.refines_new L⟩

variable {e : Engine}

theorem submit_refines (h : e.Refines L m a) (id : SeqId) (prompt : List TokenId)
    (maxNewTokens : ℕ) :
    (e.submit id prompt maxNewTokens).Refines L m (a.submit (.new id prompt maxNewTokens)) := by
  refine ⟨h.model_eq, h.scheduler.maxBatchSize_eq, ?_, h.scheduler.running_eq, h.scheduler.cache⟩
  simp [submit, Scheduler.submit, Ledger.submit, h.scheduler.waiting_eq]

theorem stepWithPlan_refines (hv : a.Valid L) (h : e.Refines L m a) :
    ∃ e', e.stepWithPlan = some (e', (a.step L m).2) ∧ e'.Refines L m (a.step L m).1 := by
  obtain ⟨scheduler, model⟩ := e
  obtain ⟨rfl, hs⟩ := h
  obtain ⟨s₁, hsched, h₁⟩ := Scheduler.schedule_refines hv hs
  have hids : (a.plan L).decodeBatch = (a.scheduled L).running.map (·.seq.id) := by
    simp [Ledger.plan, Ledger.scheduled, Function.comp_def]
  obtain ⟨s₂, hloop, h₂⟩ := decodeLoop_refines (a := a.scheduled L) model []
    (a.scheduled L).running h₁ []
  rw [← hids] at hloop
  refine ⟨⟨s₂, model⟩, ?_, rfl, h₂⟩
  simp [stepWithPlan, hsched, hloop, Ledger.step]

theorem op_refines (hv : a.Valid L) (h : e.Refines L m a) (o : EngineOp) :
    ∃ e', e.op o = some (e', (a.engineOp L m o).2) ∧ e'.Refines L m (a.engineOp L m o).1 := by
  cases o with
  | submit id prompt maxNewTokens => exact ⟨_, rfl, submit_refines h id prompt maxNewTokens⟩
  | step =>
    obtain ⟨e', he, h'⟩ := stepWithPlan_refines hv h
    exact ⟨e', by simp [op, he, Ledger.engineOp], h'⟩

theorem run_refines (L : Limits) (m : Model) (ops : List EngineOp) (h : (submittedTo ops).Nodup) :
    ∃ e, Machine.run op
          (new m ⟨L.maxBatchSize⟩ (.new L.numBlocks L.blockSize L.blockSize_pos)) ops =
        some (e, (Machine.exec (Ledger.engineOp L m) .empty ops).2) ∧
      e.Refines L m (Machine.exec (Ledger.engineOp L m) .empty ops).1 := by
  refine Machine.run_of_simulation submittedTo_prefixClosed
    (R := fun (e : Engine) a => e.Refines L m a) (refines_new L m) ?_ ops h
  intro ops o e hn he
  have hserves := Ledger.serves_exec L m ops (submittedTo_prefixClosed ops o hn)
  exact op_refines hserves.valid he o

end Engine

end ForgeInfer
