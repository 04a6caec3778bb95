import ForgeInfer.Engine.Refinement

/-! # Driving an engine to completion

A workload is submitted and the engine is stepped while it has work. The steps of such a
drive are those of a script, and `run_to_completion` collects the tokens of a drive that
its guard bounds.
-/

namespace ForgeInfer

structure Request where
  id : SeqId
  prompt : List TokenId
  maxNewTokens : ℕ
  deriving DecidableEq

namespace Request

def op (r : Request) : EngineOp := .submit r.id r.prompt r.maxNewTokens

def sequence (r : Request) : Sequence := .new r.id r.prompt r.maxNewTokens

/-- The cache can hold the request on its own. -/
def Fits (r : Request) (numBlocks blockSize : ℕ) : Prop :=
  (r.prompt.length + r.maxNewTokens) ⌈/⌉ blockSize ≤ numBlocks

instance (r : Request) (numBlocks blockSize : ℕ) : Decidable (r.Fits numBlocks blockSize) :=
  inferInstanceAs (Decidable (_ ≤ _))

end Request

/-- One step for each token of the limit and one to retire, over all requests. -/
def totalWork (reqs : List Request) : ℕ := (reqs.map fun r => r.maxNewTokens + 1).sum

namespace Engine

def submitAll (e : Engine) (reqs : List Request) : Engine :=
  reqs.foldl (fun e r => e.submit r.id r.prompt r.maxNewTokens) e

/-- Step while there is work, at most `n` times. -/
def drive : ℕ → Engine → Option (Engine × List (StepPlan × List Emission))
  | 0, e => some (e, [])
  | n + 1, e =>
    if e.scheduler.hasWork then do
      let (e, r) ← e.stepWithPlan
      let (e, rs) ← drive n e
      some (e, r :: rs)
    else some (e, [])

end Engine

namespace Ledger

def loaded (reqs : List Request) : Ledger := ⟨reqs.map Request.sequence, [], 0⟩

def drive (L : Limits) (m : Model) : ℕ → Ledger → Ledger × List (StepPlan × List Emission)
  | 0, a => (a, [])
  | n + 1, a =>
    if a.live = [] then (a, [])
    else ((drive L m n (a.step L m).1).1, (a.step L m).2 :: (drive L m n (a.step L m).1).2)

variable {L : Limits} {m : Model} {a : Ledger}

@[simp] theorem drive_zero (L : Limits) (m : Model) (a : Ledger) : drive L m 0 a = (a, []) := rfl

theorem drive_of_nil (h : a.live = []) (n : ℕ) : drive L m n a = (a, []) := by
  cases n with
  | zero => rfl
  | succ n => exact if_pos h

theorem drive_succ (h : a.live ≠ []) (n : ℕ) :
    drive L m (n + 1) a =
      ((drive L m n (a.step L m).1).1, (a.step L m).2 :: (drive L m n (a.step L m).1).2) :=
  if_neg h

theorem length_drive_le (L : Limits) (m : Model) (n : ℕ) (a : Ledger) :
    (drive L m n a).2.length ≤ n := by
  induction n generalizing a with
  | zero => exact le_rfl
  | succ n ih =>
    by_cases h : a.live = []
    · rw [drive_of_nil h]; exact Nat.zero_le _
    · rw [drive_succ h]; exact Nat.succ_le_succ (ih _)

theorem drive_preserves {P : Ledger → Prop} (hstep : ∀ a, P a → P (a.step L m).1) (n : ℕ)
    (h : P a) : P (drive L m n a).1 := by
  induction n generalizing a with
  | zero => exact h
  | succ n ih =>
    by_cases hl : a.live = []
    · rw [drive_of_nil hl]; exact h
    · rw [drive_succ hl]; exact ih (hstep a h)

theorem Valid.drive (h : a.Valid L) (m : Model) (n : ℕ) : (Ledger.drive L m n a).1.Valid L :=
  drive_preserves (fun _ ha => ha.step m) n h

theorem drive_add (L : Limits) (m : Model) (n k : ℕ) (a : Ledger) :
    drive L m (n + k) a =
      ((drive L m k (drive L m n a).1).1,
        (drive L m n a).2 ++ (drive L m k (drive L m n a).1).2) := by
  induction n generalizing a with
  | zero => simp
  | succ n ih =>
    by_cases h : a.live = []
    · simp [drive_of_nil h]
    · rw [Nat.succ_add, drive_succ h, drive_succ h, ih]
      rfl

theorem exec_drive (L : Limits) (m : Model) (n : ℕ) (a : Ledger) :
    Machine.exec (engineOp L m) a (List.replicate (drive L m n a).2.length .step) =
      ((drive L m n a).1, (drive L m n a).2.map some) := by
  induction n generalizing a with
  | zero => rfl
  | succ n ih =>
    by_cases h : a.live = []
    · rw [drive_of_nil h]; rfl
    · rw [drive_succ h, List.length_cons, List.replicate_succ, Machine.exec]
      simp only [engineOp, ih, List.map_cons]

theorem live_loaded (reqs : List Request) : (loaded reqs).live = reqs.map (·.sequence) :=
  List.append_nil _

theorem exec_submits (L : Limits) (m : Model) (reqs : List Request) :
    Machine.exec (engineOp L m) .empty (reqs.map Request.op) =
      (loaded reqs, reqs.map fun _ => none) := by
  induction reqs using List.reverseRecOn with
  | nil => rfl
  | append_singleton reqs r ih =>
    rw [List.map_append, List.map_singleton, Machine.exec_concat, ih]
    simp [engineOp, Request.op, submit, loaded, Request.sequence]

def driveOps (L : Limits) (m : Model) (n : ℕ) (reqs : List Request) : List EngineOp :=
  reqs.map Request.op ++ List.replicate (drive L m n (loaded reqs)).2.length .step

theorem exec_driveOps (L : Limits) (m : Model) (n : ℕ) (reqs : List Request) :
    Machine.exec (engineOp L m) .empty (driveOps L m n reqs) =
      ((drive L m n (loaded reqs)).1,
        (reqs.map fun _ => none) ++ (drive L m n (loaded reqs)).2.map some) := by
  rw [driveOps, Machine.exec_append, exec_submits, exec_drive]

theorem submittedTo_submits (reqs : List Request) :
    submittedTo (reqs.map Request.op) = reqs.map (·.id) := by
  induction reqs with
  | nil => rfl
  | cons r reqs ih => exact congrArg (r.id :: ·) ih

theorem submittedTo_driveOps (L : Limits) (m : Model) (n : ℕ) (reqs : List Request) :
    submittedTo (driveOps L m n reqs) = reqs.map (·.id) := by
  have hsteps : ∀ k, submittedTo (List.replicate k .step) = [] := fun k =>
    List.filterMap_replicate_of_none rfl
  rw [driveOps, submittedTo, List.filterMap_append]
  exact (congrArg₂ (· ++ ·) (submittedTo_submits reqs) (hsteps _)).trans (List.append_nil _)

theorem reduceOption_driveAnswers (reqs : List Request)
    (steps : List (StepPlan × List Emission)) :
    ((reqs.map fun _ => (none : StepAnswer)) ++ steps.map some).reduceOption = steps := by
  induction reqs with
  | nil => simp [List.reduceOption]
  | cons r reqs ih => exact ih

theorem valid_loaded (L : Limits) {reqs : List Request} (h : (reqs.map (·.id)).Nodup) :
    (loaded reqs).Valid L where
  nodup := by
    simpa [live_loaded, Request.sequence, Sequence.new, Function.comp_def] using h
  running_state := by rintro x ⟨⟩
  waiting_state := by
    intro s hs
    obtain ⟨r, -, rfl⟩ := List.mem_map.mp hs
    exact Or.inl rfl
  used_le_peak := le_rfl
  peak_le := Nat.zero_le _
  length_le := Nat.zero_le _

end Ledger

namespace Engine

variable {L : Limits} {m : Model} {a : Ledger} {e : Engine}

def loaded (L : Limits) (m : Model) (reqs : List Request) : Engine :=
  (new m ⟨L.maxBatchSize⟩ (.new L.numBlocks L.blockSize L.blockSize_pos)).submitAll reqs

theorem loaded_refines (L : Limits) (m : Model) (reqs : List Request) :
    (loaded L m reqs).Refines L m (.loaded reqs) := by
  induction reqs using List.reverseRecOn with
  | nil => exact refines_new L m
  | append_singleton reqs r ih =>
    have hs := submit_refines ih r.id r.prompt r.maxNewTokens
    have he : loaded L m (reqs ++ [r]) =
        (loaded L m reqs).submit r.id r.prompt r.maxNewTokens := List.foldl_append
    have ha : Ledger.loaded (reqs ++ [r]) = (Ledger.loaded reqs).submit r.sequence := by
      simp [Ledger.loaded, Ledger.submit]
    rw [he, ha]
    exact hs

theorem hasWork_iff (h : e.Refines L m a) : e.scheduler.hasWork = true ↔ a.live ≠ [] := by
  rw [← h.scheduler.live_eq, Scheduler.hasWork, Scheduler.live]
  cases e.scheduler.waiting <;> simp

theorem not_hasWork (h : e.Refines L m a) (hl : a.live = []) : ¬e.scheduler.hasWork = true :=
  fun hw => (hasWork_iff h).mp hw hl

theorem drive_refines (hv : a.Valid L) (h : e.Refines L m a) (n : ℕ) :
    ∃ e', drive n e = some (e', (Ledger.drive L m n a).2) ∧
      e'.Refines L m (Ledger.drive L m n a).1 := by
  induction n generalizing e a with
  | zero => exact ⟨e, rfl, h⟩
  | succ n ih =>
    by_cases hl : a.live = []
    · rw [Ledger.drive_of_nil hl]
      exact ⟨e, if_neg (not_hasWork h hl), h⟩
    · obtain ⟨e₁, hs, h₁⟩ := stepWithPlan_refines hv h
      obtain ⟨e₂, hd, h₂⟩ := ih (hv.step m) h₁
      rw [Ledger.drive_succ hl]
      refine ⟨e₂, ?_, h₂⟩
      simp only [drive, (hasWork_iff h).mpr hl, if_true, hs, hd, Option.bind_eq_bind,
        Option.bind_some]

theorem record_append (outputs : Outputs) (emitted emitted' : List Emission) :
    record outputs (emitted ++ emitted') = record (record outputs emitted) emitted' :=
  List.foldl_append

/-- The completion loop collects the tokens of a drive, and ends at its guard exactly when
work is left after that many steps. -/
theorem completionLoop_refines (hv : a.Valid L) (h : e.Refines L m a) (n : ℕ)
    (outputs : Outputs) :
    ∃ e', completionLoop n e outputs =
      some (e', record outputs ((Ledger.drive L m (n + 1) a).2.flatMap Prod.snd),
        if (Ledger.drive L m n a).1.live = [] then .drained else .guard) := by
  induction n generalizing e a outputs with
  | zero =>
    by_cases hl : a.live = []
    · rw [Ledger.drive_of_nil hl, Ledger.drive_zero, if_pos hl]
      exact ⟨e, if_neg (not_hasWork h hl)⟩
    · obtain ⟨e₁, hs, h₁⟩ := stepWithPlan_refines hv h
      rw [Ledger.drive_succ hl, Ledger.drive_zero, Ledger.drive_zero, if_neg hl]
      refine ⟨e₁, ?_⟩
      simp [completionLoop, (hasWork_iff h).mpr hl, step, hs]
  | succ n ih =>
    by_cases hl : a.live = []
    · rw [Ledger.drive_of_nil hl, Ledger.drive_of_nil hl, if_pos hl]
      exact ⟨e, if_neg (not_hasWork h hl)⟩
    · obtain ⟨e₁, hs, h₁⟩ := stepWithPlan_refines hv h
      obtain ⟨e₂, hc⟩ := ih (hv.step m) h₁ (record outputs (a.step L m).2.2)
      rw [Ledger.drive_succ hl, Ledger.drive_succ hl, List.flatMap_cons, record_append]
      refine ⟨e₂, ?_⟩
      simp only [completionLoop, (hasWork_iff h).mpr hl, if_true, step, hs, Option.map_some,
        Option.bind_eq_bind, Option.bind_some, hc]

end Engine

end ForgeInfer
