import Mathlib.Data.List.Induction

/-! # Machines and their runs

A machine reads a list of inputs and answers each of them. A partial machine may
stop in the middle of a run: `none` stands for a panic. A total one never does.
Invariants of a run are proved by adding inputs at its end, and a partial machine
that simulates a total one never stops and gives the same answers.
-/

namespace Machine

variable {σ τ ι ο : Type*}

/-- Feed the inputs to a partial machine and collect its answers. -/
def run (step : σ → ι → Option (σ × ο)) : σ → List ι → Option (σ × List ο)
  | s, [] => some (s, [])
  | s, i :: is => do
    let (s', o) ← step s i
    let (s'', os) ← run step s' is
    some (s'', o :: os)

def exec (step : τ → ι → τ × ο) : τ → List ι → τ × List ο
  | t, [] => (t, [])
  | t, i :: is =>
    let r := step t i
    let u := exec step r.1 is
    (u.1, r.2 :: u.2)

section Partial

variable {step : σ → ι → Option (σ × ο)}

@[simp] theorem run_nil (s : σ) : run step s [] = some (s, []) := rfl

theorem run_cons_of_step {s s' : σ} {i : ι} {o : ο} (h : step s i = some (s', o))
    (is : List ι) :
    run step s (i :: is) = (run step s' is).map fun r => (r.1, o :: r.2) := by
  simp only [run, h, Option.bind_eq_bind, Option.bind_some]
  cases run step s' is <;> rfl

theorem run_append {s s' : σ} {is js : List ι} {os : List ο}
    (h : run step s is = some (s', os)) :
    run step s (is ++ js) = (run step s' js).map fun r => (r.1, os ++ r.2) := by
  induction is generalizing s os with
  | nil =>
    simp only [run_nil, Option.some.injEq, Prod.mk.injEq] at h
    obtain ⟨rfl, rfl⟩ := h
    simp
  | cons i is ih =>
    cases hs : step s i with
    | none => simp [run, hs] at h
    | some r =>
      obtain ⟨s₁, o⟩ := r
      rw [run_cons_of_step hs, Option.map_eq_some_iff] at h
      obtain ⟨⟨s₂, os'⟩, hr, he⟩ := h
      simp only [Prod.mk.injEq] at he
      obtain ⟨rfl, rfl⟩ := he
      rw [List.cons_append, run_cons_of_step hs, ih hr, Option.map_map]
      rfl

theorem run_concat {s s' s'' : σ} {is : List ι} {os : List ο} {i : ι} {o : ο}
    (h : run step s is = some (s', os)) (hs : step s' i = some (s'', o)) :
    run step s (is ++ [i]) = some (s'', os ++ [o]) := by
  rw [run_append h, run_cons_of_step hs]
  rfl

/-- A step that commutes with maps of the states, the inputs and the answers: so does the run. -/
theorem run_map_answers {f : σ → σ} {g : ι → ι} {k : ο → ο}
    (h : ∀ s i, step (f s) (g i) = (step s i).map fun r => (f r.1, k r.2)) (s : σ) (is : List ι) :
    run step (f s) (is.map g) = (run step s is).map fun r => (f r.1, r.2.map k) := by
  induction is generalizing s with
  | nil => rfl
  | cons i is ih =>
    simp only [List.map_cons, run, h]
    cases hs : step s i with
    | none => rfl
    | some r =>
      simp only [Option.map_some, Option.bind_eq_bind, Option.bind_some, ih]
      cases run step r.1 is <;> rfl

theorem run_map {f : σ → σ} {g : ι → ι}
    (h : ∀ s i, step (f s) (g i) = (step s i).map fun r => (f r.1, r.2)) (s : σ) (is : List ι) :
    run step (f s) (is.map g) = (run step s is).map fun r => (f r.1, r.2) := by
  rw [run_map_answers (k := id) h]
  simp only [List.map_id]

theorem run_of_fixed {s : σ} {answer : ι → ο} {is : List ι}
    (h : ∀ i ∈ is, step s i = some (s, answer i)) : run step s is = some (s, is.map answer) := by
  induction is with
  | nil => rfl
  | cons i is ih =>
    have hrest := ih fun j hj => h j (List.mem_cons_of_mem i hj)
    rw [run_cons_of_step (h i List.mem_cons_self), hrest]
    rfl

end Partial

section Total

variable {step : τ → ι → τ × ο}

@[simp] theorem exec_nil (t : τ) : exec step t [] = (t, []) := rfl

theorem exec_append (t : τ) (is js : List ι) :
    exec step t (is ++ js) =
      ((exec step (exec step t is).1 js).1,
        (exec step t is).2 ++ (exec step (exec step t is).1 js).2) := by
  induction is generalizing t with
  | nil => simp
  | cons i is ih => simp [exec, ih]

theorem exec_concat (t : τ) (is : List ι) (i : ι) :
    exec step t (is ++ [i]) =
      ((step (exec step t is).1 i).1, (exec step t is).2 ++ [(step (exec step t is).1 i).2]) := by
  simp [exec_append, exec]

section Components

variable {κ ρ : Type*} [DecidableEq κ]

def answersTo (key : ι → κ) (k : κ) (is : List ι) (os : List ο) : List ο :=
  ((is.zip os).filter fun p => key p.1 = k).map Prod.snd

/-- Component rule: where every input acts on the component of its key alone, a component and
the answers of its inputs are what those inputs make of it by themselves. -/
theorem exec_component {key : ι → κ} {view : κ → τ → ρ} {part : ρ → ι → ρ × ο} {Good : ο → Prop}
    (hpart : ∀ t i, Good (step t i).2 →
      (view (key i) (step t i).1, (step t i).2) = part (view (key i) t) i)
    (hframe : ∀ t i k, Good (step t i).2 → key i ≠ k → view k (step t i).1 = view k t)
    (t : τ) (is : List ι) (hgood : ∀ o ∈ (exec step t is).2, Good o) (k : κ) :
    (view k (exec step t is).1, answersTo key k is (exec step t is).2) =
      exec part (view k t) (is.filter fun i => key i = k) := by
  induction is generalizing t with
  | nil => rfl
  | cons i is ih =>
    have hhead : Good (step t i).2 := hgood _ List.mem_cons_self
    have htail := ih (step t i).1 fun o ho => hgood o (List.mem_cons_of_mem _ ho)
    obtain ⟨hview, hanswers⟩ := Prod.mk.inj htail
    by_cases hk : key i = k
    · subst hk
      have hp := hpart t i hhead
      rw [List.filter_cons_of_pos (by simp)]
      simp only [exec]
      rw [← hp, ← hview, ← hanswers]
      simp [answersTo]
    · rw [List.filter_cons_of_neg (by simpa using hk), ← hframe t i k hhead hk, ← htail]
      simp [exec, answersTo, hk]

end Components

end Total

/-- A property of input lists that every prefix of a list inherits. -/
def PrefixClosed (Ok : List ι → Prop) : Prop := ∀ is i, Ok (is ++ [i]) → Ok is

/-- Invariant rule: what holds at the start and survives each admissible input holds
after every admissible run. -/
theorem exec_invariant {step : τ → ι → τ × ο} {Ok : List ι → Prop} (hok : PrefixClosed Ok)
    {P : List ι → τ → List ο → Prop} {t : τ} (hnil : P [] t [])
    (hsnoc : ∀ is i, Ok (is ++ [i]) → P is (exec step t is).1 (exec step t is).2 →
      P (is ++ [i]) (step (exec step t is).1 i).1
        ((exec step t is).2 ++ [(step (exec step t is).1 i).2]))
    (is : List ι) (h : Ok is) : P is (exec step t is).1 (exec step t is).2 := by
  induction is using List.reverseRecOn with
  | nil => exact hnil
  | append_singleton is i ih =>
    rw [exec_concat]
    exact hsnoc is i h (ih (hok is i h))

theorem exec_invariant_after {step : τ → ι → τ × ο} {Ok : List ι → Prop} (hok : PrefixClosed Ok)
    (past : List ι) {P : List ι → τ → List ο → Prop} {t : τ}
    (hnil : P [] (exec step t past).1 (exec step t past).2)
    (hsnoc : ∀ is i, Ok (past ++ is ++ [i]) →
      P is (exec step t (past ++ is)).1 (exec step t (past ++ is)).2 →
      P (is ++ [i]) (step (exec step t (past ++ is)).1 i).1
        ((exec step t (past ++ is)).2 ++ [(step (exec step t (past ++ is)).1 i).2]))
    (is : List ι) (h : Ok (past ++ is)) :
    P is (exec step t (past ++ is)).1 (exec step t (past ++ is)).2 := by
  induction is using List.reverseRecOn with
  | nil => simpa using hnil
  | append_singleton is i ih =>
    rw [← List.append_assoc] at h ⊢
    rw [exec_concat]
    exact hsnoc is i h (ih (hok _ i h))

/-- Simulation rule: a partial machine that follows a total one through every admissible
input completes every admissible run with the total machine's answers. -/
theorem run_of_simulation {pstep : σ → ι → Option (σ × ο)} {step : τ → ι → τ × ο}
    {Ok : List ι → Prop} (hok : PrefixClosed Ok) {R : σ → τ → Prop} {s : σ} {t : τ}
    (hnil : R s t)
    (hsnoc : ∀ is i s', Ok (is ++ [i]) → R s' (exec step t is).1 →
      ∃ s'', pstep s' i = some (s'', (step (exec step t is).1 i).2) ∧
        R s'' (step (exec step t is).1 i).1)
    (is : List ι) (h : Ok is) :
    ∃ s', run pstep s is = some (s', (exec step t is).2) ∧ R s' (exec step t is).1 := by
  induction is using List.reverseRecOn with
  | nil => exact ⟨s, rfl, hnil⟩
  | append_singleton is i ih =>
    obtain ⟨s', hr, hR⟩ := ih (hok is i h)
    obtain ⟨s'', hs, hR'⟩ := hsnoc is i s' h hR
    exact ⟨s'', by rw [exec_concat]; exact run_concat hr hs, by rw [exec_concat]; exact hR'⟩

end Machine
