import Mathlib.Data.List.Basic

/-!
# Runs and simulations

A machine is a partial step function: `step s a = some s'` when the action `a` is
enabled in `s` and leads to `s'`.  All nondeterminism sits in the choice of the
actions, so an interleaving of several parties is a list of actions.

`Runs step ok s as s'` is a run along `as` in which every step met the condition
`ok` on the state before it.  The unconditional run is the one whose condition is
`AnyStep`.  `exec` computes the end of a run, and `runs_of_exec` turns a
computation into a run.
-/

namespace Protoc.Lib

/-! ## Components that answer calls -/

universe u v w x
variable {σ : Type u} {τ : Type v} {ι : Type w} {ω : Type x} {step : σ → ι → ω × σ} {step' : τ → ι → ω × τ}
  {legal : ι → Prop} {R : σ → τ → Prop} {s : σ} {t : τ} {calls : List ι}

def answers (step : σ → ι → ω × σ) : σ → List ι → List ω
  | _, [] => []
  | s, call :: calls => (step s call).1 :: answers step (step s call).2 calls

def afterCalls (step : σ → ι → ω × σ) : σ → List ι → σ
  | s, [] => s
  | s, call :: calls => afterCalls step (step s call).2 calls

/-- Related components answer alike, and stay related. -/
structure Simulates (step : σ → ι → ω × σ) (step' : τ → ι → ω × τ) (legal : ι → Prop) (R : σ → τ → Prop) : Prop where
  answer : ∀ {s t call}, R s t → legal call → (step s call).1 = (step' t call).1
  next : ∀ {s t call}, R s t → legal call → R (step s call).2 (step' t call).2

namespace Simulates

/-- **Related components answer a list of calls alike.** -/
theorem answers_agree (h : Simulates step step' legal R) (hR : R s t) (hcalls : ∀ call ∈ calls, legal call) :
    answers step s calls = answers step' t calls := by
  induction calls generalizing s t with
  | nil => rfl
  | cons call calls ih =>
    obtain ⟨hcall, hcalls⟩ := List.forall_mem_cons.mp hcalls
    rw [answers, answers, h.answer hR hcall, ih (h.next hR hcall) hcalls]

theorem afterCalls (h : Simulates step step' legal R) (hR : R s t) (hcalls : ∀ call ∈ calls, legal call) :
    R (afterCalls step s calls) (Lib.afterCalls step' t calls) := by
  induction calls generalizing s t with
  | nil => exact hR
  | cons call calls ih =>
    obtain ⟨hcall, hcalls⟩ := List.forall_mem_cons.mp hcalls
    exact ih (h.next hR hcall) hcalls

end Simulates

end Protoc.Lib

namespace Protoc.Lib

/-! ## Runs of a labelled machine -/

universe u v
variable {σ : Type u} {α : Type v}

def AnyStep (_ : σ) (_ : α) : Prop := True

instance (s : σ) (a : α) : Decidable (AnyStep s a) := .isTrue trivial

/-- A run along a list of actions, each taken in a state that meets `ok`. -/
inductive Runs (step : σ → α → Option σ) (ok : σ → α → Prop) : σ → List α → σ → Prop
  /-- The empty run. -/
  | nil (s : σ) : Runs step ok s [] s
  /-- One step, then the rest of the run. -/
  | cons {s s' s'' : σ} {a : α} {as : List α} (hok : ok s a) (hstep : step s a = some s')
      (rest : Runs step ok s' as s'') : Runs step ok s (a :: as) s''

namespace Runs
variable {step : σ → α → Option σ} {ok : σ → α → Prop} {s s' s'' : σ} {as bs : List α}

theorem single {a : α} (hok : ok s a) (hstep : step s a = some s') : Runs step ok s [a] s' :=
  .cons hok hstep (.nil s')

theorem append (first : Runs step ok s as s') (second : Runs step ok s' bs s'') :
    Runs step ok s (as ++ bs) s'' := by
  induction first with
  | nil => exact second
  | cons hok hstep _ ih => exact .cons hok hstep (ih second)

/-- **Invariants.**  A predicate preserved by every step that meets the condition
holds at the end of a run if it holds at the start. -/
theorem invariant {P : σ → Prop} (preserves : ∀ s a s', P s → ok s a → step s a = some s' → P s')
    (run : Runs step ok s as s') (initial : P s) : P s' := by
  induction run with
  | nil => exact initial
  | cons hok hstep _ ih => exact ih (preserves _ _ _ initial hok hstep)

theorem invariant_of_step {P : σ → Prop} (preserves : ∀ s a s', P s → step s a = some s' → P s')
    (run : Runs step ok s as s') (initial : P s) : P s' :=
  run.invariant (fun s a s' hP _ hstep => preserves s a s' hP hstep) initial

theorem split {as bs : List α} (run : Runs step ok s (as ++ bs) s'') :
    ∃ s', Runs step ok s as s' ∧ Runs step ok s' bs s'' := by
  induction as generalizing s with
  | nil => exact ⟨s, .nil s, run⟩
  | cons a as ih =>
    cases run with
    | cons hok hstep rest =>
      obtain ⟨t, first, second⟩ := ih rest
      exact ⟨t, .cons hok hstep first, second⟩

end Runs

/-- Run the machine along a list of actions; `none` when one of them is not enabled. -/
def exec (step : σ → α → Option σ) : σ → List α → Option σ
  | s, [] => some s
  | s, a :: as =>
    match step s a with
    | some s' => exec step s' as
    | none => none

theorem exec_append (step : σ → α → Option σ) (s : σ) (as bs : List α) :
    exec step s (as ++ bs) = (exec step s as).bind fun s' => exec step s' bs := by
  induction as generalizing s with
  | nil => rfl
  | cons a as ih =>
    rw [List.cons_append, exec, exec]
    cases step s a with
    | none => rfl
    | some s' => exact ih s'

/-- Run the machine and check the condition before every step. -/
def execOk (step : σ → α → Option σ) (ok : σ → α → Prop) [∀ s a, Decidable (ok s a)] : σ → List α → Option σ :=
  exec fun s a => if ok s a then step s a else none

theorem runs_of_execOk {step : σ → α → Option σ} {ok : σ → α → Prop}
    [∀ s a, Decidable (ok s a)] {s s' : σ} {as : List α}
    (h : execOk step ok s as = some s') : Runs step ok s as s' := by
  induction as generalizing s with
  | nil =>
    obtain rfl : s = s' := by simpa [execOk, exec] using h
    exact .nil s
  | cons a as ih =>
    by_cases hok : ok s a
    · cases hstep : step s a with
      | none => simp [execOk, exec, hok, hstep] at h
      | some t =>
        refine .cons hok hstep (ih ?_)
        simpa [execOk, exec, hok, hstep] using h
    · simp [execOk, exec, hok] at h

theorem runs_of_exec {step : σ → α → Option σ} {s s' : σ} {as : List α}
    (h : exec step s as = some s') : Runs step AnyStep s as s' := by
  have hok : execOk step AnyStep s as = some s' := by simpa [execOk, AnyStep] using h
  exact runs_of_execOk hok

/-! ## All states and all steps -/

/-- The predicate holds of every state along a list of actions, up to one that is not enabled. -/
def Throughout (step : σ → α → Option σ) (P : σ → Prop) : σ → List α → Prop
  | s, [] => P s
  | s, a :: as => P s ∧ ∀ s', step s a = some s' → Throughout step P s' as

/-- Every step along a list of actions meets the condition. -/
def EachStep (step : σ → α → Option σ) (ok : σ → α → Prop) : σ → List α → Prop
  | _, [] => True
  | s, a :: as => ∀ s', step s a = some s' → ok s a ∧ EachStep step ok s' as

theorem Throughout.start {step : σ → α → Option σ} {P : σ → Prop} {s : σ} {as : List α}
    (h : Throughout step P s as) : P s := by
  cases as with
  | nil => exact h
  | cons a as => exact h.1

theorem throughout_iff_eachStep_of_invariant {step : σ → α → Option σ} {ok : σ → α → Prop}
    {I P : σ → Prop} (h : ∀ s a s', I s → P s → step s a = some s' → I s' ∧ (P s' ↔ ok s a)) {s : σ}
    (hI : I s) (hP : P s) (as : List α) : Throughout step P s as ↔ EachStep step ok s as := by
  induction as generalizing s with
  | nil => exact iff_of_true hP trivial
  | cons a as ih =>
    constructor
    · rintro ⟨-, hrest⟩ s' hstep
      obtain ⟨hI', hiff⟩ := h s a s' hI hP hstep
      have hrest := hrest s' hstep
      exact ⟨hiff.mp hrest.start, (ih hI' hrest.start).mp hrest⟩
    · intro heach
      refine ⟨hP, fun s' hstep => ?_⟩
      obtain ⟨hI', hiff⟩ := h s a s' hI hP hstep
      obtain ⟨hok, hrest⟩ := heach s' hstep
      exact (ih hI' (hiff.mpr hok)).mpr hrest

/-- **A condition that is exact for one step is exact for a run.** -/
theorem throughout_iff_eachStep {step : σ → α → Option σ} {ok : σ → α → Prop} {P : σ → Prop}
    (h : ∀ s a s', P s → step s a = some s' → (P s' ↔ ok s a)) {s : σ} (hs : P s) (as : List α) :
    Throughout step P s as ↔ EachStep step ok s as :=
  throughout_iff_eachStep_of_invariant (I := fun _ => True)
    (fun s a s' _ hP hstep => ⟨trivial, h s a s' hP hstep⟩) trivial hs as

end Protoc.Lib
