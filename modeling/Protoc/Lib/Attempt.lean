import Mathlib.Data.List.Basic

/-!
# Attempts

An attempt answers whether it succeeded and leaves a state, also where it failed.  A chain
of attempts stops at the first failure.
-/

namespace Protoc.Lib

universe u v w

abbrev Attempt (σ : Type u) : Type u := Bool × σ

namespace Attempt
variable {σ : Type u} {ε : Type v} {ι : Type w}

def andThen (first : Attempt σ) (next : σ → Attempt σ) : Attempt σ :=
  if first.1 then next first.2 else first

def forAll (step : ε → σ → Attempt σ) : List ε → σ → Attempt σ
  | [], s => (true, s)
  | e :: l, s => andThen (step e s) (forAll step l)

variable {step : ε → σ → Attempt σ}

@[simp] theorem forAll_nil (s : σ) : forAll step [] s = (true, s) := rfl

@[simp] theorem forAll_cons (e : ε) (l : List ε) (s : σ) :
    forAll step (e :: l) s = andThen (step e s) (forAll step l) := rfl

theorem forAll_singleton (e : ε) (s : σ) : forAll step [e] s = step e s := by
  rw [forAll_cons, andThen]
  split_ifs with h
  · rw [forAll_nil, ← h]
  · rfl

theorem andThen_assoc (first : Attempt σ) (f g : σ → Attempt σ) :
    andThen (andThen first f) g = andThen first fun s => andThen (f s) g := by
  cases h : first.1 <;> simp [andThen, h]

theorem forAll_append (l₁ l₂ : List ε) (s : σ) :
    forAll step (l₁ ++ l₂) s = andThen (forAll step l₁ s) (forAll step l₂) := by
  induction l₁ generalizing s with
  | nil => rfl
  | cons e l₁ ih =>
    rw [List.cons_append, forAll_cons, forAll_cons, andThen_assoc]
    congr 1
    exact funext ih

theorem forAll_flatMap (f : ι → List ε) (l : List ι) (s : σ) :
    forAll step (l.flatMap f) s = forAll (fun i => forAll step (f i)) l s := by
  induction l generalizing s with
  | nil => rfl
  | cons i l ih =>
    rw [List.flatMap_cons, forAll_append, forAll_cons]
    congr 1
    exact funext ih

theorem forAll_map (f : ι → ε) (l : List ι) (s : σ) :
    forAll step (l.map f) s = forAll (fun i => step (f i)) l s := by
  induction l generalizing s with
  | nil => rfl
  | cons i l ih =>
    rw [List.map_cons, forAll_cons, forAll_cons]
    congr 1
    exact funext ih

theorem andThen_fst {first : Attempt σ} {next : σ → Attempt σ} :
    (andThen first next).1 = true ↔ first.1 = true ∧ (next first.2).1 = true := by
  unfold andThen
  split_ifs with h <;> simp [h]

theorem andThen_snd {first : Attempt σ} {next : σ → Attempt σ} (h : first.1 = true) :
    (andThen first next).2 = (next first.2).2 := by
  rw [andThen, if_pos h]

def Along (ok : ε → σ → Prop) (step : ε → σ → Attempt σ) : List ε → σ → Prop
  | [], _ => True
  | e :: l, s => ok e s ∧ ((step e s).1 = true → Along ok step l (step e s).2)

/-- **Two loops go along** when their attempts do, under the condition. -/
theorem forAll_simulates {τ : Type w} {ok : ε → σ → Prop} {step' : ε → τ → Attempt τ} {R : σ → τ → Prop}
    (hstep : ∀ e s t, R s t → ok e s → (step e s).1 = (step' e t).1 ∧ R (step e s).2 (step' e t).2)
    (l : List ε) {s : σ} {t : τ} (h : R s t) (hok : Along ok step l s) :
    (forAll step l s).1 = (forAll step' l t).1 ∧ R (forAll step l s).2 (forAll step' l t).2 := by
  induction l generalizing s t with
  | nil => exact ⟨rfl, h⟩
  | cons e l ih =>
    obtain ⟨hfirst, hrest⟩ := hok
    obtain ⟨hsame, hrelated⟩ := hstep e s t h hfirst
    rw [forAll_cons, forAll_cons, andThen, andThen, ← hsame]
    split_ifs with hsuccess
    · exact ih hrelated (hrest hsuccess)
    · exact ⟨hsame, hrelated⟩

end Attempt

end Protoc.Lib
