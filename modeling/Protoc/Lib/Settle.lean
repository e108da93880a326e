import Mathlib.Tactic.Common

/-!
# Programs whose outcome a view of the state settles

Two states may differ in how they hold the same thing.  A *view* keeps what matters, and
`stands x s` says that the state `s` stands for the view `x`.  `Settles stands m x post` says
that the view settles what `m` does: every state that stands for `x` gives the same result and
is left standing for the same view, and the two meet `post`.
-/

namespace Protoc.Lib

variable {σ γ α β : Type}

def reads (f : σ → α) : StateT σ Option α := fun s => some (f s, s)

/-- `body` until it leaves with a result.  `none`: the fuel ran out, or the body has no result. -/
def loop (body : β → StateT σ Option (α ⊕ β)) : ℕ → β → StateT σ Option α
  | 0, _ => fun _ => none
  | fuel + 1, b => do
      match ← body b with
      | .inl a => pure a
      | .inr b => loop body fuel b

/-- From every state that stands for `x`, the program returns `a` and leaves one that stands
for `y`. -/
def Yields (stands : γ → σ → Prop) (m : StateT σ Option α) (x : γ) (a : α) (y : γ) : Prop :=
  ∀ s, stands x s → ∃ s', m s = some (a, s') ∧ stands y s'

/-- The view settles the outcome, and the outcome meets `post`. -/
def Settles (stands : γ → σ → Prop) (m : StateT σ Option α) (x : γ) (post : α → γ → Prop) : Prop :=
  ∃ a y, Yields stands m x a y ∧ post a y

namespace Settles

variable {stands : γ → σ → Prop} {x : γ} {post : β → γ → Prop}

theorem mono {m : StateT σ Option β} {post' : β → γ → Prop} (hm : Settles stands m x post)
    (h : ∀ b y, post b y → post' b y) : Settles stands m x post' := by
  obtain ⟨b, y, hyields, hpost⟩ := hm
  exact ⟨b, y, hyields, h b y hpost⟩

theorem pure {b : β} (h : post b x) : Settles stands (Pure.pure b : StateT σ Option β) x post :=
  ⟨b, x, fun s hs => ⟨s, rfl, hs⟩, h⟩

theorem bind {m : StateT σ Option α} {f : α → StateT σ Option β} {mid : α → γ → Prop}
    (hm : Settles stands m x mid) (hf : ∀ a y, mid a y → Settles stands (f a) y post) :
    Settles stands (m >>= f) x post := by
  obtain ⟨a, y, hyields, hmid⟩ := hm
  obtain ⟨b, z, hyields', hpost⟩ := hf a y hmid
  refine ⟨b, z, ?_, hpost⟩
  intro s hs
  obtain ⟨t, hrun, ht⟩ := hyields s hs
  obtain ⟨u, hrun', hu⟩ := hyields' t ht
  refine ⟨u, ?_, hu⟩
  change (m s).bind (fun p => f p.1 p.2) = some (b, u)
  rw [hrun]
  exact hrun'

theorem reads {f : σ → α} {k : α → StateT σ Option β} (v : α) (hv : ∀ s, stands x s → f s = v)
    (hk : Settles stands (k v) x post) : Settles stands (Lib.reads f >>= k) x post := by
  obtain ⟨b, y, hyields, hpost⟩ := hk
  refine ⟨b, y, ?_, hpost⟩
  intro s hs
  obtain ⟨t, hrun, ht⟩ := hyields s hs
  refine ⟨t, ?_, ht⟩
  change k (f s) s = some (b, t)
  rw [hv s hs]
  exact hrun

theorem modify {f : σ → σ} {post : Unit → γ → Prop} (y : γ)
    (hf : ∀ s, stands x s → stands y (f s)) (h : post () y) :
    Settles stands (modify f : StateT σ Option Unit) x post :=
  ⟨(), y, fun s hs => ⟨f s, rfl, hf s hs⟩, h⟩

theorem ite {c : Prop} [Decidable c] {m m' : StateT σ Option β}
    (ht : c → Settles stands m x post) (hf : ¬ c → Settles stands m' x post) :
    Settles stands (if c then m else m') x post := by
  split
  · next h => exact ht h
  · next h => exact hf h

theorem andM {m m' : StateT σ Option Bool} {mid post : Bool → γ → Prop} (hm : Settles stands m x mid)
    (htrue : ∀ y, mid true y → Settles stands m' y post) (hfalse : ∀ y, mid false y → post false y) :
    Settles stands (m <&&> m') x post := by
  refine hm.bind ?_
  intro b y hmid
  cases b with
  | false => exact .pure (hfalse y hmid)
  | true => exact htrue y hmid

theorem orM {m m' : StateT σ Option Bool} {mid post : Bool → γ → Prop} (hm : Settles stands m x mid)
    (hfalse : ∀ y, mid false y → Settles stands m' y post) (htrue : ∀ y, mid true y → post true y) :
    Settles stands (m <||> m') x post := by
  refine hm.bind ?_
  intro b y hmid
  cases b with
  | false => exact hfalse y hmid
  | true => exact .pure (htrue y hmid)

/-- **Loops.**  A round from the invariant either leaves with the postcondition or goes on with
the invariant and a smaller measure; then any fuel above the measure is enough. -/
theorem loop {body : α → StateT σ Option (β ⊕ α)} (inv : α → γ → Prop) (measure : γ → ℕ)
    (hbody : ∀ a y, inv a y → Settles stands (body a) y fun r z => match r with
      | .inl b => post b z
      | .inr a' => inv a' z ∧ measure z < measure y)
    {fuel : ℕ} {a : α} (hinv : inv a x) (hfuel : measure x < fuel) :
    Settles stands (Lib.loop body fuel a) x post := by
  induction fuel generalizing a x with
  | zero => exact absurd hfuel (Nat.not_lt_zero _)
  | succ fuel ih =>
    rw [Lib.loop]
    refine (hbody a x hinv).bind ?_
    intro r z hr
    cases r with
    | inl b => exact .pure hr
    | inr a' => exact ih hr.1 (by omega)

end Settles

end Protoc.Lib
