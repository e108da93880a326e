import Mathlib.Data.List.Basic
import Protoc.Lib.Settle

/-!
# Runs that log nothing

A program appends what it complains about to a log.  A run that leaves the log as it was has
complained nowhere on the way, so each step of it may be followed under that assumption.
-/

namespace Protoc.Lib

variable {σ γ ε α β : Type} {log : σ → List ε}

/-! ## The log grows -/

/-- What is in the log stays there. -/
class Grows (log : σ → List ε) (m : StateT σ Option α) : Prop where
  grows : ∀ s a s', m s = some (a, s') → log s <+: log s'

instance Grows.pure (a : α) : Grows log (Pure.pure a : StateT σ Option α) where
  grows s a' s' h := by
    have hs : some (a, s) = some (a', s') := h
    simp only [Option.some.injEq, Prod.mk.injEq] at hs
    exact hs.2 ▸ List.prefix_rfl

theorem bind_eq_some {m : StateT σ Option α} {f : α → StateT σ Option β} {s s' : σ} {b : β}
    (h : (m >>= f) s = some (b, s')) : ∃ a t, m s = some (a, t) ∧ f a t = some (b, s') := by
  have hbind : (m s).bind (fun p => f p.1 p.2) = some (b, s') := h
  obtain ⟨⟨a, t⟩, hm, hf⟩ := Option.bind_eq_some_iff.mp hbind
  exact ⟨a, t, hm, hf⟩

instance Grows.bind {m : StateT σ Option α} {f : α → StateT σ Option β} [hm : Grows log m]
    [hf : ∀ a, Grows log (f a)] : Grows log (m >>= f) where
  grows s b s' h := by
    obtain ⟨a, t, hrun, hrun'⟩ := bind_eq_some h
    exact (hm.grows s a t hrun).trans ((hf a).grows t b s' hrun')

instance Grows.ite {c : Prop} [Decidable c] {m m' : StateT σ Option α} [hm : Grows log m]
    [hm' : Grows log m'] : Grows log (if c then m else m') := by
  split
  · exact hm
  · exact hm'

instance Grows.reads (f : σ → α) : Grows log (Lib.reads f) where
  grows s a s' h := by
    have hs : some (f s, s) = some (a, s') := h
    simp only [Option.some.injEq, Prod.mk.injEq] at hs
    exact hs.2 ▸ List.prefix_rfl

theorem Grows.modify {f : σ → σ} (hf : ∀ s, log s <+: log (f s)) :
    Grows log (modify f : StateT σ Option Unit) where
  grows s a s' h := by
    have hs : some ((), f s) = some (a, s') := h
    simp only [Option.some.injEq, Prod.mk.injEq] at hs
    rw [← hs.2]
    exact hf s

instance Grows.andM {m m' : StateT σ Option Bool} [hm : Grows log m] [hm' : Grows log m'] :
    Grows log (m <&&> m') where
  grows s b s' h := by
    obtain ⟨a, t, hrun, hrun'⟩ := bind_eq_some h
    cases a with
    | false => exact (hm.grows s _ t hrun).trans ((Grows.pure false).grows t b s' hrun')
    | true => exact (hm.grows s _ t hrun).trans (hm'.grows t b s' hrun')

instance Grows.orM {m m' : StateT σ Option Bool} [hm : Grows log m] [hm' : Grows log m'] :
    Grows log (m <||> m') where
  grows s b s' h := by
    obtain ⟨a, t, hrun, hrun'⟩ := bind_eq_some h
    cases a with
    | false => exact (hm.grows s _ t hrun).trans (hm'.grows t b s' hrun')
    | true => exact (hm.grows s _ t hrun).trans ((Grows.pure true).grows t b s' hrun')

instance Grows.loop {body : β → StateT σ Option (α ⊕ β)} [hbody : ∀ b, Grows log (body b)]
    (fuel : ℕ) (b : β) : Grows log (Lib.loop body fuel b) := by
  induction fuel generalizing b with
  | zero => exact ⟨fun s a s' h => by cases h⟩
  | succ fuel ih =>
    refine ⟨fun s a s' h => ?_⟩
    obtain ⟨r, t, hrun, hrun'⟩ := bind_eq_some h
    have hfirst := (hbody b).grows s r t hrun
    cases r with
    | inl a' => exact hfirst.trans ((Grows.pure a').grows t a s' hrun')
    | inr b' => exact hfirst.trans ((ih b').grows t a s' hrun')

/-! ## Quiet runs -/

/-- A run that logs nothing ends where `post` says. -/
def Quietly (stands : γ → σ → Prop) (log : σ → List ε) (m : StateT σ Option α) (x : γ)
    (post : α → γ → Prop) : Prop :=
  ∀ s a s', stands x s → m s = some (a, s') → log s' = log s → ∃ y, stands y s' ∧ post a y

namespace Quietly

variable {stands : γ → σ → Prop} {x : γ} {post : β → γ → Prop}

variable {m : StateT σ Option β}

theorem mono {post' : β → γ → Prop} (hm : Quietly stands log m x post) (h : ∀ b y, post b y → post' b y) :
    Quietly stands log m x post' := by
  intro s b s' hs hrun hquiet
  obtain ⟨y, hy, hpost⟩ := hm s b s' hs hrun hquiet
  exact ⟨y, hy, h b y hpost⟩

theorem of_settles (hm : Settles stands m x post) : Quietly stands log m x post := by
  intro s b s' hs hrun _
  obtain ⟨b', y, hyields, hpost⟩ := hm
  obtain ⟨t, hrun', ht⟩ := hyields s hs
  rw [hrun, Option.some.injEq, Prod.mk.injEq] at hrun'
  obtain ⟨rfl, rfl⟩ := hrun'
  exact ⟨y, ht, hpost⟩

theorem pure {b : β} (h : post b x) : Quietly stands log (Pure.pure b : StateT σ Option β) x post :=
  of_settles (.pure h)

theorem bind {m : StateT σ Option α} {f : α → StateT σ Option β} {mid : α → γ → Prop}
    [gm : Grows log m] [gf : ∀ a, Grows log (f a)] (hm : Quietly stands log m x mid)
    (hf : ∀ a y, mid a y → Quietly stands log (f a) y post) : Quietly stands log (m >>= f) x post := by
  intro s b s' hs hrun hquiet
  obtain ⟨a, t, hfirst, hsecond⟩ := bind_eq_some hrun
  have hst := gm.grows s a t hfirst
  have hts := (gf a).grows t b s' hsecond
  have ht : log t = log s := by
    rw [hquiet] at hts
    exact hts.eq_of_length_le hst.length_le
  obtain ⟨y, hy, hmid⟩ := hm s a t hs hfirst ht
  exact hf a y hmid t b s' hy hsecond (hquiet.trans ht.symm)

theorem loud (h : ∀ s b s', m s = some (b, s') → log s' ≠ log s) : Quietly stands log m x post := by
  intro s b s' _ hrun hquiet
  exact absurd hquiet (h s b s' hrun)

theorem ite {c : Prop} [Decidable c] {m m' : StateT σ Option β}
    (ht : c → Quietly stands log m x post) (hf : ¬ c → Quietly stands log m' x post) :
    Quietly stands log (if c then m else m') x post := by
  split
  · next h => exact ht h
  · next h => exact hf h

theorem reads {f : σ → α} {k : α → StateT σ Option β} (v : α) (hv : ∀ s, stands x s → f s = v)
    (hk : Quietly stands log (k v) x post) : Quietly stands log (Lib.reads f >>= k) x post := by
  intro s b s' hs hrun hquiet
  have hrun' : k (f s) s = some (b, s') := hrun
  rw [hv s hs] at hrun'
  exact hk s b s' hs hrun' hquiet

theorem andM {m m' : StateT σ Option Bool} {mid post : Bool → γ → Prop} [Grows log m]
    [Grows log m'] (hm : Quietly stands log m x mid) (htrue : ∀ y, mid true y → Quietly stands log m' y post)
    (hfalse : ∀ y, mid false y → post false y) : Quietly stands log (m <&&> m') x post := by
  have hbind : Quietly stands log (m >>= fun b => if b = true then m' else Pure.pure false) x
      post := by
    refine hm.bind ?_
    intro b y hmid
    cases b with
    | false => exact .pure (hfalse y hmid)
    | true => exact htrue y hmid
  intro s b s' hs hrun hquiet
  refine hbind s b s' hs ?_ hquiet
  rw [← hrun]
  change (m s).bind _ = (m s).bind _
  congr 1
  funext ⟨a, t⟩
  cases a <;> rfl

theorem orM {m m' : StateT σ Option Bool} {mid post : Bool → γ → Prop} [Grows log m]
    [Grows log m'] (hm : Quietly stands log m x mid) (hfalse : ∀ y, mid false y → Quietly stands log m' y post)
    (htrue : ∀ y, mid true y → post true y) : Quietly stands log (m <||> m') x post := by
  have hbind : Quietly stands log (m >>= fun b => if b = true then Pure.pure true else m') x
      post := by
    refine hm.bind ?_
    intro b y hmid
    cases b with
    | false => exact hfalse y hmid
    | true => exact .pure (htrue y hmid)
  intro s b s' hs hrun hquiet
  refine hbind s b s' hs ?_ hquiet
  rw [← hrun]
  change (m s).bind _ = (m s).bind _
  congr 1
  funext ⟨a, t⟩
  cases a <;> rfl

/-- **Loops**: what each quiet round keeps, holds at the end. -/
theorem loop {body : α → StateT σ Option (β ⊕ α)} [hgrows : ∀ a, Grows log (body a)]
    (inv : α → γ → Prop)
    (hbody : ∀ a y, inv a y → Quietly stands log (body a) y fun r z => match r with
      | .inl b => post b z
      | .inr a' => inv a' z)
    {fuel : ℕ} {a : α} (hinv : inv a x) : Quietly stands log (Lib.loop body fuel a) x post := by
  induction fuel generalizing a x with
  | zero =>
    intro s b s' _ hrun
    cases hrun
  | succ fuel ih =>
    intro s b s' hs hrun hquiet
    obtain ⟨r, t, hfirst, hsecond⟩ := bind_eq_some hrun
    have hst := (hgrows a).grows s r t hfirst
    have hts : log t <+: log s' := by
      cases r with
      | inl b' => exact (Grows.pure b').grows t b s' hsecond
      | inr a' => exact (Grows.loop fuel a').grows t b s' hsecond
    rw [hquiet] at hts
    have ht : log t = log s := hts.eq_of_length_le hst.length_le
    obtain ⟨z, hz, hr⟩ := hbody a x hinv s r t hs hfirst ht
    -- the rest is a result, or the loop again
    cases r with
    | inl b' => exact (pure hr : Quietly stands log _ z post) t b s' hz hsecond (hquiet.trans ht.symm)
    | inr a' => exact ih hr t b s' hz hsecond (hquiet.trans ht.symm)

end Quietly

end Protoc.Lib
