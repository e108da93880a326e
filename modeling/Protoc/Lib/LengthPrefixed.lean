import Mathlib.Data.List.Basic
import Mathlib.Data.Int.Notation

/-!
# Lengths that are put in later

A document, some of whose parts have their length before them, is written without the lengths.
For each part the place of its length is noted, and its size is known when it ends.  Then the
lengths are put in, from the front to the back.
-/

namespace Protoc.Lib

open List

universe u

/-- A document.  The head of a part stands before its length. -/
inductive Doc (α : Type u)
  | nil
  | bytes (front : List α) (rest : Doc α)
  | part (head : { head : List α // head ≠ [] }) (body rest : Doc α)

namespace Doc

variable {α : Type u}

def flat : Doc α → List α
  | nil => []
  | bytes front rest => front ++ rest.flat
  | part head body rest => head.1 ++ (body.flat ++ rest.flat)

def append : Doc α → Doc α → Doc α
  | nil, d => d
  | bytes front rest, d => bytes front (rest.append d)
  | part head body rest, d => part head body (rest.append d)

section
variable (code : ℕ → List α)

/-- With the lengths. -/
def encode : Doc α → List α
  | nil => []
  | bytes front rest => front ++ rest.encode
  | part head body rest => head.1 ++ (code body.encode.length ++ (body.encode ++ rest.encode))

def extra : Doc α → ℕ
  | nil => 0
  | bytes _ rest => rest.extra
  | part _ body rest => (code (body.encode code).length).length + body.extra + rest.extra

/-- Where the lengths belong, for a document that is written from `pos` on, and what they are. -/
def gaps (pos : ℕ) : Doc α → List (ℕ × ℕ)
  | nil => []
  | bytes front rest => rest.gaps (pos + front.length)
  | part head body rest => (pos + head.1.length, (body.encode code).length) ::
      (body.gaps (pos + head.1.length) ++ rest.gaps (pos + head.1.length + body.flat.length))

end

variable {code : ℕ → List α}

@[simp] theorem flat_append (a b : Doc α) : (a.append b).flat = a.flat ++ b.flat := by
  induction a with
  | nil => rfl
  | bytes front rest ih => simp only [append, flat, ih, append_assoc]
  | part head body rest _ ih => simp only [append, flat, ih, append_assoc]

@[simp] theorem encode_append (a b : Doc α) : (a.append b).encode code = a.encode code ++ b.encode code := by
  induction a with
  | nil => rfl
  | bytes front rest ih => simp only [append, encode, ih, append_assoc]
  | part head body rest _ ih => simp only [append, encode, ih, append_assoc]

@[simp] theorem extra_append (a b : Doc α) : (a.append b).extra code = a.extra code + b.extra code := by
  induction a with
  | nil => exact (Nat.zero_add _).symm
  | bytes front rest ih => exact ih
  | part head body rest _ ih => simp only [append, extra, ih, Nat.add_assoc]

theorem gaps_append (pos : ℕ) (a b : Doc α) :
    (a.append b).gaps code pos = a.gaps code pos ++ b.gaps code (pos + a.flat.length) := by
  induction a generalizing pos with
  | nil => rfl
  | bytes front rest ih => simp only [append, gaps, flat, ih, length_append, Nat.add_assoc]
  | part head body rest _ ih =>
    simp only [append, gaps, flat, ih, length_append, cons_append, append_assoc, Nat.add_assoc]

theorem length_encode (d : Doc α) : (d.encode code).length = d.flat.length + d.extra code := by
  induction d with
  | nil => rfl
  | bytes front rest ih =>
    simp only [encode, flat, extra, length_append, ih]
    omega
  | part head body rest ihb ih =>
    simp only [encode, flat, extra, length_append, ihb, ih]
    omega

end Doc

/-! ## Putting the lengths in -/

section
variable {α : Type u} (code : ℕ → List α) {pos bound : ℕ} {gaps : List (ℕ × ℕ)}

/-- The bytes from `pos` on, with the lengths at their places. -/
def putIn : ℕ → List α → List (ℕ × ℕ) → List α
  | _, written, [] => written
  | pos, written, (place, size) :: gaps => written.take (place - pos) ++
      (code size ++ putIn place (written.drop (place - pos)) gaps)

/-- There are bytes before each place, and the places are not behind `bound`. -/
def Rising (bound : ℕ) : ℕ → List (ℕ × ℕ) → Prop
  | pos, [] => pos ≤ bound
  | pos, (place, _) :: gaps => pos < place ∧ Rising bound place gaps

theorem Rising.le_bound (h : Rising bound pos gaps) : pos ≤ bound := by
  induction gaps generalizing pos with
  | nil => exact h
  | cons gap gaps ih => exact Nat.le_trans (Nat.le_of_lt h.1) (ih h.2)

theorem Rising.mono {pos' : ℕ} (h : Rising bound pos gaps) (hle : pos' ≤ pos) : Rising bound pos' gaps := by
  cases gaps with
  | nil => exact Nat.le_trans hle h
  | cons gap gaps => exact ⟨Nat.lt_of_le_of_lt hle h.1, h.2⟩

theorem Doc.rising (d : Doc α) (h : Rising bound (pos + d.flat.length) gaps) :
    Rising bound pos (d.gaps code pos ++ gaps) := by
  induction d generalizing pos gaps with
  | nil => exact h
  | bytes front rest ih =>
    rw [flat, length_append, ← Nat.add_assoc] at h
    exact (ih h).mono (Nat.le_add_right _ _)
  | part head body rest ihb ih =>
    rw [flat, length_append, length_append, ← Nat.add_assoc, ← Nat.add_assoc] at h
    rw [Doc.gaps, cons_append, append_assoc]
    exact ⟨Nat.lt_add_of_pos_right (length_pos_of_ne_nil head.2), ihb (ih h)⟩

theorem putIn_append (front written : List α) (h : Rising bound (pos + front.length) gaps) :
    putIn code pos (front ++ written) gaps = front ++ putIn code (pos + front.length) written gaps := by
  cases gaps with
  | nil => rfl
  | cons gap gaps =>
    obtain ⟨place, size⟩ := gap
    have hlt : pos + front.length < place := h.1
    have hsub : place - pos = front.length + (place - (pos + front.length)) := by omega
    rw [putIn, putIn, hsub, take_length_add_append, drop_length_add_append, append_assoc]

/-- **Putting in** the lengths of a document gives its encoding. -/
theorem Doc.putIn_gaps (d : Doc α) (written : List α) (h : Rising bound (pos + d.flat.length) gaps) :
    putIn code pos (d.flat ++ written) (d.gaps code pos ++ gaps) =
      d.encode code ++ putIn code (pos + d.flat.length) written gaps := by
  induction d generalizing pos gaps written with
  | nil => rfl
  | bytes front rest ih =>
    rw [flat, length_append, ← Nat.add_assoc] at h ⊢
    rw [Doc.gaps, encode, append_assoc, putIn_append _ _ _ (rest.rising code h), ih _ h, append_assoc]
  | part head body rest ihb ih =>
    rw [flat, length_append, length_append, ← Nat.add_assoc, ← Nat.add_assoc] at h ⊢
    have hrest := rest.rising code h
    rw [Doc.gaps, cons_append, putIn, Nat.add_sub_cancel_left, append_assoc,
      take_left, drop_left, append_assoc, append_assoc, ihb _ hrest, ih _ h,
      encode]
    simp only [append_assoc]

theorem Doc.putIn_eq_encode (d : Doc α) : putIn code 0 d.flat (d.gaps code 0) = d.encode code := by
  have hrising : Rising d.flat.length (0 + d.flat.length) [] := Nat.le_of_eq (Nat.zero_add _)
  have h := d.putIn_gaps code [] hrising
  rwa [append_nil, append_nil, putIn, append_nil] at h

end

/-! ## Sizes that are not known yet -/

section
variable {α : Type u} {indices : List ℕ} {f g : α → α}

def modifyAll (f : α → α) (indices : List ℕ) (l : List α) : List α :=
  indices.foldl (fun l i => l.modify i f) l

@[simp] theorem length_modifyAll (l : List α) : (modifyAll f indices l).length = l.length := by
  induction indices generalizing l with
  | nil => rfl
  | cons i indices ih =>
    rw [modifyAll, foldl_cons]
    exact (ih _).trans (length_modify f l i)

@[simp] theorem modifyAll_id (l : List α) : modifyAll id indices l = l := by
  induction indices generalizing l with
  | nil => rfl
  | cons i indices ih =>
    rw [modifyAll, foldl_cons, modify_id]
    exact ih l

theorem modify_comm (hfg : ∀ a, f (g a) = g (f a)) (i j : ℕ) (l : List α) :
    (l.modify i f).modify j g = (l.modify j g).modify i f := by
  by_cases hij : i = j
  · rw [hij, modify_modify_eq, modify_modify_eq]
    congr 1
    funext a
    exact (hfg a).symm
  · exact (modify_modify_ne f g l hij)

theorem modifyAll_modify (hfg : ∀ a, f (g a) = g (f a)) (i : ℕ) (l : List α) :
    modifyAll f indices (l.modify i g) = (modifyAll f indices l).modify i g := by
  induction indices generalizing l with
  | nil => rfl
  | cons j indices ih =>
    rw [modifyAll, foldl_cons, ← modify_comm hfg]
    exact ih _

theorem modifyAll_modifyAll (hfg : ∀ a, f (g a) = g (f a)) (l : List α) :
    modifyAll f indices (modifyAll g indices l) = modifyAll (f ∘ g) indices l := by
  induction indices generalizing l with
  | nil => rfl
  | cons i indices ih =>
    have hcons : ∀ (f : α → α) (l : List α),
        modifyAll f (i :: indices) l = modifyAll f indices (l.modify i f) := fun _ _ => rfl
    rw [hcons, hcons, hcons, ← modifyAll_modify fun a => (hfg a).symm, ih, modify_modify_eq]

variable {l : List α}

theorem modify_append_left (i : ℕ) (l' : List α) (h : i < l.length) :
    (l ++ l').modify i f = l.modify i f ++ l' := by
  induction l generalizing i with
  | nil => exact absurd h (Nat.not_lt_zero _)
  | cons a l ih =>
    cases i with
    | zero => rfl
    | succ i => rw [cons_append, modify_succ_cons, modify_succ_cons,
        ih i (Nat.lt_of_succ_lt_succ h), cons_append]

theorem modifyAll_append (l' : List α) (h : ∀ i ∈ indices, i < l.length) :
    modifyAll f indices (l ++ l') = modifyAll f indices l ++ l' := by
  induction indices generalizing l with
  | nil => rfl
  | cons i indices ih =>
    rw [forall_mem_cons] at h
    rw [modifyAll, foldl_cons, modify_append_left i l' h.1]
    refine ih ?_
    rw [length_modify]
    exact h.2

theorem modify_length_append (f : α → α) (l : List α) (a : α) (l' : List α) :
    (l ++ a :: l').modify l.length f = l ++ f a :: l' := by
  induction l with
  | nil => rfl
  | cons b l ih => rw [cons_append, length_cons, modify_succ_cons, ih, cons_append]

theorem modifyAll_cons_length (h : ∀ i ∈ indices, i < l.length) (a : α) (l' : List α) :
    modifyAll f (l.length :: indices) (l ++ [a]) ++ l' = modifyAll f indices l ++ f a :: l' := by
  have hcons : modifyAll f (l.length :: indices) (l ++ [a]) =
      modifyAll f indices ((l ++ [a]).modify l.length f) := rfl
  rw [hcons, modify_length_append, modifyAll_append _ h, append_assoc, singleton_append]

end

end Protoc.Lib
