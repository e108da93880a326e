import Mathlib.Data.List.Basic

/-!
# Regions of memory

Half-open ranges of addresses.
-/

namespace Protoc.Lib

/-- The addresses from `base` on, `length` of them. -/
structure Region where
  base : ℕ
  length : ℕ
deriving DecidableEq

namespace Region

def limit (r : Region) : ℕ := r.base + r.length

def Apart (r s : Region) : Prop := r.limit ≤ s.base ∨ s.limit ≤ r.base

instance (r s : Region) : Decidable (Apart r s) := inferInstanceAs (Decidable (_ ∨ _))

def Within (r s : Region) : Prop := s.base ≤ r.base ∧ r.limit ≤ s.limit

variable {r s t : Region}

theorem Apart.symm (h : Apart r s) : Apart s r := Or.symm h

theorem Apart.of_within (h : Apart s t) (hr : Within r s) : Apart r t :=
  h.imp (Nat.le_trans hr.2) fun ht => Nat.le_trans ht hr.1

end Region

end Protoc.Lib
