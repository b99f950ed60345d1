import Mathlib.Tactic.Linarith

/-! # Machine integers

A signed machine integer is an integer in a range, and an operation that leaves the range has no
result.
-/

namespace Steel

open Nat

namespace MachineInt

def maxValue (bits : ℕ) : ℤ := 2 ^ (bits - 1) - 1

def InRange (bits : ℕ) (z : ℤ) : Prop := -maxValue bits - 1 ≤ z ∧ z ≤ maxValue bits

instance (bits : ℕ) (z : ℤ) : Decidable (InRange bits z) := inferInstanceAs (Decidable (_ ∧ _))

variable (bits : ℕ)

def fit (z : ℤ) : Option ℤ := if InRange bits z then some z else none

def add (left right : ℤ) : Option ℤ := fit bits (left + right)

def mul (left right : ℤ) : Option ℤ := fit bits (left * right)

def abs (z : ℤ) : Option ℤ := fit bits |z|

def div (left right : ℤ) : Option ℤ := if right = 0 then none else fit bits (left.tdiv right)

/-- The remainder has no result where the quotient has none. -/
def rem (left right : ℤ) : Option ℤ := (div bits left right).map fun _ => left.tmod right

def gcd (left right : ℤ) : Option ℤ :=
  if right = 0 then abs bits left
  else
    match _h : rem bits left right with
    | some remainder => gcd right remainder
    | none => none
termination_by right.natAbs
decreasing_by
  obtain ⟨_, _, rfl⟩ := Option.map_eq_some_iff.1 _h
  rw [Int.natAbs_tmod]
  exact mod_lt _ (by omega)

theorem maxValue_nonneg : 0 ≤ maxValue bits := by
  have hpow : (0 : ℤ) < 2 ^ (bits - 1) := by positivity
  rw [maxValue]
  omega

variable {m n : ℕ}

theorem fit_natCast (h : (m : ℤ) ≤ maxValue bits) : fit bits m = some (m : ℤ) := by
  have hmax := maxValue_nonneg bits
  exact if_pos ⟨by omega, h⟩

theorem fit_natCast_of_lt (h : maxValue bits < m) : fit bits m = none :=
  if_neg fun hrange => (hrange.2.trans_lt h).false

theorem div_natCast (hm : (m : ℤ) ≤ maxValue bits) (hn : n ≠ 0) :
    div bits m n = some ((m / n : ℕ) : ℤ) := by
  have hle : m / n ≤ m := div_le_self m n
  rw [div, if_neg (by exact_mod_cast hn), ← Int.ofNat_tdiv, fit_natCast bits (by omega)]

theorem rem_natCast (hm : (m : ℤ) ≤ maxValue bits) (hn : n ≠ 0) :
    rem bits m n = some ((m % n : ℕ) : ℤ) := by
  rw [rem, div_natCast bits hm hn, Option.map_some, Int.ofNat_tmod]

theorem gcd_natCast : ∀ {n m : ℕ}, (m : ℤ) ≤ maxValue bits → (n : ℤ) ≤ maxValue bits →
    gcd bits m n = some (Nat.gcd m n : ℤ) := by
  intro n
  induction n using Nat.strong_induction_on with
  | h n ih =>
    intro m hm hn
    rw [gcd]
    by_cases hzero : n = 0
    · subst hzero
      rw [if_pos cast_zero, abs, abs_cast, fit_natCast bits hm, gcd_zero_right]
    · rw [if_neg (by exact_mod_cast hzero)]
      have hmod : m % n < n := mod_lt m (pos_of_ne_zero hzero)
      split
      next remainder h =>
        rw [rem_natCast bits hm hzero] at h
        cases h
        rw [ih (m % n) hmod hn (by omega), Nat.gcd_comm n, Nat.gcd_comm m, ← gcd_rec]
      next h =>
        rw [rem_natCast bits hm hzero] at h
        cases h

end MachineInt

end Steel
