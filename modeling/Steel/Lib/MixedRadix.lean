import Mathlib.Algebra.BigOperators.Group.List.Basic
import Mathlib.Algebra.Order.BigOperators.Ring.List
import Mathlib.Tactic.Ring

/-! # Mixed radix numbers

A number is written with one digit for each radix of a list, the last digit being the least
significant one.
-/

namespace Steel.MixedRadix

open List Nat

/-- The digits of a number. What is left over at the front is dropped. -/
def digits : List ℕ → ℕ → List ℕ
  | [], _ => []
  | radix :: radices, n => n / radices.prod % radix :: digits radices n

def value : List ℕ → List ℕ → ℕ
  | _ :: radices, digit :: rest => digit * radices.prod + value radices rest
  | _, _ => 0

def stride (radices : List ℕ) (i : ℕ) : ℕ := (radices.drop (i + 1)).prod

variable {radices ds : List ℕ}

@[simp] theorem length_digits (radices : List ℕ) (n : ℕ) :
    (digits radices n).length = radices.length := by
  induction radices with
  | nil => rfl
  | cons radix radices ih => exact congrArg Nat.succ ih

theorem value_digits (radices : List ℕ) (n : ℕ) :
    value radices (digits radices n) = n % radices.prod := by
  induction radices with
  | nil => simp [value, mod_one]
  | cons radix radices ih =>
    rw [digits, value, ih, prod_cons, mul_comm radix, mod_mul]
    ring

theorem digits_lt (h : ∀ radix ∈ radices, 0 < radix) (n : ℕ) :
    List.Forall₂ (· < ·) (digits radices n) radices := by
  induction radices with
  | nil => exact .nil
  | cons radix radices ih =>
    refine .cons (mod_lt _ (h radix mem_cons_self)) (ih fun r hr => ?_)
    exact h r (mem_cons_of_mem radix hr)

section

variable (h : List.Forall₂ (· < ·) ds radices)

include h

theorem value_lt : value radices ds < radices.prod := by
  induction h with
  | nil => exact one_pos
  | @cons digit radix ds radices hlt _ ih =>
    rw [value, prod_cons]
    calc digit * radices.prod + value radices ds
      _ < digit * radices.prod + radices.prod := Nat.add_lt_add_left ih _
      _ = (digit + 1) * radices.prod := by ring
      _ ≤ radix * radices.prod := mul_le_mul_right _ hlt

theorem digits_value_add (k : ℕ) : digits radices (value radices ds + k * radices.prod) = ds := by
  induction h generalizing k with
  | nil => rfl
  | @cons digit radix ds radices hlt hrest ih =>
    have hvalue := value_lt hrest
    have hpos : 0 < radices.prod := lt_of_le_of_lt (zero_le _) hvalue
    have hsum : value (radix :: radices) (digit :: ds) + k * (radix :: radices).prod =
        value radices ds + (digit + k * radix) * radices.prod := by
      rw [value, prod_cons]
      ring
    rw [hsum, digits, ih, add_mul_div_right _ _ hpos, div_eq_of_lt hvalue, zero_add,
      add_mul_mod_self_right, mod_eq_of_lt hlt]

theorem digits_value : digits radices (value radices ds) = ds := by
  have hdigits := digits_value_add h 0
  rwa [zero_mul, add_zero] at hdigits

end

theorem getElem?_digits {radix i : ℕ} (h : radices[i]? = some radix) (n : ℕ) :
    (digits radices n)[i]? = some (n / stride radices i % radix) := by
  induction radices generalizing i with
  | nil => simp at h
  | cons first radices ih =>
    cases i with
    | zero =>
      obtain rfl := Option.some.inj h
      rfl
    | succ i => exact ih h

theorem value_set {i digit : ℕ} (hlength : ds.length = radices.length) (h : ds[i]? = some digit)
    (digit' : ℕ) : value radices (ds.set i digit') + digit * stride radices i =
      value radices ds + digit' * stride radices i := by
  induction ds generalizing radices i with
  | nil => simp at h
  | cons first ds ih =>
    cases radices with
    | nil => simp at hlength
    | cons radix radices =>
      cases i with
      | zero =>
        obtain rfl := Option.some.inj h
        simp only [set_cons_zero, value, stride, zero_add, drop_one, tail_cons]
        ring
      | succ i =>
        have hrest := ih (Nat.succ.inj hlength) h
        simp only [set_cons_succ, value]
        have hstride : stride (radix :: radices) (i + 1) = stride radices i := rfl
        rw [hstride]
        omega

end Steel.MixedRadix
