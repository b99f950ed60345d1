import Steel.Lib.Fallible
import Steel.Lib.MachineInt

/-! # The weight of bundles

A bundle of any depth weighs what its items weigh, as a fraction of machine integers in lowest
terms. Each operation is exact if the terms fit, and an error otherwise.
-/

namespace Steel

open MachineInt

/-- An error that is returned, or a panic of an operation that is not checked. -/
inductive WeightError where
  | invalidFraction
  | invalidCount
  | excessive
  | panic
  deriving DecidableEq

def WeightError.message : WeightError → Option String
  | invalidFraction => some "Invalid bundle weight fraction"
  | invalidCount => some "Invalid bundle item count"
  | excessive => some "Excessive total bundle weight"
  | panic => none

/-- An item with its effective components, as far as its weight depends on them. -/
inductive ItemStackTemplate (Occupant : Type) where
  | mk (bundleContents : Option (List (ItemStackTemplate Occupant)))
      (bees : Option (List Occupant)) (maxStackSize : Option Int32) (count : Int32)

namespace ItemStackTemplate

variable {Occupant : Type}

def count : ItemStackTemplate Occupant → Int32
  | mk _ _ _ count => count

def maxStackSize : ItemStackTemplate Occupant → Int32
  | mk _ _ maxStackSize _ => maxStackSize.getD 1

def hasBees : ItemStackTemplate Occupant → Bool
  | mk _ bees _ _ => bees.any fun occupants => !occupants.isEmpty

end ItemStackTemplate

structure CheckedFraction where
  numerator : ℤ
  denominator : ℤ
  deriving DecidableEq

namespace CheckedFraction

def orFail (error : WeightError) : Option ℤ → Except WeightError ℤ
  | some z => .ok z
  | none => .error error

def checkedMul (left right : ℤ) : Except WeightError ℤ := orFail .excessive (mul 32 left right)

def checkedAdd (left right : ℤ) : Except WeightError ℤ := orFail .excessive (add 32 left right)

/-- `i32::try_from` -/
def tryFrom (z : ℤ) : Except WeightError ℤ := orFail .excessive (fit 32 z)

def zero : CheckedFraction := ⟨0, 1⟩

def one : CheckedFraction := ⟨1, 1⟩

def new (numerator denominator : ℤ) : Except WeightError CheckedFraction := do
  if numerator < 0 ∨ denominator ≤ 0 then throw .invalidFraction
  let divisor ← orFail .panic (gcd 32 numerator denominator)
  return ⟨← orFail .panic (div 32 numerator divisor), ← orFail .panic (div 32 denominator divisor)⟩

def add (self other : CheckedFraction) : Except WeightError CheckedFraction := do
  if self.numerator = 0 then return other
  if other.numerator = 0 then return self
  let denominatorGcd ← orFail .panic (gcd 32 self.denominator other.denominator)
  if denominatorGcd = 1 then
    let left ← checkedMul self.numerator other.denominator
    let right ← checkedMul other.numerator self.denominator
    return ⟨← checkedAdd left right, ← checkedMul self.denominator other.denominator⟩
  let left ← orFail .panic (mul 64 self.numerator
    (← orFail .panic (div 32 other.denominator denominatorGcd)))
  let right ← orFail .panic (mul 64 other.numerator
    (← orFail .panic (div 32 self.denominator denominatorGcd)))
  let sum ← orFail .panic (MachineInt.add 64 left right)
  let reduction ← orFail .panic (gcd 64 (← orFail .panic (rem 64 sum denominatorGcd))
    denominatorGcd)
  let numerator ← tryFrom (← orFail .panic (div 64 sum reduction))
  let reduction ← tryFrom reduction
  let denominator ← checkedMul (← orFail .panic (div 32 self.denominator denominatorGcd))
    (← orFail .panic (div 32 other.denominator reduction))
  return ⟨numerator, denominator⟩

def multiply (self : CheckedFraction) (value : ℤ) : Except WeightError CheckedFraction := do
  if value < 0 then throw .invalidCount
  if self.numerator = 0 ∨ value = 0 then return zero
  let reduction ← orFail .panic (gcd 32 value self.denominator)
  new (← checkedMul self.numerator (← orFail .panic (div 32 value reduction)))
    (← orFail .panic (div 32 self.denominator reduction))

end CheckedFraction

section ComputeWeight

variable {Occupant : Type}

mutual

/-- The loop of `compute_weight`, from a weight on. -/
def computeWeightFrom (weight : CheckedFraction) :
    List (ItemStackTemplate Occupant) → Except WeightError CheckedFraction
  | [] => return weight
  | item :: items => do
    let itemWeight ← (← bundleItemWeight item).multiply item.count.toInt
    computeWeightFrom (← weight.add itemWeight) items

def bundleItemWeight : ItemStackTemplate Occupant → Except WeightError CheckedFraction
  | .mk (some items) _ _ _ => do
    (← computeWeightFrom .zero items).add (← CheckedFraction.new 1 16)
  | .mk none bees maxStackSize count =>
    let item : ItemStackTemplate Occupant := .mk none bees maxStackSize count
    if item.hasBees then return .one
    else CheckedFraction.new 1 item.maxStackSize.toInt

end

end ComputeWeight

structure BundleContents (Occupant : Type) where
  items : List (ItemStackTemplate Occupant)

def BundleContents.computeWeight {Occupant : Type} (bundle : BundleContents Occupant) :
    Except WeightError CheckedFraction :=
  computeWeightFrom .zero bundle.items

open MachineInt (fit_natCast fit_natCast_of_lt gcd gcd_natCast div_natCast)

open Steel.Except (ok_bind)

open MachineInt (maxValue)

open Int

/-- The terms of a sum, with denominators of which the greatest common divisor has been taken out
first. -/
theorem num_den_add {q r : ℚ} {a b g t h : ℕ} (ha : q.num = a) (hb : r.num = b)
    (hg : g = q.den.gcd r.den) (ht : t = a * (r.den / g) + b * (q.den / g)) (hh : h = t.gcd g) :
    (q + r).num = (t / h : ℕ) ∧ (q + r).den = q.den / g * (r.den / h) := by
  have hhg : h ∣ g := hh ▸ Nat.gcd_dvd_right _ _
  have hdvd : h ∣ r.den := hhg.trans (hg ▸ Nat.gcd_dvd_right _ _)
  have hsum : q.num * (r.den / g : ℕ) + r.num * (q.den / g : ℕ) = t := by
    rw [ha, hb, ht]
    push_cast
    rfl
  have hadd : q + r = Rat.add q r := rfl
  have hdiv : ((t / h : ℕ) : ℤ) = t / h := natCast_div t h
  rw [hadd, Rat.add, hdiv]
  dsimp only
  rw [← Nat.mul_div_assoc _ hdvd]
  split_ifs with hone
  · have hg1 : g = 1 := hg.trans hone
    have hh1 : h = 1 := Nat.dvd_one.1 (hg1 ▸ hhg)
    rw [← hsum, hg1, hh1]
    simp
  · rw [Rat.maybeNormalize_eq]
    refine ⟨(divExact_eq_ediv (ofNat_dvd_left.2 (Nat.gcd_dvd_left _ _))).trans ?_, ?_⟩
    · rw [← hg, hsum, natAbs_natCast, hh]
    · dsimp only
      rw [← hg, hsum, natAbs_natCast, hh]

theorem num_den_mul_natCast {q : ℚ} {a : ℕ} (ha : q.num = a) (v : ℕ) :
    (q * (v : ℤ)).num = (a * (v / v.gcd q.den) : ℕ) ∧ (q * (v : ℤ)).den = q.den / v.gcd q.den := by
  have hmul : q * ((v : ℤ) : ℚ) = Rat.mul q (v : ℤ) := rfl
  rw [hmul, Rat.mul]
  simp [divExact_eq_ediv, Nat.divExact_eq_div, ha]

def TermsFit (q : ℚ) : Prop := q.num ≤ maxValue 32 ∧ (q.den : ℤ) ≤ maxValue 32

instance (q : ℚ) : Decidable (TermsFit q) := inferInstanceAs (Decidable (_ ∧ _))

namespace CheckedFraction

def ofRat (q : ℚ) : CheckedFraction := ⟨q.num, q.den⟩

/-- The result of an operation whose exact result is given. -/
def Exact (q : ℚ) (result : Except WeightError CheckedFraction) : Prop :=
  TermsFit q ∧ result = .ok (ofRat q) ∨ ¬ TermsFit q ∧ result = .error .excessive

theorem checkedMul_natCast (m n : ℕ) : checkedMul m n =
    if ((m * n : ℕ) : ℤ) ≤ maxValue 32 then .ok ((m * n : ℕ) : ℤ) else .error .excessive := by
  rw [checkedMul, MachineInt.mul, ← Nat.cast_mul]
  split_ifs with h
  · rw [fit_natCast 32 h, orFail]
  · rw [fit_natCast_of_lt 32 (not_le.1 h), orFail]

theorem checkedAdd_natCast (m n : ℕ) : checkedAdd m n =
    if ((m + n : ℕ) : ℤ) ≤ maxValue 32 then .ok ((m + n : ℕ) : ℤ) else .error .excessive := by
  rw [checkedAdd, MachineInt.add, ← Nat.cast_add]
  split_ifs with h
  · rw [fit_natCast 32 h, orFail]
  · rw [fit_natCast_of_lt 32 (not_le.1 h), orFail]

theorem tryFrom_natCast (m : ℕ) :
    tryFrom m = if (m : ℤ) ≤ maxValue 32 then .ok (m : ℤ) else .error .excessive := by
  rw [tryFrom]
  split_ifs with h
  · rw [fit_natCast 32 h, orFail]
  · rw [fit_natCast_of_lt 32 (not_le.1 h), orFail]

@[simp] theorem orFail_some (error : WeightError) (z : ℤ) : orFail error (some z) = .ok z := rfl

theorem new_of_coprime {n d : ℕ} (hd : 0 < d) (hcoprime : n.Coprime d) (hn : (n : ℤ) ≤ maxValue 32)
    (hdlt : (d : ℤ) ≤ maxValue 32) : new n d = .ok ⟨n, d⟩ := by
  have hgcd : gcd 32 n d = some ((1 : ℕ) : ℤ) := by
    rw [gcd_natCast 32 hn hdlt, hcoprime]
  have hdiv {m : ℕ} (hm : (m : ℤ) ≤ maxValue 32) :
      MachineInt.div 32 m ((1 : ℕ) : ℤ) = some (m : ℤ) := by
    rw [div_natCast 32 hm one_ne_zero, Nat.div_one]
  have hcheck : ¬ ((n : ℤ) < 0 ∨ (d : ℤ) ≤ 0) := by omega
  rw [new, if_neg hcheck, hgcd]
  simp only [orFail_some, ok_bind, hdiv hn, hdiv hdlt]
  rfl

section Add

variable {a b d e : ℕ}

theorem add_of_coprime (ha : a ≠ 0) (hb : b ≠ 0) (hd : (d : ℤ) ≤ maxValue 32)
    (he : (e : ℤ) ≤ maxValue 32) (hcoprime : d.Coprime e) :
    add ⟨a, d⟩ ⟨b, e⟩ =
      if ((a * e + b * d : ℕ) : ℤ) ≤ maxValue 32 ∧ ((d * e : ℕ) : ℤ) ≤ maxValue 32 then
        .ok ⟨(a * e + b * d : ℕ), (d * e : ℕ)⟩
      else .error .excessive := by
  have hgcd : gcd 32 d e = some 1 := by
    rw [gcd_natCast 32 hd he, hcoprime, Nat.cast_one]
  rw [add, if_neg (natCast_ne_zero.2 ha), if_neg (natCast_ne_zero.2 hb)]
  simp only [hgcd, orFail_some, ok_bind, if_true, checkedMul_natCast]
  by_cases hsum : ((a * e + b * d : ℕ) : ℤ) ≤ maxValue 32
  · rw [if_pos ((ofNat_le.2 (Nat.le_add_right _ _)).trans hsum),
      if_pos ((ofNat_le.2 (Nat.le_add_left _ _)).trans hsum)]
    simp only [ok_bind, checkedAdd_natCast, if_pos hsum]
    by_cases hden : ((d * e : ℕ) : ℤ) ≤ maxValue 32
    · rw [if_pos hden, if_pos ⟨hsum, hden⟩]
      rfl
    · rw [if_neg hden, if_neg fun h => hden h.2]
      rfl
  · rw [if_neg fun h : _ ∧ _ => hsum h.1]
    split_ifs <;> simp only [ok_bind, Except.error_bind, checkedAdd_natCast, if_neg hsum]

theorem add_of_gcd {g t h : ℕ} (ha : a ≠ 0) (hb : b ≠ 0) (hale : (a : ℤ) ≤ maxValue 32)
    (hble : (b : ℤ) ≤ maxValue 32) (hd : (d : ℤ) ≤ maxValue 32) (he : (e : ℤ) ≤ maxValue 32)
    (hg : g = d.gcd e) (hgone : g ≠ 1) (hdpos : 0 < d) (ht : t = a * (e / g) + b * (d / g))
    (hh : h = t.gcd g) :
    add ⟨a, d⟩ ⟨b, e⟩ =
      if ((t / h : ℕ) : ℤ) ≤ maxValue 32 ∧ ((d / g * (e / h) : ℕ) : ℤ) ≤ maxValue 32 then
        .ok ⟨(t / h : ℕ), (d / g * (e / h) : ℕ)⟩
      else .error .excessive := by
  have hgd : g ∣ d := hg ▸ Nat.gcd_dvd_left d e
  have hhg : h ∣ g := hh ▸ Nat.gcd_dvd_right t g
  have hgpos : 0 < g := Nat.pos_of_dvd_of_pos hgd hdpos
  have hhpos : 0 < h := Nat.pos_of_dvd_of_pos hhg hgpos
  have hgle : (g : ℤ) ≤ maxValue 32 := (ofNat_le.2 (Nat.le_of_dvd hdpos hgd)).trans hd
  have hhle : (h : ℤ) ≤ maxValue 32 := (ofNat_le.2 (Nat.le_of_dvd hgpos hhg)).trans hgle
  have hwide : 2 * (maxValue 32 * maxValue 32) ≤ maxValue 64 ∧ maxValue 32 ≤ maxValue 64 := by
    decide
  have hmul {m n k : ℕ} (hm : (m : ℤ) ≤ maxValue 32) (hn : (n : ℤ) ≤ maxValue 32) :
      ((m * (n / k) : ℕ) : ℤ) ≤ maxValue 32 * maxValue 32 := by
    have hdiv : ((n / k : ℕ) : ℤ) ≤ maxValue 32 := (ofNat_le.2 (Nat.div_le_self n k)).trans hn
    rw [Nat.cast_mul]
    exact mul_le_mul hm hdiv (natCast_nonneg _) (MachineInt.maxValue_nonneg 32)
  have hleft : MachineInt.mul 64 a (e / g : ℕ) = some ((a * (e / g) : ℕ) : ℤ) := by
    have hle := @hmul a e g hale he
    rw [MachineInt.mul, ← Nat.cast_mul, fit_natCast 64 (by omega)]
  have hright : MachineInt.mul 64 b (d / g : ℕ) = some ((b * (d / g) : ℕ) : ℤ) := by
    have hle := @hmul b d g hble hd
    rw [MachineInt.mul, ← Nat.cast_mul, fit_natCast 64 (by omega)]
  have htle : (t : ℤ) ≤ maxValue 64 := by
    have hle := @hmul a e g hale he
    have hle' := @hmul b d g hble hd
    omega
  have hsum : MachineInt.add 64 (a * (e / g) : ℕ) (b * (d / g) : ℕ) = some (t : ℤ) := by
    rw [MachineInt.add, ← Nat.cast_add, ← ht, fit_natCast 64 htle]
  have hreduction : gcd 64 (t % g : ℕ) g = some (h : ℤ) := by
    have hlt : t % g < g := Nat.mod_lt t hgpos
    rw [gcd_natCast 64 (by omega) (by omega), ← Nat.gcd_rec, Nat.gcd_comm, ← hh]
  rw [add, if_neg (natCast_ne_zero.2 ha), if_neg (natCast_ne_zero.2 hb)]
  simp only [gcd_natCast 32 hd he, ← hg, orFail_some, ok_bind,
    div_natCast 32 he hgpos.ne', div_natCast 32 hd hgpos.ne', hleft, hright,
    hsum, MachineInt.rem_natCast 64 htle hgpos.ne', hreduction,
    div_natCast 64 htle hhpos.ne', tryFrom_natCast, if_pos hhle,
    div_natCast 32 he hhpos.ne', checkedMul_natCast]
  rw [if_neg (by exact_mod_cast hgone)]
  by_cases hnum : ((t / h : ℕ) : ℤ) ≤ maxValue 32
  · rw [if_pos hnum]
    by_cases hden : ((d / g * (e / h) : ℕ) : ℤ) ≤ maxValue 32
    · rw [if_pos hden, if_pos ⟨hnum, hden⟩]
      rfl
    · rw [if_neg hden, if_neg fun h => hden h.2]
      rfl
  · rw [if_neg hnum, if_neg fun hboth : _ ∧ _ => hnum hboth.1]
    rfl

end Add

section Exact

variable {q r : ℚ}

/-- An operation that returns the terms of its exact result if they fit is exact. -/
theorem exact_of_terms {n d : ℕ} (hn : q.num = n) (hd : q.den = d) :
    Exact q (if (n : ℤ) ≤ maxValue 32 ∧ (d : ℤ) ≤ maxValue 32 then .ok ⟨n, d⟩
      else .error .excessive) := by
  by_cases hfits : (n : ℤ) ≤ maxValue 32 ∧ (d : ℤ) ≤ maxValue 32
  · rw [if_pos hfits, ← hn, ← hd]
    exact .inl ⟨by rwa [TermsFit, hn, hd], rfl⟩
  · rw [if_neg hfits]
    exact .inr ⟨by rwa [TermsFit, hn, hd], rfl⟩

theorem add_exact (hq : 0 ≤ q) (hr : 0 ≤ r) (hfits : TermsFit q) (hfits' : TermsFit r) :
    Exact (q + r) (add (ofRat q) (ofRat r)) := by
  by_cases hzero : q.num = 0
  · rw [Rat.num_eq_zero.1 hzero, zero_add]
    exact .inl ⟨hfits', rfl⟩
  have hself : ¬ (ofRat q).numerator = 0 := hzero
  by_cases hzero' : r.num = 0
  · have hother : (ofRat r).numerator = 0 := hzero'
    rw [add, if_neg hself, if_pos hother, Rat.num_eq_zero.1 hzero', add_zero]
    exact .inl ⟨hfits, rfl⟩
  obtain ⟨a, ha⟩ := eq_ofNat_of_zero_le (Rat.num_nonneg.2 hq)
  obtain ⟨b, hb⟩ := eq_ofNat_of_zero_le (Rat.num_nonneg.2 hr)
  rw [TermsFit, ha] at hfits
  rw [TermsFit, hb] at hfits'
  rw [ha, natCast_eq_zero] at hzero
  rw [hb, natCast_eq_zero] at hzero'
  rw [ofRat, ofRat, ha, hb]
  obtain ⟨hnum, hden⟩ := num_den_add ha hb rfl rfl rfl
  by_cases hcoprime : q.den.gcd r.den = 1
  · rw [add_of_coprime hzero hzero' hfits.2 hfits'.2 hcoprime]
    simp only [hcoprime, Nat.gcd_one_right, Nat.div_one] at hnum hden
    exact exact_of_terms hnum hden
  · rw [add_of_gcd hzero hzero' hfits.1 hfits'.1 hfits.2 hfits'.2 rfl hcoprime q.den_pos rfl rfl]
    exact exact_of_terms hnum hden

theorem multiply_exact (hq : 0 ≤ q) (hfits : TermsFit q) {value : ℤ} (hvalue : 0 ≤ value)
    (hle : value ≤ maxValue 32) : Exact (q * value) (multiply (ofRat q) value) := by
  obtain ⟨a, ha⟩ := eq_ofNat_of_zero_le (Rat.num_nonneg.2 hq)
  obtain ⟨v, rfl⟩ := eq_ofNat_of_zero_le hvalue
  rw [multiply, if_neg (not_lt.2 hvalue)]
  by_cases hzero : q.num = 0 ∨ (v : ℤ) = 0
  · have hself : (ofRat q).numerator = 0 ∨ (v : ℤ) = 0 := hzero
    have hproduct : q * (v : ℤ) = 0 := by
      rcases hzero with hzero | hzero
      · rw [Rat.num_eq_zero.1 hzero, zero_mul]
      · rw [hzero, cast_zero, mul_zero]
    rw [if_pos hself, hproduct]
    exact .inl ⟨by decide, rfl⟩
  · have hself : ¬ ((ofRat q).numerator = 0 ∨ (v : ℤ) = 0) := hzero
    obtain ⟨hnum, hden⟩ := num_den_mul_natCast ha v
    have hgpos : v.gcd q.den ≠ 0 := (Nat.gcd_pos_of_pos_right v q.den_pos).ne'
    rw [if_neg hself]
    simp only [ofRat, ha, gcd_natCast 32 hle hfits.2, orFail_some, ok_bind,
      div_natCast 32 hle hgpos, div_natCast 32 hfits.2 hgpos,
      checkedMul_natCast]
    rw [← hnum, ← hden]
    have hdenle : ((q * (v : ℤ)).den : ℤ) ≤ maxValue 32 := by
      rw [hden]
      exact (ofNat_le.2 (Nat.div_le_self _ _)).trans hfits.2
    by_cases hnumle : (q * (v : ℤ)).num ≤ maxValue 32
    · have hcoprime := (q * (v : ℤ)).reduced
      rw [if_pos hnumle, hnum]
      rw [hnum] at hnumle
      rw [hnum, natAbs_natCast] at hcoprime
      refine .inl ⟨⟨hnum ▸ hnumle, hdenle⟩, ?_⟩
      rw [ok_bind, new_of_coprime (q * (v : ℤ)).den_pos hcoprime hnumle hdenle, ofRat, hnum]
    · rw [if_neg hnumle]
      exact .inr ⟨fun h => hnumle h.1, rfl⟩

end Exact

end CheckedFraction

open Int
open CheckedFraction (ofRat)

variable {Occupant : Type}

mutual

def weightOf : List (ItemStackTemplate Occupant) → ℚ
  | [] => 0
  | item :: items => itemWeight item * item.count.toInt + weightOf items

def itemWeight : ItemStackTemplate Occupant → ℚ
  | .mk (some items) _ _ _ => weightOf items + 1 / 16
  | .mk none bees maxStackSize count =>
    let item : ItemStackTemplate Occupant := .mk none bees maxStackSize count
    if item.hasBees then 1 else 1 / item.maxStackSize.toInt

end

mutual

/-- In the order of the list, the weight of an item, its multiple or a partial sum does not fit, or
a count or a stack size is out of range. -/
def Overruns (sum : ℚ) : List (ItemStackTemplate Occupant) → Prop
  | [] => False
  | item :: items =>
    ItemOverruns item ∨ item.count.toInt < 0 ∨ ¬ TermsFit (itemWeight item * item.count.toInt) ∨
      ¬ TermsFit (sum + itemWeight item * item.count.toInt) ∨
      Overruns (sum + itemWeight item * item.count.toInt) items

def ItemOverruns : ItemStackTemplate Occupant → Prop
  | .mk (some items) _ _ _ => Overruns 0 items ∨ ¬ TermsFit (weightOf items + 1 / 16)
  | .mk none bees maxStackSize count =>
    let item : ItemStackTemplate Occupant := .mk none bees maxStackSize count
    item.hasBees = false ∧ item.maxStackSize.toInt ≤ 0

end

/-- A computation returns a weight in lowest terms, or an error in one case, and does not panic. -/
def Settles (q : ℚ) (refused : Prop) (result : Except WeightError CheckedFraction) : Prop :=
  (¬ refused ∧ 0 ≤ q ∧ TermsFit q ∧ result = .ok (ofRat q)) ∨
    refused ∧ ∃ error, error ≠ .panic ∧ result = .error error

variable {result : Except WeightError CheckedFraction}

theorem Settles.ofExact {q : ℚ} (hq : 0 ≤ q)
    (h : CheckedFraction.Exact q result) : Settles q (¬ TermsFit q) result := by
  rcases h with ⟨hfits, hresult⟩ | ⟨hnot, hresult⟩
  · exact .inl ⟨not_not.2 hfits, hq, hfits, hresult⟩
  · exact .inr ⟨hnot, .excessive, nofun, hresult⟩

/-- A computation with a weight that settles comes to what the rest comes to, unless the weight is
refused already. -/
theorem Settles.bind {q r : ℚ} {refused refused' : Prop}
    {f : CheckedFraction → Except WeightError CheckedFraction} (h : Settles q refused result)
    (hf : 0 ≤ q → TermsFit q → Settles r refused' (f (ofRat q))) :
    Settles r (refused ∨ refused') (result >>= f) := by
  rcases h with ⟨haccept, hq, hfits, rfl⟩ | ⟨hrefused, error, hne, rfl⟩
  · rcases hf hq hfits with ⟨haccept', hr, hfits', hresult⟩ | ⟨hrefused', error, hne, hresult⟩
    · exact .inl ⟨not_or.2 ⟨haccept, haccept'⟩, hr, hfits', hresult⟩
    · exact .inr ⟨.inr hrefused', error, hne, hresult⟩
  · exact .inr ⟨.inl hrefused, error, hne, rfl⟩

theorem multiply_settles {q : ℚ} (hq : 0 ≤ q) (hfits : TermsFit q) (count : Int32) :
    Settles (q * count.toInt) (count.toInt < 0 ∨ ¬ TermsFit (q * count.toInt))
      ((ofRat q).multiply count.toInt) := by
  by_cases hcount : count.toInt < 0
  · refine .inr ⟨.inl hcount, .invalidCount, nofun, ?_⟩
    rw [CheckedFraction.multiply, if_pos hcount]
    rfl
  · have hle : count.toInt ≤ MachineInt.maxValue 32 := le_sub_one_of_lt count.toInt_lt
    have hnonneg : (0 : ℚ) ≤ count.toInt := cast_nonneg (not_lt.1 hcount)
    have hexact := CheckedFraction.multiply_exact hq hfits (not_lt.1 hcount) hle
    rcases Settles.ofExact (mul_nonneg hq hnonneg) hexact with ⟨haccept, hrest⟩ | ⟨hrefused, hrest⟩
    · exact .inl ⟨not_or.2 ⟨hcount, haccept⟩, hrest⟩
    · exact .inr ⟨.inr hrefused, hrest⟩

theorem new_one_settles {d : ℤ} (hd : d ≤ MachineInt.maxValue 32) :
    Settles (1 / d) (d ≤ 0) (CheckedFraction.new 1 d) := by
  by_cases hnonpos : d ≤ 0
  · refine .inr ⟨hnonpos, .invalidFraction, nofun, ?_⟩
    rw [CheckedFraction.new, if_pos (.inr hnonpos)]
    rfl
  · obtain ⟨n, rfl⟩ := eq_ofNat_of_zero_le (not_le.1 hnonpos).le
    have hpos : 0 < n := natCast_pos.1 (not_le.1 hnonpos)
    have hterms : (1 / ((n : ℤ) : ℚ)).num = 1 ∧ ((1 / ((n : ℤ) : ℚ)).den : ℤ) = n := by
      have hcoprime : Nat.Coprime (1 : ℤ).natAbs (n : ℤ).natAbs := Nat.coprime_one_left _
      have hnum := Rat.num_div_eq_of_coprime (not_le.1 hnonpos) hcoprime
      have hden := Rat.den_div_eq_of_coprime (not_le.1 hnonpos) hcoprime
      rw [cast_one] at hnum hden
      exact ⟨hnum, hden⟩
    have hone : ((1 : ℕ) : ℤ) ≤ MachineInt.maxValue 32 := by decide
    have hnonneg : (0 : ℚ) ≤ 1 / ((n : ℤ) : ℚ) := by
      rw [cast_natCast]
      exact one_div_nonneg.2 (Nat.cast_nonneg n)
    have hfits : TermsFit (1 / ((n : ℤ) : ℚ)) := by
      rw [TermsFit, hterms.1, hterms.2]
      exact ⟨hone, hd⟩
    refine .inl ⟨hnonpos, hnonneg, hfits, ?_⟩
    rw [ofRat, hterms.1, hterms.2]
    exact CheckedFraction.new_of_coprime hpos (Nat.coprime_one_left n) hone hd

mutual

theorem computeWeightFrom_settles {sum : ℚ} (hsum : 0 ≤ sum) (hfits : TermsFit sum) :
    ∀ items : List (ItemStackTemplate Occupant),
      Settles (sum + weightOf items) (Overruns sum items) (computeWeightFrom (ofRat sum) items)
  | [] => by
    rw [weightOf, add_zero]
    exact .inl ⟨id, hsum, hfits, rfl⟩
  | item :: items => by
    rw [weightOf, Overruns, computeWeightFrom, ← add_assoc]
    refine (bundleItemWeight_settles item).bind fun hweight hweightFits => ?_
    rw [← or_assoc]
    refine (multiply_settles hweight hweightFits item.count).bind fun hproduct hproductFits => ?_
    have hadd := CheckedFraction.add_exact hsum hproduct hfits hproductFits
    refine (Settles.ofExact (add_nonneg hsum hproduct) hadd).bind fun hsum' hfits' => ?_
    exact computeWeightFrom_settles hsum' hfits' items

theorem bundleItemWeight_settles : ∀ item : ItemStackTemplate Occupant,
    Settles (itemWeight item) (ItemOverruns item) (bundleItemWeight item)
  | .mk (some items) _ _ _ => by
    rw [itemWeight, ItemOverruns, bundleItemWeight]
    have hzero := computeWeightFrom_settles (le_refl 0) (by decide) items
    rw [zero_add] at hzero
    refine hzero.bind fun hweight hfits => ?_
    have hsixteenth := new_one_settles (d := 16) (by decide)
    rcases hsixteenth with ⟨-, hnonneg, hfits', hresult⟩ | ⟨hrefused, -⟩
    · rw [hresult]
      exact Settles.ofExact (add_nonneg hweight hnonneg)
        (CheckedFraction.add_exact hweight hnonneg hfits hfits')
    · exact absurd hrefused (by decide)
  | .mk none bees maxStackSize count => by
    rw [itemWeight, ItemOverruns, bundleItemWeight]
    by_cases hbees : (ItemStackTemplate.mk none bees maxStackSize count).hasBees = true
    · rw [if_pos hbees, if_pos hbees, hbees]
      refine .inl ⟨fun h => ?_, zero_le_one, by decide, rfl⟩
      cases h.1
    · rw [if_neg hbees, if_neg hbees, and_iff_right (Bool.not_eq_true _ ▸ hbees)]
      exact new_one_settles (le_sub_one_of_lt (Int32.toInt_lt _))

end

/-- The weight of a bundle is the exact sum in lowest terms, or one of the numbers on the way to it
does not fit. No operation overflows, divides by zero or fails to come to an end. -/
theorem computeWeight_exact (bundle : BundleContents Occupant) : match bundle.computeWeight with
    | .ok weight =>
      ¬ Overruns 0 bundle.items ∧ 0 ≤ weight.numerator ∧ 0 < weight.denominator ∧
        Int.gcd weight.numerator weight.denominator = 1 ∧
        (weight.numerator : ℚ) / weight.denominator = weightOf bundle.items
    | .error error => Overruns 0 bundle.items ∧ error ≠ .panic := by
  have hsettles := computeWeightFrom_settles (le_refl 0) (by decide) bundle.items
  rw [zero_add] at hsettles
  rcases hsettles with ⟨haccept, hnonneg, -, hresult⟩ | ⟨hrefused, error, hne, hresult⟩
  · have hweight : bundle.computeWeight = .ok (ofRat (weightOf bundle.items)) := hresult
    rw [hweight]
    refine ⟨haccept, Rat.num_nonneg.2 hnonneg, natCast_pos.2 (Rat.den_pos _), ?_, ?_⟩
    · exact (weightOf bundle.items).reduced
    · exact Rat.num_div_den _
  · have hweight : bundle.computeWeight = .error error := hresult
    rw [hweight]
    exact ⟨hrefused, hne⟩

end Steel
