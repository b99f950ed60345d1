import Mathlib.Algebra.BigOperators.Group.Finset.Sigma
import Mathlib.Data.BitVec
import Mathlib.NumberTheory.Multiplicity
import Mathlib.Order.Interval.Finset.Nat
import Mathlib.Tactic.Ring

/-! # The legacy generator

A step is an affine map modulo `2 ^ 48`. Jumping ahead composes steps by repeated squaring.
-/

namespace Steel

open Finset (card card_range mem_filter mem_range)

open Int BitVec Function Option

def LCG_A : BitVec 64 := 0x0005DEECE66D

def LCG_C : BitVec 64 := 0xB

def LCG_MASK : BitVec 64 := 0xFFFFFFFFFFFF

@[ext]
structure LegacyRandom where
  seed : BitVec 64

namespace LegacyRandom

variable (r : LegacyRandom)

def nextRandom : BitVec 64 × LegacyRandom :=
  let m := (r.seed * LCG_A + LCG_C) &&& LCG_MASK
  (m, ⟨m⟩)

/-- The answer is an `i32`. -/
def next (bits : ℕ) : ℤ × LegacyRandom :=
  let (m, r) := r.nextRandom
  (((m.sshiftRight (48 - bits)).setWidth 32).toInt, r)

def nextI32 : ℤ × LegacyRandom := r.next 32

/-- The affine map of a multiplier and an increment. -/
structure Affine (R : Type) where
  a : R
  c : R

def Affine.apply {R : Type} [Mul R] [Add R] (t : Affine R) (s : R) : R := t.a * s + t.c

/-- `base ∘ acc` in 48 bits -/
def compose (base acc : Affine (BitVec 64)) : Affine (BitVec 64) :=
  ⟨base.a * acc.a &&& LCG_MASK, (base.a * acc.c + base.c) &&& LCG_MASK⟩

def skipLoop (acc base : Affine (BitVec 64)) (k : ℕ) : Affine (BitVec 64) :=
  if h : 0 < k then
    skipLoop (if k % 2 = 1 then compose base acc else acc) (compose base base) (k / 2)
  else acc
termination_by k

def skip (count : ℕ) : LegacyRandom :=
  ⟨(skipLoop ⟨1, 0⟩ ⟨LCG_A, LCG_C⟩ count).apply r.seed &&& LCG_MASK⟩

def consumeCount (count : ℤ) : LegacyRandom :=
  if 0 < count then r.skip count.toNat else r

variable {r : LegacyRandom} {acc base : Affine (BitVec 64)} {x y : BitVec 64}

/-- The 48 bits that a state stands for. -/
def low (x : BitVec 64) : BitVec 48 := x.setWidth 48

theorem and_mask (x : BitVec 64) : x &&& LCG_MASK = (low x).setWidth 64 := by
  apply eq_of_toNat_eq
  have hmask : LCG_MASK.toNat = 2 ^ 48 - 1 := rfl
  rw [toNat_and, hmask, Nat.and_two_pow_sub_one_eq_mod, low, toNat_setWidth,
    toNat_setWidth]
  omega

@[simp] theorem low_and_mask (x : BitVec 64) : low (x &&& LCG_MASK) = low x := by
  rw [and_mask, low, setWidth_setWidth_of_le _ (by decide), setWidth_eq]

@[simp] theorem low_add (x y : BitVec 64) : low (x + y) = low x + low y :=
  setWidth_add x y (by decide)

@[simp] theorem low_mul (x y : BitVec 64) : low (x * y) = low x * low y :=
  setWidth_mul x y (by decide)

def Affine.low (t : Affine (BitVec 64)) : Affine (BitVec 48) :=
  ⟨LegacyRandom.low t.a, LegacyRandom.low t.c⟩

theorem low_apply (t : Affine (BitVec 64)) (x : BitVec 64) :
    low (t.apply x) = t.low.apply (low x) := by
  rw [Affine.apply, low_add, low_mul]
  rfl

variable (s : BitVec 48)

theorem apply_low_compose : (compose base acc).low.apply s = base.low.apply (acc.low.apply s) := by
  simp only [compose, Affine.low, Affine.apply, low_and_mask, low_add, low_mul]
  ring

/-- The accumulator is composed with as many steps of the base as are left. -/
theorem apply_low_skipLoop (k : ℕ) (s : BitVec 48) :
    (skipLoop acc base k).low.apply s = (base.low.apply)^[k] (acc.low.apply s) := by
  induction acc, base, k using skipLoop.induct generalizing s with
  | case1 acc base k hpos ih =>
    have hsquare : (compose base base).low.apply = (base.low.apply)^[2] :=
      funext fun _ => apply_low_compose _
    simp only [dite_eq_ite] at ih
    rw [skipLoop, dif_pos hpos, ih, hsquare, ← iterate_mul]
    split_ifs with hodd
    · rw [apply_low_compose, ← iterate_succ_apply]
      congr 2
      omega
    · congr 2
      omega
  | case2 acc base k hzero =>
    obtain rfl : k = 0 := by omega
    rw [skipLoop, dif_neg hzero]
    rfl

/-- One step on the 48 bits. -/
def step : BitVec 48 → BitVec 48 := Affine.apply ⟨low LCG_A, low LCG_C⟩

theorem seed_skip (count : ℕ) : (r.skip count).seed = (step^[count] (low r.seed)).setWidth 64 := by
  have hidentity : (⟨1, 0⟩ : Affine (BitVec 64)).low.apply (low r.seed) = low r.seed := by
    simp [Affine.apply, Affine.low, low]
  rw [skip, and_mask, low_apply, apply_low_skipLoop, hidentity]
  rfl

theorem seed_nextI32 : r.nextI32.2.seed = (step (low r.seed)).setWidth 64 := by
  show (r.seed * LCG_A + LCG_C) &&& LCG_MASK = _
  rw [and_mask, low_add, low_mul, mul_comm]
  rfl

theorem low_setWidth : low (s.setWidth 64) = s := by
  rw [low, setWidth_setWidth_of_le _ (by decide), setWidth_eq]

theorem iterate_nextI32 (n : ℕ) :
    (fun r : LegacyRandom => r.nextI32.2)^[n + 1] r = r.skip (n + 1) := by
  induction n with
  | zero => exact LegacyRandom.ext (seed_nextI32.trans (seed_skip 1).symm)
  | succ n ih =>
    rw [iterate_succ_apply', ih]
    ext1
    rw [seed_nextI32, seed_skip, seed_skip, low_setWidth, ← iterate_succ_apply' step]

theorem consumeCount_eq_iterate (r : LegacyRandom) (count : ℤ) (m n : ℕ) :
    r.consumeCount count = (fun r : LegacyRandom => r.nextI32.2)^[(max count 0).toNat] r ∧
      (r.skip m).skip n = r.skip (m + n) := by
  constructor
  · rw [consumeCount]
    split_ifs with hpos
    · obtain ⟨k, hk⟩ : ∃ k, count.toNat = k + 1 := ⟨count.toNat - 1, by omega⟩
      rw [max_eq_left hpos.le, hk, iterate_nextI32]
    · rw [max_eq_right (not_lt.mp hpos)]
      rfl
  · ext1
    rw [seed_skip, seed_skip, seed_skip, low_setWidth, ← iterate_add_apply, Nat.add_comm]

/-- The states as numbers, without reduction. -/
def unreduced (s : ℕ) : ℕ → ℤ
  | 0 => s
  | n + 1 => 0x5DEECE66D * unreduced s n + 0xB

theorem toNat_iterate_step (n : ℕ) :
    ((step^[n] s).toNat : ℤ) ≡ unreduced s.toNat n [ZMOD 2 ^ 48] := by
  induction n with
  | zero => rfl
  | succ n ih =>
    rw [iterate_succ_apply', step, Affine.apply, BitVec.toNat_add, BitVec.toNat_mul]
    push_cast
    rw [unreduced]
    exact (mod_modEq _ _).trans (((mod_modEq _ _).trans (ih.mul_left _)).add_right _)

theorem unreduced_sub (s n : ℕ) : 0x5DEECE66C * (unreduced s n - s) =
    (0x5DEECE66D ^ n - 1 ^ n) * (0x5DEECE66C * s + 0xB) := by
  induction n with
  | zero => simp [unreduced]
  | succ n ih =>
    rw [one_pow] at ih ⊢
    rw [unreduced, pow_succ]
    linarith

theorem two_pow_dvd_unreduced (s n : ℕ) :
    (2 : ℤ) ^ 48 ∣ unreduced s n - s ↔ 2 ^ 48 ∣ n := by
  have hodd : ¬(2 : ℤ) ∣ 0x5DEECE66C * s + 0xB := by omega
  have hfour : emultiplicity (2 : ℤ) 0x5DEECE66C = (2 : ℕ) :=
    emultiplicity_eq_coe.mpr (by decide)
  have hpow : emultiplicity (2 : ℤ) (0x5DEECE66D ^ n - 1 ^ n) =
      (2 : ℕ) + emultiplicity (2 : ℤ) n :=
    hfour ▸ two_pow_sub_pow' n (by decide) (by decide)
  have h := congrArg (emultiplicity (2 : ℤ)) (unreduced_sub s n)
  rw [emultiplicity_mul prime_two, emultiplicity_mul prime_two, hpow,
    emultiplicity_eq_zero.mpr hodd, add_zero, hfour] at h
  rw [pow_dvd_iff_le_emultiplicity, ENat.add_right_injective_of_ne_top (ENat.natCast_ne_top 2) h,
    ← pow_dvd_iff_le_emultiplicity]
  exact_mod_cast Iff.rfl

/-- The generator passes through all seeds of 48 bits before it repeats one. -/
theorem iterate_nextI32_eq_iff (s : BitVec 48) (n : ℕ) :
    (fun r : LegacyRandom => r.nextI32.2)^[n] ⟨s.setWidth 64⟩ = ⟨s.setWidth 64⟩ ↔ 2 ^ 48 ∣ n := by
  rw [← two_pow_dvd_unreduced s.toNat]
  have hmod := toNat_iterate_step s n
  have hseed : (fun r : LegacyRandom => r.nextI32.2)^[n] ⟨s.setWidth 64⟩ =
      ⟨(step^[n] s).setWidth 64⟩ := by
    cases n with
    | zero => rfl
    | succ n =>
      rw [iterate_nextI32]
      ext1
      rw [seed_skip, low_setWidth]
  rw [hseed, ← modEq_iff_dvd, LegacyRandom.mk.injEq]
  constructor
  · intro h
    rw [← low_setWidth (step^[n] s), h, low_setWidth] at hmod
    exact hmod
  · intro h
    have heq : ((step^[n] s).toNat : ℤ) ≡ s.toNat [ZMOD 2 ^ 48] := hmod.trans h.symm
    rw [eq_of_toNat_eq (Nat.ModEq.eq_of_lt_of_lt
      (natCast_modEq_iff.mp (by exact_mod_cast heq)) (step^[n] s).isLt s.isLt)]

end LegacyRandom

def wrapI32 (x : ℤ) : ℤ := x.bmod (2 ^ 32)

def wrapI64 (x : ℤ) : ℤ := x.bmod (2 ^ 64)

/-- The loop over raw words, until one is accepted. -/
def firstAccepted {S : Type} (next : S → ℤ × S) (accept : ℤ → Option ℤ) : ℕ → S → Option (ℤ × S)
  | 0, _ => none
  | fuel + 1, s =>
    match accept (next s).1 with
    | some value => some (value, (next s).2)
    | none => firstAccepted next accept fuel (next s).2

namespace LegacyRandom

/-- One pass of the loop. -/
def pass (bound word : ℤ) : Option ℤ :=
  let j := word.tmod bound
  if 0 ≤ wrapI32 (wrapI32 (word - j) + wrapI32 (bound - 1)) then some j else none

def isPowerOfTwo (bound : ℤ) : Bool :=
  BitVec.ofInt 32 bound &&& BitVec.ofInt 32 (wrapI32 (bound - 1)) = 0

def scaled (bound word : ℤ) : ℤ := wrapI32 (wrapI64 (bound * word) >>> (31 : ℕ))

def nextI32Bounded (bound : ℤ) (fuel : ℕ) (r : LegacyRandom) : Option (ℤ × LegacyRandom) :=
  if isPowerOfTwo bound then
    let (i, r) := r.next 31
    some (scaled bound i, r)
  else firstAccepted (·.next 31) (pass bound) fuel r

end LegacyRandom

structure Xoroshiro where
  seedLo : BitVec 64
  seedHi : BitVec 64

namespace Xoroshiro

variable (x : Xoroshiro)

def nextRandom : BitVec 64 × Xoroshiro :=
  let l := x.seedLo
  let m := x.seedHi
  let n := (l + m).rotateLeft 17 + l
  let m := m ^^^ l
  (n, ⟨l.rotateLeft 49 ^^^ m ^^^ (m <<< 21), m.rotateLeft 28⟩)

def nextI32 : ℤ × Xoroshiro :=
  let (n, x) := x.nextRandom
  ((n.setWidth 32).toInt, x)

/-- `(self.next_i32() as u64) & 0xFFFF_FFFF` -/
def nextWord : ℤ × Xoroshiro :=
  let (i, x) := x.nextI32
  ((i % 2 ^ 64) % 2 ^ 32, x)

/-- Products are those of `u64`. -/
def product (bound word : ℤ) : ℤ := word * bound % 2 ^ 64

/-- Unsigned negation, modulo the bound -/
def threshold (bound : ℤ) : ℤ := ((2 ^ 32 - 1 - bound) % 2 ^ 32 + 1) % 2 ^ 32 % (bound % 2 ^ 32)

def redraw (bound i : ℤ) : ℕ → ℤ → Xoroshiro → Option (ℤ × Xoroshiro)
  | fuel, m, x =>
    if m % 2 ^ 32 < i then
      match fuel with
      | 0 => none
      | fuel + 1 =>
        let (l, x) := x.nextWord
        redraw bound i fuel (product bound l) x
    else some (wrapI32 (m >>> (32 : ℕ)), x)

def nextI32Bounded (bound : ℤ) (fuel : ℕ) (x : Xoroshiro) : Option (ℤ × Xoroshiro) :=
  let (l, x) := x.nextWord
  let m := product bound l
  if m % 2 ^ 32 < bound % 2 ^ 64 then redraw bound (threshold bound) fuel m x
  else some (wrapI32 (m >>> (32 : ℕ)), x)

end Xoroshiro

/-- Every value below the bound has the same number of words. -/
structure Unbiased (words bound : ℕ) (accept : ℤ → Option ℤ) : Prop where
  range : ∀ w < words, ∀ v, accept (w : ℤ) = some v → 0 ≤ v ∧ v < bound
  count : ∀ v < bound,
    ((Finset.range words).filter fun w : ℕ => accept w = some (v : ℤ)).card = words / bound
  majority : words < 2 * ((Finset.range words).filter fun w : ℕ => (accept w).isSome).card

section Counting

variable {words bound : ℕ} {accept : ℤ → Option ℤ}

theorem Unbiased.of_count (hpos : 0 < bound) (hle : bound ≤ words)
    (hrange : ∀ w < words, ∀ v, accept (w : ℤ) = some v → 0 ≤ v ∧ v < bound)
    (hcount : ∀ v < bound, ((Finset.range words).filter fun w : ℕ =>
      accept w = some (v : ℤ)).card = words / bound) : Unbiased words bound accept := by
  refine ⟨hrange, hcount, ?_⟩
  have hmaps : ∀ w ∈ (Finset.range words).filter fun w : ℕ => (accept w).isSome,
      ((accept w).getD 0).toNat ∈ Finset.range bound := by
    intro w hw
    obtain ⟨hw, haccept⟩ := mem_filter.mp hw
    obtain ⟨v, hv⟩ := isSome_iff_exists.mp haccept
    have hbounds := hrange w (mem_range.mp hw) v hv
    rw [hv, getD_some, mem_range]
    omega
  have hfiber : ∀ v ∈ Finset.range bound,
      (((Finset.range words).filter fun w : ℕ => (accept w).isSome).filter fun w : ℕ =>
        ((accept w).getD 0).toNat = v).card = words / bound := by
    intro v hv
    rw [← hcount v (mem_range.mp hv), Finset.filter_filter]
    refine congrArg card (Finset.filter_congr fun w hw => ?_)
    cases haccept : accept w with
    | none => simp
    | some u =>
      have hbounds := hrange w (mem_range.mp hw) u haccept
      simp only [isSome_some, getD_some, true_and, Option.some.injEq]
      omega
  rw [Finset.card_eq_sum_card_fiberwise hmaps, Finset.sum_const_nat hfiber, card_range]
  have hdiv := Nat.div_add_mod words bound
  have hmod := Nat.mod_lt words hpos
  have hone := Nat.mul_le_mul_left bound (Nat.div_pos hle hpos)
  omega

theorem card_filter_interval {P : ℕ → Prop} [DecidablePred P] {n : ℕ} (start : ℕ)
    (hend : start + n ≤ words) (h : ∀ w < words, P w ↔ start ≤ w ∧ w < start + n) :
    ((Finset.range words).filter P).card = n := by
  have heq : (Finset.range words).filter P = Finset.Ico start (start + n) := by
    ext w
    rw [mem_filter, mem_range, Finset.mem_Ico]
    constructor
    · rintro ⟨hw, hP⟩
      exact (h w hw).mp hP
    · intro hw
      exact ⟨by omega, (h w (by omega)).mpr hw⟩
  rw [heq, Nat.card_Ico, Nat.add_sub_cancel_left]

end Counting

theorem wrapI32_eq {x : ℤ} (h : -2 ^ 31 ≤ x) (h' : x < 2 ^ 31) : wrapI32 x = x := by
  rw [wrapI32, bmod_def]
  split_ifs <;> omega

theorem wrapI64_eq {x : ℤ} (h : -2 ^ 63 ≤ x) (h' : x < 2 ^ 63) : wrapI64 x = x := by
  rw [wrapI64, bmod_def]
  split_ifs <;> omega

variable {bound word : ℤ} (hpos : 0 < bound) (hlt : bound < 2 ^ 31)

section Legacy

variable (hword : 0 ≤ word) (hword' : word < 2 ^ 31)

include hpos hword

theorem tmod_bounds : 0 ≤ word.tmod bound ∧ word.tmod bound < bound ∧ word.tmod bound ≤ word := by
  rw [tmod_eq_emod_of_nonneg hword]
  refine ⟨emod_nonneg _ hpos.ne', emod_lt_of_pos _ hpos, ?_⟩
  rcases lt_or_ge word bound with hless | hge
  · exact (emod_eq_of_lt hword hless).le
  · exact (emod_lt_of_pos _ hpos).le.trans hge

include hlt hword'

/-- Only the last sum may wrap, and its sign tells whether it does. -/
theorem pass_eq : LegacyRandom.pass bound word =
    if word - word.tmod bound + (bound - 1) < 2 ^ 31 then some (word.tmod bound) else none := by
  obtain ⟨hnonneg, hless, hle⟩ := tmod_bounds hpos hword
  have hsum : 0 ≤ wrapI32 (word - word.tmod bound + (bound - 1)) ↔
      word - word.tmod bound + (bound - 1) < 2 ^ 31 := by
    rw [wrapI32, bmod_def]
    split_ifs <;> omega
  have hdifference : wrapI32 (word - word.tmod bound) = word - word.tmod bound :=
    wrapI32_eq (by omega) (by omega)
  have hbound : wrapI32 (bound - 1) = bound - 1 := wrapI32_eq (by omega) (by omega)
  simp only [LegacyRandom.pass, hdifference, hbound, hsum]

theorem scaled_eq : LegacyRandom.scaled bound word = bound * word / 2 ^ 31 := by
  have hle : bound * word ≤ 2 ^ 31 * word := mul_le_mul_of_nonneg_right hlt.le hword
  have hnonneg := mul_nonneg hpos.le hword
  rw [LegacyRandom.scaled, wrapI64_eq (by omega) (by omega), shiftRight_eq_div_pow]
  exact wrapI32_eq (by omega) (by omega)

end Legacy

theorem isPowerOfTwo_iff {n : ℕ} (hn : 0 < n) (hlt : n < 2 ^ 31) :
    LegacyRandom.isPowerOfTwo n = true ↔ n.isPowerOfTwo := by
  have hbits : (BitVec.ofInt 32 n).toNat = n := by
    rw [toNat_ofInt]
    omega
  have hbits' : (BitVec.ofInt 32 (wrapI32 (n - 1))).toNat = n - 1 := by
    rw [wrapI32_eq (by omega) (by omega), toNat_ofInt]
    omega
  rw [← Nat.and_sub_one_eq_zero_iff_isPowerOfTwo hn.ne', LegacyRandom.isPowerOfTwo,
    decide_eq_true_eq, ← toNat_inj, toNat_and, hbits, hbits']
  rfl

/-- What a raw word of 31 bits gives. -/
def LegacyRandom.accept (bound word : ℤ) : Option ℤ :=
  if isPowerOfTwo bound then some (scaled bound word) else pass bound word

theorem LegacyRandom.unbiased {n : ℕ} (hn : 0 < n) (hlt : n < 2 ^ 31) :
    Unbiased (2 ^ 31) n (accept n) := by
  have hpos' : (0 : ℤ) < n := by omega
  have hlt' : (n : ℤ) < 2 ^ 31 := by omega
  cases hpower : isPowerOfTwo n with
  | true =>
    obtain ⟨e, rfl⟩ := (isPowerOfTwo_iff hn hlt).mp hpower
    have he : e < 31 := (Nat.pow_lt_pow_iff_right (by decide)).mp hlt
    have hsplit : 2 ^ 31 = 2 ^ e * 2 ^ (31 - e) := by
      rw [← Nat.pow_add, Nat.add_sub_cancel' he.le]
    have hblock : 0 < 2 ^ (31 - e) := Nat.two_pow_pos _
    have haccept (w : ℕ) (hw : w < 2 ^ 31) :
        accept (2 ^ e : ℕ) w = some ((w / 2 ^ (31 - e) : ℕ) : ℤ) := by
      rw [accept, if_pos hpower, scaled_eq hpos' hlt' (by omega) (by omega),
        show (2 : ℤ) ^ 31 = (2 ^ 31 : ℕ) by rfl, ← natCast_mul, ← natCast_div, hsplit,
        Nat.mul_div_mul_left _ _ (Nat.two_pow_pos e)]
    refine .of_count hn hlt.le ?_ ?_
    · intro w hw v hv
      obtain rfl := Option.some.inj ((haccept w hw).symm.trans hv)
      refine ⟨natCast_nonneg _, ofNat_lt.mpr ((Nat.div_lt_iff_lt_mul hblock).mpr ?_)⟩
      rwa [← hsplit]
    · intro v hv
      rw [hsplit, Nat.mul_div_cancel_left _ (Nat.two_pow_pos e), ← hsplit]
      refine card_filter_interval (v * 2 ^ (31 - e)) ?_ fun w hw => ?_
      · rw [hsplit, ← Nat.succ_mul]
        exact Nat.mul_le_mul_right _ hv
      · rw [haccept w hw, Option.some.injEq, ofNat_inj, Nat.div_eq_iff hblock]
        omega
  | false =>
    have haccept (w : ℕ) (hw : w < 2 ^ 31) : accept n w =
        if w - w % n + (n - 1) < 2 ^ 31 then some ((w % n : ℕ) : ℤ) else none := by
      have hmod : (w : ℤ).tmod n = (w % n : ℕ) := (ofNat_tmod w n).symm
      have hle := Nat.mod_le w n
      rw [accept, hpower, if_neg Bool.false_ne_true, pass_eq hpos' hlt' (by omega) (by omega), hmod]
      exact if_congr (by omega) rfl rfl
    refine .of_count hn hlt.le ?_ ?_
    · intro w hw v hv
      have hmod := Nat.mod_lt w hn
      rw [haccept w hw] at hv
      split_ifs at hv
      obtain rfl := Option.some.inj hv
      omega
    · intro v hv
      have hblocks : (Finset.range (2 ^ 31)).filter (fun w : ℕ => accept n w = some (v : ℤ)) =
          (Finset.range (2 ^ 31 / n)).image fun q => q * n + v := by
        ext w
        rw [mem_filter, mem_range, Finset.mem_image]
        constructor
        · rintro ⟨hw, hsome⟩
          have hdiv := Nat.div_add_mod' w n
          rw [haccept w hw] at hsome
          split_ifs at hsome with hroom
          obtain rfl := Int.ofNat.inj (Option.some.inj hsome)
          refine ⟨w / n, mem_range.mpr (Nat.lt_iff_add_one_le.mpr ?_), hdiv⟩
          rw [Nat.le_div_iff_mul_le hn, Nat.succ_mul]
          omega
        · rintro ⟨q, hq, rfl⟩
          have hblock := (Nat.le_div_iff_mul_le hn).mp (mem_range.mp hq)
          rw [Nat.succ_mul] at hblock
          have hmod : (q * n + v) % n = v := by rw [Nat.mul_add_mod', Nat.mod_eq_of_lt hv]
          have hw : q * n + v < 2 ^ 31 := by omega
          refine ⟨hw, ?_⟩
          rw [haccept _ hw, hmod, if_pos (by omega)]
      rw [hblocks, Finset.card_image_of_injective, card_range]
      exact fun q q' h => Nat.eq_of_mul_eq_mul_right hn (Nat.add_right_cancel h)

include hpos hlt in
theorem Xoroshiro.product_eq (hword : 0 ≤ word) (hword' : word < 2 ^ 32) :
    product bound word = word * bound := by
  have hle : word * bound ≤ 2 ^ 32 * bound := mul_le_mul_of_nonneg_right hword'.le hpos.le
  have hnonneg := mul_nonneg hword hpos.le
  exact emod_eq_of_lt hnonneg (by omega)

include hpos hlt in
theorem Xoroshiro.threshold_eq : threshold bound = 2 ^ 32 % bound := by
  have hfirst : (2 ^ 32 - 1 - bound) % 2 ^ 32 = 2 ^ 32 - 1 - bound :=
    emod_eq_of_lt (by omega) (by omega)
  have hsecond : (2 ^ 32 - 1 - bound + 1) % 2 ^ 32 = 2 ^ 32 - bound := by omega
  have hword : bound % 2 ^ 32 = bound := emod_eq_of_lt hpos.le (by omega)
  rw [threshold, hfirst, hsecond, hword, sub_emod_right]

/-- What a raw word of 32 bits gives. -/
def Xoroshiro.accept (bound word : ℤ) : Option ℤ :=
  let m := product bound word
  if m % 2 ^ 32 < threshold bound then none else some (wrapI32 (m >>> (32 : ℕ)))

theorem Xoroshiro.unbiased {n : ℕ} (hn : 0 < n) (hlt : n < 2 ^ 31) :
    Unbiased (2 ^ 32) n (accept n) := by
  have hpos' : (0 : ℤ) < n := by omega
  have hlt' : (n : ℤ) < 2 ^ 31 := by omega
  have haccept (w : ℕ) (hw : w < 2 ^ 32) : accept n w =
      if w * n % 2 ^ 32 < 2 ^ 32 % n then none else some ((w * n / 2 ^ 32 : ℕ) : ℤ) := by
    have hhigh : w * n < 2 ^ 32 * 2 ^ 31 := Nat.mul_lt_mul'' hw hlt
    have hresult : wrapI32 ((w * n : ℤ) >>> (32 : ℕ)) = (w * n / 2 ^ 32 : ℕ) := by
      rw [shiftRight_eq_div_pow]
      exact wrapI32_eq (by omega) (by omega)
    have hlow : (w * n : ℤ) % 2 ^ 32 = (w * n % 2 ^ 32 : ℕ) := by push_cast; rfl
    have hthreshold : (2 ^ 32 : ℤ) % n = (2 ^ 32 % n : ℕ) := by push_cast; rfl
    rw [accept, product_eq hpos' hlt' (by omega) (by omega), threshold_eq hpos' hlt', hresult,
      hlow, hthreshold]
    exact if_congr ofNat_lt rfl rfl
  have hless (w : ℕ) (hw : w < 2 ^ 32) : w * n / 2 ^ 32 < n :=
    (Nat.div_lt_iff_lt_mul (by decide)).mpr
      ((Nat.mul_lt_mul_right hn).mpr hw |>.trans_eq (Nat.mul_comm _ _))
  refine .of_count hn (by omega) ?_ ?_
  · intro w hw v hv
    rw [haccept w hw] at hv
    split_ifs at hv
    obtain rfl := Option.some.inj hv
    exact ⟨natCast_nonneg _, ofNat_lt.mpr (hless w hw)⟩
  · intro v hv
    have hsplit := Nat.div_add_mod' (2 ^ 32) n
    have hlast : (v + 1) * 2 ^ 32 ≤ n * 2 ^ 32 := Nat.mul_le_mul_right _ hv
    obtain ⟨start, hstart, hstart'⟩ : ∃ start, v * 2 ^ 32 + 2 ^ 32 % n ≤ start * n ∧
        start * n < v * 2 ^ 32 + 2 ^ 32 % n + n := by
      refine ⟨(v * 2 ^ 32 + 2 ^ 32 % n + n - 1) / n, ?_⟩
      have hdiv := Nat.div_add_mod' (v * 2 ^ 32 + 2 ^ 32 % n + n - 1) n
      have hmod := Nat.mod_lt (v * 2 ^ 32 + 2 ^ 32 % n + n - 1) hn
      omega
    have hstop : (start + 2 ^ 32 / n) * n = start * n + 2 ^ 32 / n * n := Nat.add_mul ..
    have hbelow (w : ℕ) : start ≤ w ↔ v * 2 ^ 32 + 2 ^ 32 % n ≤ w * n := by
      refine ⟨fun h => hstart.trans (Nat.mul_le_mul_right n h), fun h => ?_⟩
      by_contra hless
      have hnext := Nat.mul_le_mul_right n (not_le.mp hless)
      rw [Nat.succ_mul] at hnext
      omega
    have habove (w : ℕ) : w < start + 2 ^ 32 / n ↔ w * n < (v + 1) * 2 ^ 32 := by
      constructor
      · intro h
        have hnext := Nat.mul_le_mul_right n h
        rw [Nat.succ_mul] at hnext
        omega
      · intro h
        by_contra hge
        have hle := Nat.mul_le_mul_right n (not_lt.mp hge)
        omega
    refine card_filter_interval start ?_ fun w hw => ?_
    · by_contra hmore
      have hle := ((habove (2 ^ 32)).mp (not_le.mp hmore)).trans_le hlast
      rw [Nat.mul_comm] at hle
      exact lt_irrefl _ hle
    · rw [haccept w hw, hbelow, habove]
      split_ifs with hlow
      · simp only [false_iff]
        omega
      · rw [Option.some.injEq, ofNat_inj]
        omega

namespace LegacyRandom

theorem next31_bounds (r : LegacyRandom) : 0 ≤ (r.next 31).1 ∧ (r.next 31).1 < 2 ^ 31 := by
  generalize hm : r.nextRandom.1 = m
  have hlt : m.toNat < 2 ^ 48 := by
    rw [← hm, nextRandom, and_mask, toNat_setWidth_of_le (by decide)]
    exact BitVec.isLt _
  have hvalue : (r.next 31).1 = ((m.sshiftRight 17).setWidth 32).toInt := by rw [← hm]; rfl
  have hsign : m.msb = false := by
    rw [msb_eq_decide, decide_eq_false_iff_not]
    omega
  have hbits : ((m.sshiftRight 17).setWidth 32).toNat = m.toNat / 2 ^ 17 := by
    rw [sshiftRight_eq_of_msb_false hsign, toNat_setWidth, toNat_ushiftRight,
      Nat.shiftRight_eq_div_pow]
    omega
  rw [hvalue, toInt_eq_toNat_cond, hbits]
  split_ifs <;> omega

theorem nextI32Bounded_eq (bound : ℤ) (fuel : ℕ) (r : LegacyRandom) :
    r.nextI32Bounded bound (fuel + 1) =
      firstAccepted (·.next 31) (accept bound) (fuel + 1) r := by
  rw [nextI32Bounded]
  split_ifs with hpower
  · rw [firstAccepted, accept, if_pos hpower]
  · have haccept : accept bound = pass bound := funext fun _ => if_neg hpower
    rw [haccept]

end LegacyRandom

namespace Xoroshiro

theorem nextWord_bounds (x : Xoroshiro) : 0 ≤ x.nextWord.1 ∧ x.nextWord.1 < 2 ^ 32 :=
  ⟨emod_nonneg _ (by decide), emod_lt_of_pos _ (by decide)⟩

theorem redraw_eq (fuel : ℕ) (x : Xoroshiro) :
    redraw bound (threshold bound) fuel (product bound x.nextWord.1) x.nextWord.2 =
      firstAccepted nextWord (accept bound) (fuel + 1) x := by
  induction fuel generalizing x with
  | zero =>
    simp only [redraw.eq_def, firstAccepted, accept]
    split_ifs <;> rfl
  | succ fuel ih =>
    rw [redraw.eq_def, firstAccepted]
    simp only [accept]
    split_ifs
    · simp only [ih]
    · rfl

include hpos hlt in
theorem nextI32Bounded_eq (fuel : ℕ) (x : Xoroshiro) : x.nextI32Bounded bound fuel =
    firstAccepted nextWord (accept bound) (fuel + 1) x := by
  have hword : bound % 2 ^ 64 = bound := emod_eq_of_lt hpos.le (by omega)
  rw [← redraw_eq, nextI32Bounded]
  simp only [hword]
  split_ifs with hlow
  · rfl
  · have hless := emod_lt_of_pos (2 ^ 32) hpos
    rw [redraw.eq_def, threshold_eq hpos hlt]
    dsimp only
    rw [if_neg (by omega)]

end Xoroshiro

/-- What the fixed width does to the operations of a draw. -/
structure NoWrap (bound : ℤ) : Prop where
  /-- Of the legacy loop only the last sum wraps, and it does so for the rejected words. -/
  legacy : ∀ word : ℤ, 0 ≤ word → word < 2 ^ 31 →
    wrapI32 (bound - 1) = bound - 1 ∧ wrapI64 (bound * word) = bound * word ∧
      LegacyRandom.scaled bound word = bound * word / 2 ^ 31 ∧
      wrapI32 (word - word.tmod bound) = word - word.tmod bound ∧
      (wrapI32 (word - word.tmod bound + (bound - 1)) ≠ word - word.tmod bound + (bound - 1) ↔
        LegacyRandom.pass bound word = none)
  xoroshiro : ∀ word : ℤ, 0 ≤ word → word < 2 ^ 32 →
    Xoroshiro.product bound word = word * bound ∧ Xoroshiro.threshold bound = 2 ^ 32 % bound ∧
      wrapI32 ((word * bound) >>> (32 : ℕ)) = word * bound / 2 ^ 32

include hpos hlt in
theorem noWrap : NoWrap bound where
  legacy := by
    intro word hword hword'
    obtain ⟨hnonneg, hless, hle⟩ := tmod_bounds hpos hword
    have hproduct : bound * word ≤ 2 ^ 31 * word := mul_le_mul_of_nonneg_right hlt.le hword
    have hproduct' := mul_nonneg hpos.le hword
    refine ⟨wrapI32_eq (by omega) (by omega), wrapI64_eq (by omega) (by omega),
      scaled_eq hpos hlt hword hword', wrapI32_eq (by omega) (by omega), ?_⟩
    rw [pass_eq hpos hlt hword hword', wrapI32, bmod_def]
    split_ifs <;> simp <;> omega
  xoroshiro := by
    intro word hword hword'
    have hle : word * bound ≤ 2 ^ 32 * bound := mul_le_mul_of_nonneg_right hword'.le hpos.le
    have hnonneg := mul_nonneg hword hpos.le
    refine ⟨Xoroshiro.product_eq hpos hlt hword hword', Xoroshiro.threshold_eq hpos hlt, ?_⟩
    rw [shiftRight_eq_div_pow]
    exact wrapI32_eq (by omega) (by omega)

theorem nextI32Bounded_unbiased (bound : ℕ) (hpos : 0 < bound) (hlt : bound < 2 ^ 31) :
    (Unbiased (2 ^ 31) bound (LegacyRandom.accept bound) ∧
      Unbiased (2 ^ 32) bound (Xoroshiro.accept bound)) ∧
    (∀ (fuel : ℕ) (r : LegacyRandom), r.nextI32Bounded bound (fuel + 1) =
      firstAccepted (·.next 31) (LegacyRandom.accept bound) (fuel + 1) r) ∧
    (∀ (fuel : ℕ) (x : Xoroshiro), x.nextI32Bounded bound fuel =
      firstAccepted Xoroshiro.nextWord (Xoroshiro.accept bound) (fuel + 1) x) ∧
    (∀ r : LegacyRandom, 0 ≤ (r.next 31).1 ∧ (r.next 31).1 < 2 ^ 31) ∧
    (∀ x : Xoroshiro, 0 ≤ x.nextWord.1 ∧ x.nextWord.1 < 2 ^ 32) ∧
    NoWrap bound := by
  have hpos' : (0 : ℤ) < bound := by omega
  have hlt' : (bound : ℤ) < 2 ^ 31 := by omega
  exact ⟨⟨LegacyRandom.unbiased hpos hlt, Xoroshiro.unbiased hpos hlt⟩,
    LegacyRandom.nextI32Bounded_eq bound, Xoroshiro.nextI32Bounded_eq hpos' hlt',
    LegacyRandom.next31_bounds, Xoroshiro.nextWord_bounds, noWrap hpos' hlt'⟩

/-- A die has as many words for each of its faces. -/
theorem nextI32Bounded_unbiased_six : Unbiased (2 ^ 31) 6 (LegacyRandom.accept 6) ∧
    Unbiased (2 ^ 32) 6 (Xoroshiro.accept 6) :=
  (nextI32Bounded_unbiased 6 (by decide) (by decide)).1

end Steel
