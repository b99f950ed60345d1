import Mathlib.Order.Lattice.Nat

/-! # Integer providers

The static bounds of a provider against the values that it draws.
-/

namespace Steel

/-- A random source as far as bounded draws go. -/
structure DrawSource (S : Type) where
  nextI32Bounded : S → ℤ → ℤ × S
  range : ∀ s bound, 0 < bound →
    0 ≤ (nextI32Bounded s bound).1 ∧ (nextI32Bounded s bound).1 < bound

/-- A computation that draws numbers below bounds and may fail. -/
inductive Draw (α : Type) where
  | value (v : α)
  | panic
  | next (bound : ℤ) (rest : ℤ → Draw α)

namespace Draw

variable {S α β : Type} {P : α → Prop} {Q : β → Prop}

def andThen : Draw α → (α → Draw β) → Draw β
  | value v, f => f v
  | panic, _ => panic
  | next bound rest, f => next bound fun v => (rest v).andThen f

instance : Monad Draw where
  pure := value
  bind := andThen

/-- A bound that is not positive panics. -/
def run (random : DrawSource S) : Draw α → S → Option (α × S)
  | value v, s => some (v, s)
  | panic, _ => none
  | next bound rest, s =>
    if 0 < bound then
      (rest (random.nextI32Bounded s bound).1).run random (random.nextI32Bounded s bound).2
    else none

/-- Whatever is drawn, a value with the property comes out. -/
def Safe (P : α → Prop) : Draw α → Prop
  | value v => P v
  | panic => False
  | next bound rest => 0 < bound ∧ ∀ v, 0 ≤ v → v < bound → (rest v).Safe P

theorem safe_bind (m : Draw α) (f : α → Draw β) :
    (m >>= f).Safe Q ↔ m.Safe fun v => (f v).Safe Q := by
  induction m with
  | value v => rfl
  | panic => rfl
  | next bound rest ih =>
    exact and_congr_right fun _ => forall_congr' fun v => imp_congr_right fun _ =>
      imp_congr_right fun _ => ih v

theorem Safe.mono {m : Draw α} {R : α → Prop} (h : m.Safe P) (hPR : ∀ v, P v → R v) :
    m.Safe R := by
  induction m with
  | value v => exact hPR v h
  | panic => exact h
  | next bound rest ih => exact ⟨h.1, fun v hv hlt => ih v (h.2 v hv hlt)⟩

theorem Safe.run (random : DrawSource S) {m : Draw α} (h : m.Safe P) (s : S) :
    ∃ v s', m.run random s = some (v, s') ∧ P v := by
  induction m generalizing s with
  | value v => exact ⟨v, s, rfl, h⟩
  | panic => exact h.elim
  | next bound rest ih =>
    obtain ⟨hv, hlt⟩ := random.range s bound h.1
    rw [Draw.run, if_pos h.1]
    exact ih _ (h.2 _ hv hlt) _

end Draw

mutual

inductive IntProvider where
  | constant (value : ℤ)
  | uniform (minInclusive maxInclusive : ℤ)
  | biasedToBottom (minInclusive maxInclusive : ℤ)
  | veryBiasedToBottom (minInclusive maxInclusive inner : ℤ)
  | trapezoid (min max plateau : ℤ)
  | clamped (source : IntProvider) (minInclusive maxInclusive : ℤ)
  | weightedList (distribution : WeightedIntProviders)

inductive WeightedIntProviders where
  | nil
  | cons (data : IntProvider) (weight : ℤ) (rest : WeightedIntProviders)

end

namespace IntProvider

open Draw

mutual

/-- `min` and `max` are one recursion: a sign tells which bound it is. -/
def bound (sign : ℤ) : IntProvider → ℤ
  | constant v => v
  | uniform lo hi | biasedToBottom lo hi | veryBiasedToBottom lo hi _ | trapezoid lo hi _
  | clamped _ lo hi => if sign < 0 then lo else hi
  | weightedList distribution => (farthest sign distribution none).getD 0

/-- The loop over the entries: `none` until one is found. -/
def farthest (sign : ℤ) : WeightedIntProviders → Option ℤ → Option ℤ
  | .nil, found => found
  | .cons data _ rest, none => farthest sign rest (some (data.bound sign))
  | .cons data _ rest, some m =>
    farthest sign rest (some (if sign * m < sign * data.bound sign then data.bound sign else m))

end

def min : IntProvider → ℤ := bound (-1)

def max : IntProvider → ℤ := bound 1

/-- Overflow panics. -/
def i32 (x : ℤ) : Draw ℤ := if -2 ^ 31 ≤ x ∧ x < 2 ^ 31 then value x else panic

def nextI32Bounded (bound : ℤ) : Draw ℤ := next bound value

def nextI32Between (min max : ℤ) : Draw ℤ := do
  let span ← i32 (max - min)
  let bound ← i32 (span + 1)
  let v ← nextI32Bounded bound
  i32 (v + min)

def sampleBiased (lo hi : ℤ) : Draw ℤ := do
  let span ← i32 (hi - lo)
  let span ← i32 (span + 1)
  let v ← nextI32Bounded span
  let bound ← i32 (v + 1)
  let v ← nextI32Bounded bound
  i32 (lo + v)

def sampleVeryBiased (lo hi inner : ℤ) : Draw ℤ := do
  let limit ← i32 (hi - lo)
  let limit ← i32 (limit - inner)
  let limit ← i32 (limit + 1)
  if limit ≤ 0 then pure lo
  else
    let v ← nextI32Bounded limit
    let v ← i32 (v + lo)
    let upperInclusive ← i32 (v + inner)
    let upper ← i32 (upperInclusive - 1)
    let biasedUpperInclusive ← nextI32Between lo upper
    let upper ← i32 (biasedUpperInclusive - 1)
    let upper ← i32 (upper + inner)
    nextI32Between lo upper

def sampleSymmetric (hi : ℤ) : Draw ℤ := do
  let bound ← i32 (hi + 1)
  let v ← nextI32Bounded bound
  let w ← nextI32Bounded bound
  i32 (v - w)

def sampleSloped (lo hi plateau : ℤ) : Draw ℤ := do
  let range ← i32 (hi - lo)
  if range ≤ plateau then nextI32Between lo hi
  else
    let slopes ← i32 (range - plateau)
    let plateauEnd ← i32 (range - slopes.tdiv 2)
    let v ← nextI32Between 0 plateauEnd
    let v ← i32 (lo + v)
    let w ← nextI32Between 0 (slopes.tdiv 2)
    i32 (v + w)

def sampleTrapezoid (lo hi plateau : ℤ) : Draw ℤ :=
  if plateau = 0 then do
    let negated ← i32 (-lo)
    if hi = negated then sampleSymmetric hi else sampleSloped lo hi plateau
  else sampleSloped lo hi plateau

/-- `Ord::clamp` asserts its range. -/
def clamp (v lo hi : ℤ) : Draw ℤ :=
  if lo ≤ hi then value (if v < lo then lo else if hi < v then hi else v) else panic

def totalWeight : WeightedIntProviders → ℤ → Draw ℤ
  | .nil, sum => pure sum
  | .cons _ weight rest, sum => do
    let sum ← i32 (sum + weight)
    totalWeight rest sum

mutual

def sample : IntProvider → Draw ℤ
  | constant v => pure v
  | uniform lo hi => nextI32Between lo hi
  | biasedToBottom lo hi => sampleBiased lo hi
  | veryBiasedToBottom lo hi inner => sampleVeryBiased lo hi inner
  | trapezoid lo hi plateau => sampleTrapezoid lo hi plateau
  | clamped source lo hi => do
    let v ← sample source
    clamp v lo hi
  | weightedList distribution => do
    let total ← totalWeight distribution 0
    if total ≤ 0 then pure 0
    else
      let target ← nextI32Bounded total
      pick distribution target

def pick : WeightedIntProviders → ℤ → Draw ℤ
  | .nil, _ => pure 0
  | .cons data weight rest, target => do
    let target ← i32 (target - weight)
    if target < 0 then sample data else pick rest target

end

/-- Whatever is drawn, a sample returns within the static bounds. -/
def StaysWithin (p : IntProvider) : Prop := p.sample.Safe fun v => p.min ≤ v ∧ v ≤ p.max

def Range (lo hi : ℤ) : Prop := lo ≤ hi ∧ -2 ^ 28 ≤ lo ∧ hi ≤ 2 ^ 28

def weightSum : WeightedIntProviders → ℤ
  | .nil => 0
  | .cons _ weight rest => weight + weightSum rest

mutual

def Valid : IntProvider → Prop
  | constant _ => True
  | uniform lo hi | biasedToBottom lo hi => Range lo hi
  | veryBiasedToBottom lo hi inner => Range lo hi ∧ 1 ≤ inner ∧ inner ≤ 2 ^ 28
  | trapezoid lo hi plateau => Range lo hi ∧ 0 ≤ plateau
  | clamped source lo hi => source.Valid ∧ Range lo hi
  | weightedList distribution =>
    AllValid distribution ∧ 0 < weightSum distribution ∧ weightSum distribution < 2 ^ 31

def AllValid : WeightedIntProviders → Prop
  | .nil => True
  | .cons data weight rest => data.Valid ∧ 0 ≤ weight ∧ AllValid rest

end

mutual

/-- A window that can be drawn ends above the limit. -/
def Overshoots (limit : ℤ) : IntProvider → Prop
  | veryBiasedToBottom lo hi inner => inner ≤ hi - lo ∧ limit < hi + inner - 2
  | weightedList distribution => SomeOvershoots limit distribution
  | _ => False

def SomeOvershoots (limit : ℤ) : WeightedIntProviders → Prop
  | .nil => False
  | .cons data weight rest => 0 < weight ∧ data.Overshoots limit ∨ SomeOvershoots limit rest

end

section Safe

variable {P : ℤ → Prop} {lo hi inner plateau x : ℤ}

theorem safe_i32 (hx : -2 ^ 31 ≤ x) (hx' : x < 2 ^ 31) : (i32 x).Safe P ↔ P x := by
  rw [i32, if_pos ⟨hx, hx'⟩]
  rfl

theorem safe_nextI32Bounded (hpos : 0 < x) :
    (nextI32Bounded x).Safe P ↔ ∀ v, 0 ≤ v → v < x → P v := and_iff_right hpos

theorem safe_nextI32Between (h : lo ≤ hi) (hlo : -2 ^ 29 ≤ lo) (hhi : hi ≤ 2 ^ 29) :
    (nextI32Between lo hi).Safe P ↔ ∀ v, lo ≤ v → v ≤ hi → P v := by
  simp (disch := omega) only [nextI32Between, safe_bind, safe_i32, safe_nextI32Bounded]
  constructor
  · intro hdraw v hv hv'
    have hsum := hdraw (v - lo) (by omega) (by omega)
    rwa [safe_i32 (by omega) (by omega), Int.sub_add_cancel] at hsum
  · intro hall v hv hv'
    rw [safe_i32 (by omega) (by omega)]
    exact hall _ (by omega) (by omega)

theorem safe_sampleBiased (h : Range lo hi) :
    (sampleBiased lo hi).Safe fun v => lo ≤ v ∧ v ≤ hi := by
  obtain ⟨hle, hlo, hhi⟩ := h
  simp (disch := omega) only [sampleBiased, safe_bind, safe_i32, safe_nextI32Bounded]
  intro v hv hv'
  simp (disch := omega) only [safe_i32, safe_nextI32Bounded]
  intro w hw hw'
  rw [safe_i32 (by omega) (by omega)]
  omega

/-- The last window starts below the first one and is `inner` wide. -/
theorem safe_sampleVeryBiased (h : Range lo hi) (hinner : 1 ≤ inner) (hinner' : inner ≤ 2 ^ 28) :
    (sampleVeryBiased lo hi inner).Safe P ↔ if inner ≤ hi - lo then
      ∀ v, lo ≤ v → v ≤ hi + inner - 2 → P v else P lo := by
  obtain ⟨hle, hlo, hhi⟩ := h
  simp (disch := omega) only [sampleVeryBiased, safe_bind, safe_i32]
  split_ifs with hlimit hwide hwide
  · omega
  · rfl
  · simp (disch := omega) only [safe_bind, safe_nextI32Bounded]
    constructor
    · intro hdraw v hv hv'
      have hupper := hdraw (hi - lo - inner) (by omega) (by omega)
      simp (disch := omega) only [safe_i32, safe_nextI32Between] at hupper
      have hlast := hupper (hi - 1) (by omega) (by omega)
      simp (disch := omega) only [safe_i32, safe_nextI32Between] at hlast
      exact hlast v hv (by omega)
    · intro hall u hu hu'
      simp (disch := omega) only [safe_i32, safe_nextI32Between]
      intro w hw hw'
      simp (disch := omega) only [safe_i32, safe_nextI32Between]
      exact fun v hv hv' => hall v hv (by omega)
  · omega

theorem safe_sampleSloped (h : Range lo hi) (hplateau : 0 ≤ plateau) :
    (sampleSloped lo hi plateau).Safe fun v => lo ≤ v ∧ v ≤ hi := by
  obtain ⟨hle, hlo, hhi⟩ := h
  simp (disch := omega) only [sampleSloped, safe_bind, safe_i32]
  split_ifs with hwide
  · rw [safe_nextI32Between hle (by omega) (by omega)]
    exact fun v hv hv' => ⟨hv, hv'⟩
  · have hhalf : (hi - lo - plateau).tdiv 2 = (hi - lo - plateau) / 2 :=
      Int.tdiv_eq_ediv_of_nonneg (by omega)
    simp (disch := omega) only [safe_bind, safe_i32, hhalf, safe_nextI32Between]
    intro v hv hv'
    simp (disch := omega) only [safe_i32]
    intro w hw hw'
    rw [safe_i32 (by omega) (by omega)]
    omega

theorem safe_sampleTrapezoid (h : Range lo hi) (hplateau : 0 ≤ plateau) :
    (sampleTrapezoid lo hi plateau).Safe fun v => lo ≤ v ∧ v ≤ hi := by
  have hsloped := safe_sampleSloped h hplateau
  obtain ⟨hle, hlo, hhi⟩ := h
  rw [sampleTrapezoid]
  split_ifs
  · rw [safe_bind, safe_i32 (by omega) (by omega)]
    split_ifs
    · simp (disch := omega) only [sampleSymmetric, safe_bind, safe_i32, safe_nextI32Bounded]
      intro v hv hv' w hw hw'
      rw [safe_i32 (by omega) (by omega)]
      omega
    · exact hsloped
  · exact hsloped

theorem safe_clamp (h : lo ≤ hi) : (clamp x lo hi).Safe fun v => lo ≤ v ∧ v ≤ hi := by
  rw [clamp, if_pos h]
  show lo ≤ ite _ _ _ ∧ ite _ _ _ ≤ hi
  split_ifs <;> omega

theorem weightSum_nonneg : ∀ {d : WeightedIntProviders}, AllValid d → 0 ≤ weightSum d
  | .nil, _ => le_rfl
  | .cons _ _ _, h => by
    rw [AllValid] at h
    have hrest := weightSum_nonneg h.2.2
    rw [weightSum]
    omega

theorem safe_totalWeight : ∀ {d : WeightedIntProviders} {sum : ℤ}, AllValid d → 0 ≤ sum →
    sum + weightSum d < 2 ^ 31 → ((totalWeight d sum).Safe P ↔ P (sum + weightSum d))
  | .nil, sum, _, _, _ => by
    rw [weightSum, Int.add_zero]
    rfl
  | .cons _ _ _, sum, h, hsum, hbound => by
    rw [AllValid] at h
    rw [weightSum] at hbound
    have hrest := weightSum_nonneg h.2.2
    rw [totalWeight, safe_bind, safe_i32 (by omega) (by omega),
      safe_totalWeight h.2.2 (by omega) (by omega), weightSum, Int.add_assoc]

end Safe

/-- The targets of a list are drawn below the sum of its weights. -/
theorem safe_weightedList {d : WeightedIntProviders} {P : ℤ → Prop} (h : AllValid d)
    (hpos : 0 < weightSum d) (hlt : weightSum d < 2 ^ 31) : (weightedList d).sample.Safe P ↔
      ∀ target, 0 ≤ target → target < weightSum d → (pick d target).Safe P := by
  rw [sample, safe_bind, safe_totalWeight h le_rfl (by omega), if_neg (by omega), safe_bind,
    Int.zero_add, safe_nextI32Bounded hpos]

theorem farthest_some : ∀ (sign : ℤ) (d : WeightedIntProviders) (m : ℤ),
    sign * m ≤ sign * (farthest sign d (some m)).getD 0
  | _, .nil, _ => le_rfl
  | sign, .cons _ _ rest, m => by
    refine le_trans ?_ (farthest_some sign rest _)
    split_ifs <;> omega

/-- The bound of an entry is within that of the list. -/
theorem bound_le_farthest (sign : ℤ) (data : IntProvider) (weight : ℤ)
    (rest : WeightedIntProviders) (found : Option ℤ) :
    sign * data.bound sign ≤ sign * (farthest sign (.cons data weight rest) found).getD 0 := by
  cases found with
  | none => exact farthest_some sign rest _
  | some m =>
    refine le_trans ?_ (farthest_some sign rest _)
    split_ifs <;> omega

/-- A window that overshoots is the only way above the limit. -/
def Within (p : IntProvider) (v : ℤ) : Prop :=
  p.min ≤ v ∧ ∀ limit, p.max ≤ limit → ¬p.Overshoots limit → v ≤ limit

mutual

theorem safe_sample : ∀ (p : IntProvider), p.Valid → p.sample.Safe p.Within
  | .constant _, _ => ⟨le_rfl, fun _ hlimit _ => hlimit⟩
  | .uniform _ _, ⟨hle, hlo, hhi⟩ =>
    (safe_nextI32Between hle (by omega) (by omega)).mpr fun _ hv hv' =>
      ⟨hv, fun _ hlimit _ => hv'.trans hlimit⟩
  | .biasedToBottom _ _, h =>
    (safe_sampleBiased h).mono fun _ hv => ⟨hv.1, fun _ hlimit _ => hv.2.trans hlimit⟩
  | .veryBiasedToBottom lo hi inner, ⟨hrange, hinner, hinner'⟩ => by
    refine (safe_sampleVeryBiased hrange hinner hinner').mpr ?_
    split_ifs with hwide
    · intro v hv hv'
      refine ⟨hv, fun limit hlimit hnot => ?_⟩
      simp only [Overshoots, max, bound] at hlimit hnot
      omega
    · exact ⟨le_rfl, fun limit hlimit _ => hrange.1.trans hlimit⟩
  | .trapezoid _ _ _, ⟨hrange, hplateau⟩ =>
    (safe_sampleTrapezoid hrange hplateau).mono fun _ hv =>
      ⟨hv.1, fun _ hlimit _ => hv.2.trans hlimit⟩
  | .clamped source _ _, ⟨hsource, hrange⟩ =>
    (safe_bind _ _).mpr <| (safe_sample source hsource).mono fun _ _ =>
      (safe_clamp hrange.1).mono fun _ hv => ⟨hv.1, fun _ hlimit _ => hv.2.trans hlimit⟩
  | .weightedList d, ⟨hvalid, hpos, hlt⟩ => by
    refine (safe_weightedList hvalid hpos hlt).mpr fun target hnonneg hless => ?_
    refine (safe_pick d target hvalid hnonneg hless hlt).mono fun v hv => ?_
    exact ⟨hv.1 none, fun limit hlimit hnot => hv.2 limit none hlimit hnot⟩

theorem safe_pick : ∀ (d : WeightedIntProviders) (target : ℤ), AllValid d → 0 ≤ target →
    target < weightSum d → weightSum d < 2 ^ 31 →
    (pick d target).Safe fun v => (∀ found, (farthest (-1) d found).getD 0 ≤ v) ∧
      ∀ limit found, (farthest 1 d found).getD 0 ≤ limit → ¬SomeOvershoots limit d → v ≤ limit
  | .nil, target, _, hnonneg, hlt, _ => by
    rw [weightSum] at hlt
    omega
  | .cons data weight rest, target, ⟨hdata, hweight, hrest⟩, hnonneg, hlt, hbound => by
    have hsum := weightSum_nonneg hrest
    rw [weightSum] at hlt hbound
    rw [pick, safe_bind, safe_i32 (by omega) (by omega)]
    split_ifs with hhere
    · refine (safe_sample data hdata).mono fun v hv => ⟨fun found => ?_, ?_⟩
      · have hlow := bound_le_farthest (-1) data weight rest found
        have hmin : data.bound (-1) ≤ v := hv.1
        omega
      · intro limit found hlimit hnot
        have hhigh := bound_le_farthest 1 data weight rest found
        refine hv.2 limit (show data.bound 1 ≤ limit by omega) fun hover => ?_
        exact hnot (.inl ⟨by omega, hover⟩)
    · refine (safe_pick rest (target - weight) hrest (by omega) (by omega) (by omega)).mono ?_
      rintro v ⟨hlower, hupper⟩
      refine ⟨fun found => ?_, fun limit found hlimit hnot => ?_⟩
      · cases found <;> exact hlower _
      · cases found <;> exact hupper limit _ hlimit fun hover => hnot (.inr hover)

end

mutual

theorem not_overshoots : ∀ (p : IntProvider) (limit : ℤ), p.Valid → p.sample.Safe (· ≤ limit) →
    ¬p.Overshoots limit
  | .constant _, _, _, _ | .uniform _ _, _, _, _ | .biasedToBottom _ _, _, _, _
  | .trapezoid _ _ _, _, _, _ | .clamped _ _ _, _, _, _ => not_false
  | .veryBiasedToBottom lo hi inner, limit, ⟨hrange, hinner, hinner'⟩, hsafe => by
    rintro ⟨hwide, hlimit⟩
    have hall := (safe_sampleVeryBiased hrange hinner hinner').mp hsafe
    rw [if_pos hwide] at hall
    exact absurd (hall (hi + inner - 2) (by omega) le_rfl) (not_le.mpr hlimit)
  | .weightedList d, limit, ⟨hvalid, hpos, hlt⟩, hsafe =>
    not_someOvershoots d limit hvalid hlt ((safe_weightedList hvalid hpos hlt).mp hsafe)

theorem not_someOvershoots : ∀ (d : WeightedIntProviders) (limit : ℤ), AllValid d →
    weightSum d < 2 ^ 31 →
    (∀ target, 0 ≤ target → target < weightSum d → (pick d target).Safe (· ≤ limit)) →
    ¬SomeOvershoots limit d
  | .nil, _, _, _, _ => not_false
  | .cons data weight rest, limit, ⟨hdata, hweight, hrest⟩, hbound, hsafe => by
    have hsum := weightSum_nonneg hrest
    rw [weightSum] at hbound hsafe
    rintro (⟨hpos, hover⟩ | hover)
    · have hhere := hsafe 0 le_rfl (by omega)
      rw [pick, safe_bind, safe_i32 (by omega) (by omega), if_pos (by omega)] at hhere
      exact not_overshoots data limit hdata hhere hover
    · refine not_someOvershoots rest limit hrest (by omega) (fun target hnonneg hless => ?_) hover
      have hthere := hsafe (weight + target) (by omega) (by omega)
      rwa [pick, safe_bind, safe_i32 (by omega) (by omega), if_neg (by omega),
        show weight + target - weight = target by omega] at hthere

end

/-- A provider leaves its bounds exactly when one of its windows overshoots them. -/
theorem staysWithin_iff (p : IntProvider) (hvalid : p.Valid) :
    (p.StaysWithin ↔ ¬p.Overshoots p.max) ∧ (p.StaysWithin →
      ∀ (S : Type) (random : DrawSource S) (s : S),
        ∃ v s', p.sample.run random s = some (v, s') ∧ p.min ≤ v ∧ v ≤ p.max) := by
  refine ⟨⟨fun hsafe => ?_, fun hnot => ?_⟩, fun hsafe S random s => hsafe.run random s⟩
  · exact not_overshoots p p.max hvalid (hsafe.mono fun _ hv => hv.2)
  · exact (safe_sample p hvalid).mono fun _ hv => ⟨hv.1, hv.2 p.max le_rfl hnot⟩

theorem staysWithin_window : (veryBiasedToBottom 0 3 2).StaysWithin :=
  (staysWithin_iff (.veryBiasedToBottom 0 3 2) (by simp [Valid, Range])).1.mpr
    (by simp [Overshoots, max, bound])

/-- The draws 0, 2 and 4 lead out of the bounds. -/
theorem not_staysWithin_window :
    (veryBiasedToBottom 0 3 3).Valid ∧ ¬(veryBiasedToBottom 0 3 3).StaysWithin := by
  refine ⟨by simp [Valid, Range], fun hsafe => ?_⟩
  have hlast : ((0 : ℤ) ≤ 4 ∧ (4 : ℤ) ≤ 3) :=
    ((hsafe.2 0 le_rfl (by decide)).2 2 (by decide) (by decide)).2 4 (by decide) (by decide)
  omega

end IntProvider

end Steel
