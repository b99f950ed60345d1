import Mathlib.Order.Bounds.Basic
import Steel.Chunk.Section

/-! # The index of randomly ticking sections

One bit for every section of a chunk tells whether it has blocks or fluids that tick randomly.
-/

namespace Steel

open Function (update update_of_ne)

open List BitVec Option Nat

/-- `trailing_zeros`. -/
def trailingZeros (word : BitVec 64) : ℕ := (List.range 64).findIdx fun bit => word.getLsbD bit

/-- The words of the index. -/
structure RandomTickSectionBits where
  words : List (BitVec 64)
  sectionCount : ℕ
  length_words : words.length = (sectionCount + 63) / 64

namespace RandomTickSectionBits

def new (sectionCount : ℕ) : RandomTickSectionBits :=
  ⟨List.replicate ((sectionCount + 63) / 64) 0#64, sectionCount, List.length_replicate⟩

def mask (sectionIndex : ℕ) : BitVec 64 := 1#64 <<< (sectionIndex % 64)

variable (bits : RandomTickSectionBits)

def set (sectionIndex : ℕ) (randomlyTicking : Bool) : RandomTickSectionBits :=
  ⟨bits.words.modify (sectionIndex / 64) fun word =>
      if randomlyTicking then word ||| mask sectionIndex else word &&& ~~~mask sectionIndex,
    bits.sectionCount, by rw [List.length_modify, bits.length_words]⟩

def contains (sectionIndex : ℕ) : Bool :=
  bits.words.getD (sectionIndex / 64) 0#64 &&& mask sectionIndex ≠ 0#64

/-- The loop of `next`, with the word that is scanned and the words behind it. -/
def nextLoop (sectionCount : ℕ) : ℕ → BitVec 64 → List (BitVec 64) → Option ℕ
  | wordIndex, bits, words =>
    if bits ≠ 0#64 then
      let sectionIndex := wordIndex * 64 + trailingZeros bits
      if sectionIndex < sectionCount then some sectionIndex else none
    else
      match words with
      | [] => none
      | word :: words => nextLoop sectionCount (wordIndex + 1) word words

/-- The next eligible section from `start` on. -/
def next (start : ℕ) : Option ℕ :=
  if bits.sectionCount ≤ start then none
  else
    let wordIndex := start / 64
    let word := bits.words.getD wordIndex 0#64 &&& (BitVec.allOnes 64 <<< (start % 64))
    nextLoop bits.sectionCount wordIndex word (bits.words.drop (wordIndex + 1))

end RandomTickSectionBits

/-- Whether the section has blocks or fluids that tick randomly. -/
def ChunkSection.isRandomlyTicking (s : ChunkSection) : Bool :=
  0 < s.tickingBlockCount || 0 < s.tickingFluidCount

/-- The sections of a chunk with their index. A guard that is open has the state of its section from
when the lock was taken. -/
structure Sections where
  sections : List ChunkSection
  bits : RandomTickSectionBits
  guards : ℕ → Option Bool

namespace Sections

def ticking (s : Sections) (index : ℕ) : Bool :=
  (s.sections[index]?).any ChunkSection.isRandomlyTicking

/-- The index after `with_random_tick_index` of a section. -/
def withRandomTickIndex (bits : RandomTickSectionBits) (item : ChunkSection × ℕ) :
    RandomTickSectionBits :=
  if item.1.isRandomlyTicking then bits.set item.2 true else bits

def fromOwned (sections : List ChunkSection) : Sections :=
  ⟨sections, sections.zipIdx.foldl withRandomTickIndex (.new sections.length), fun _ => none⟩

/-- What writers do: take the lock of a section, change the section, and let go of the lock. -/
inductive Op where
  | write (index : ℕ)
  | change (index : ℕ) (operation : ChunkSection → ChunkSection)
  | drop (index : ℕ)

/-- A lock that is held is not taken, and a section is changed through a guard only. -/
def step (s : Sections) : Op → Sections
  | .write index =>
    if index < s.sections.length ∧ s.guards index = none then
      { s with guards := update s.guards index (some (s.ticking index)) }
    else s
  | .change index operation =>
    if (s.guards index).isSome then { s with sections := s.sections.modify index operation } else s
  | .drop index =>
    match s.guards index with
    | none => s
    | some wasRandomlyTicking =>
      let isRandomlyTicking := s.ticking index
      { s with
        bits := if isRandomlyTicking ≠ wasRandomlyTicking then s.bits.set index isRandomlyTicking
          else s.bits
        guards := update s.guards index none }

end Sections

theorem trailingZeros_spec {word : BitVec 64} (h : word ≠ 0#64) :
    word.getLsbD (trailingZeros word) = true ∧
      ∀ bit < trailingZeros word, word.getLsbD bit = false := by
  have hexists : ∃ bit ∈ List.range 64, word.getLsbD bit = true := by
    by_contra hnone
    apply h
    apply eq_of_getLsbD_eq
    intro bit hbit
    have hfalse : word.getLsbD bit ≠ true := fun htrue =>
      hnone ⟨bit, mem_range.mpr hbit, htrue⟩
    simpa using hfalse
  have hlt : trailingZeros word < (List.range 64).length := findIdx_lt_length.mpr hexists
  constructor
  · have hbit : word.getLsbD (List.range 64)[trailingZeros word] = true :=
      findIdx_getElem (w := hlt)
    rwa [getElem_range] at hbit
  · intro bit hbit
    have hbound := hbit.trans hlt
    have hnot : word.getLsbD (List.range 64)[bit] = false := not_of_lt_findIdx hbit
    rwa [getElem_range] at hnot

namespace RandomTickSectionBits

def bitAt (words : List (BitVec 64)) (index : ℕ) : Bool :=
  (words.getD (index / 64) 0#64).getLsbD (index % 64)

theorem getLsbD_mask (index bit : ℕ) : (mask index).getLsbD bit = decide (bit = index % 64) := by
  have hlt : index % 64 < 64 := mod_lt _ (by decide)
  rw [mask, getLsbD_shiftLeft, getLsbD_one]
  by_cases hbit : bit = index % 64
  · simp [hbit, hlt]
  · have hne : bit < index % 64 ∨ bit - index % 64 ≠ 0 := by omega
    rcases hne with hne | hne <;> simp [hne, hbit]

variable (word : BitVec 64) (index : ℕ)

theorem and_mask_ne_zero : word &&& mask index ≠ 0#64 ↔ word.getLsbD (index % 64) = true := by
  constructor
  · intro h
    by_contra hfalse
    apply h
    apply eq_of_getLsbD_eq
    intro bit _
    rw [getLsbD_and, getLsbD_mask]
    by_cases hbit : bit = index % 64
    · simpa [hbit] using hfalse
    · simp [hbit]
  · intro h hzero
    have hbit := congrArg (fun word => word.getLsbD (index % 64)) hzero
    simp [getLsbD_and, getLsbD_mask, h] at hbit

variable (bits : RandomTickSectionBits)

theorem contains_eq : bits.contains index = bitAt bits.words index := by
  rw [Bool.eq_iff_iff, contains, decide_eq_true_iff, and_mask_ne_zero]
  rfl

theorem contains_set {index : ℕ} (hindex : index < bits.sectionCount)
    (randomlyTicking : Bool) (other : ℕ) :
    (bits.set index randomlyTicking).contains other =
      if other = index then randomlyTicking else bits.contains other := by
  have hlt : index / 64 < bits.words.length := by
    rw [bits.length_words]
    omega
  rw [contains_eq, contains_eq, bitAt, bitAt]
  simp only [set, getD_eq_getElem?_getD, List.getElem?_modify]
  by_cases hword : index / 64 = other / 64
  · rw [← hword, List.getElem?_eq_getElem hlt]
    simp only [Option.map_eq_map, Option.map_some, Option.getD_some, ↓reduceIte]
    by_cases hsame : other = index
    · subst hsame
      have hbit : other % 64 < 64 := mod_lt _ (by decide)
      cases randomlyTicking <;> simp [getLsbD_mask, hbit]
    · have hbit : ¬ other % 64 = index % 64 := by omega
      have hlt' : other % 64 < 64 := mod_lt _ (by decide)
      have hmask : (mask index).getLsbD (other % 64) = false := by
        rw [getLsbD_mask, decide_eq_false hbit]
      rw [if_neg hsame]
      cases randomlyTicking
      · simp only [Bool.false_eq_true, ↓reduceIte, getLsbD_and, getLsbD_not, hmask,
          hlt', decide_true, Bool.not_false, Bool.and_true]
      · simp only [↓reduceIte, getLsbD_or, hmask, Bool.or_false]
  · have hsame : other ≠ index := fun heq => hword (by rw [heq])
    simp [hword, hsame]

variable (words : List (BitVec 64))

theorem bitAt_cons : bitAt (word :: words) index =
      if index < 64 then word.getLsbD index else bitAt words (index - 64) := by
  unfold bitAt
  split
  case isTrue hlt => rw [div_eq_of_lt hlt, mod_eq_of_lt hlt, getD_cons_zero]
  case isFalse hge =>
    have hdiv : index / 64 = (index - 64) / 64 + 1 := by omega
    have hmod : index % 64 = (index - 64) % 64 := by omega
    rw [hdiv, hmod, getD_cons_succ]

theorem bitAt_nil : bitAt [] index = false := by
  rw [bitAt, getD_nil]
  exact getLsbD_zero

theorem bitAt_drop (wordIndex index : ℕ) :
    bitAt (words.drop wordIndex) index = bitAt words (wordIndex * 64 + index) := by
  have hdiv : (wordIndex * 64 + index) / 64 = wordIndex + index / 64 := by omega
  have hmod : (wordIndex * 64 + index) % 64 = index % 64 := by omega
  rw [bitAt, bitAt, hdiv, hmod, getD_eq_getElem?_getD, getD_eq_getElem?_getD, List.getElem?_drop]

theorem bitAt_masked {bit : ℕ} (hbit : bit < 64) (index : ℕ) :
    bitAt ((word &&& (BitVec.allOnes 64 <<< bit)) :: words) index = true ↔
      bit ≤ index ∧ bitAt (word :: words) index = true := by
  rw [bitAt_cons, bitAt_cons]
  split
  case isTrue hlt =>
    rw [getLsbD_and, getLsbD_shiftLeft, getLsbD_allOnes]
    by_cases hle : bit ≤ index
    · have hin : index - bit < 64 := by omega
      simp [hlt, hle, hin, not_lt.mpr hle]
    · simp [hle, not_le.mp hle]
  case isFalse hge =>
    have hle : bit ≤ index := by omega
    simp [hle]

theorem nextLoop_of_ne_zero {bits : BitVec 64} (hne : bits ≠ 0#64) (sectionCount wordIndex : ℕ)
    (words : List (BitVec 64)) (index : ℕ) :
    nextLoop sectionCount wordIndex bits words = some index ↔
      IsLeast {other | other < sectionCount ∧ wordIndex * 64 ≤ other ∧
        bitAt (bits :: words) (other - wordIndex * 64) = true} index := by
  obtain ⟨hbit, hbelow⟩ := trailingZeros_spec hne
  have hlt : trailingZeros bits < 64 := by
    by_contra hge
    rw [getLsbD_of_ge _ _ (not_lt.mp hge)] at hbit
    exact absurd hbit (by decide)
  have hleast : ∀ other, wordIndex * 64 ≤ other ∧
      bitAt (bits :: words) (other - wordIndex * 64) = true →
      wordIndex * 64 + trailingZeros bits ≤ other := by
    rintro other ⟨hle, hset⟩
    by_contra hbefore
    rw [bitAt_cons, if_pos (by omega), hbelow _ (by omega)] at hset
    exact absurd hset (by decide)
  have hset : bitAt (bits :: words) (wordIndex * 64 + trailingZeros bits - wordIndex * 64) =
      true := by
    rw [Nat.add_sub_cancel_left, bitAt_cons, if_pos hlt, hbit]
  have heq : nextLoop sectionCount wordIndex bits words =
      if wordIndex * 64 + trailingZeros bits < sectionCount then
        some (wordIndex * 64 + trailingZeros bits) else none := by
    cases words <;> rw [nextLoop, if_pos hne]
  rw [heq]
  split
  case isTrue hcount =>
    have hbits : IsLeast {other | other < sectionCount ∧ wordIndex * 64 ≤ other ∧
        bitAt (bits :: words) (other - wordIndex * 64) = true}
        (wordIndex * 64 + trailingZeros bits) :=
      ⟨⟨hcount, le_add_right _ _, hset⟩, fun other hother => hleast other hother.2⟩
    rw [Option.some.injEq]
    constructor
    · rintro rfl
      exact hbits
    · exact hbits.unique
  case isFalse hcount =>
    constructor
    · simp
    · rintro ⟨⟨hindex, hmem⟩, -⟩
      exact absurd ((hleast index hmem).trans_lt hindex) hcount

/-- The loop finds the lowest bit from its word on, if that is the bit of a section. -/
theorem nextLoop_spec (sectionCount wordIndex : ℕ) (bits : BitVec 64) (words : List (BitVec 64))
    (index : ℕ) :
    nextLoop sectionCount wordIndex bits words = some index ↔
      IsLeast {other | other < sectionCount ∧ wordIndex * 64 ≤ other ∧
        bitAt (bits :: words) (other - wordIndex * 64) = true} index := by
  induction words generalizing wordIndex bits with
  | nil =>
    by_cases hzero : bits = 0#64
    · subst hzero
      constructor
      · simp [nextLoop]
      · rintro ⟨⟨-, -, hset⟩, -⟩
        rw [bitAt_cons, bitAt_nil, getLsbD_zero, ite_self] at hset
        exact absurd hset (by decide)
    · exact nextLoop_of_ne_zero hzero sectionCount wordIndex [] index
  | cons word words ih =>
    by_cases hzero : bits = 0#64
    · subst hzero
      have hstep : nextLoop sectionCount wordIndex 0#64 (word :: words) =
          nextLoop sectionCount (wordIndex + 1) word words := by
        rw [nextLoop, if_neg (not_not.mpr rfl)]
      have hrest : ∀ other, wordIndex * 64 ≤ other ∧
          bitAt (0#64 :: word :: words) (other - wordIndex * 64) = true ↔
          (wordIndex + 1) * 64 ≤ other ∧
            bitAt (word :: words) (other - (wordIndex + 1) * 64) = true := by
        intro other
        have hsub : other - wordIndex * 64 - 64 = other - (wordIndex + 1) * 64 := by omega
        rw [bitAt_cons, hsub]
        split
        case isTrue hlt =>
          have hbefore : ¬ (wordIndex + 1) * 64 ≤ other := by omega
          simp [hbefore]
        case isFalse hge =>
          have hbehind : wordIndex * 64 ≤ other ∧ (wordIndex + 1) * 64 ≤ other := by omega
          simp [hbehind]
      simp only [hstep, ih, hrest]
    · exact nextLoop_of_ne_zero hzero sectionCount wordIndex (word :: words) index

theorem next_eq_some_iff (start index : ℕ) :
    bits.next start = some index ↔ IsLeast {other | other < bits.sectionCount ∧ start ≤ other ∧
        bits.contains other = true} index := by
  unfold next
  split
  case isTrue hcount =>
    constructor
    · simp
    · rintro ⟨⟨hindex, hstart, -⟩, -⟩
      exact absurd (hstart.trans_lt hindex) (not_lt.mpr hcount)
  case isFalse hcount =>
    dsimp only
    rw [nextLoop_spec]
    have hsame : ∀ other, start / 64 * 64 ≤ other ∧
        bitAt ((bits.words.getD (start / 64) 0#64 &&& (BitVec.allOnes 64 <<< (start % 64))) ::
          bits.words.drop (start / 64 + 1)) (other - start / 64 * 64) = true ↔
        start ≤ other ∧ bits.contains other = true := by
      intro other
      have hword : start / 64 < bits.words.length := by
        rw [bits.length_words]
        omega
      have hdrop := bitAt_drop bits.words (start / 64) (other - start / 64 * 64)
      have hget : bits.words.getD (start / 64) 0#64 = bits.words[start / 64] := by
        rw [getD_eq_getElem?_getD, List.getElem?_eq_getElem hword, getD_some]
      rw [drop_eq_getElem_cons hword, ← hget] at hdrop
      rw [bitAt_masked _ _ (mod_lt _ (by decide)), hdrop, contains_eq]
      constructor
      · rintro ⟨hle, hbit, hset⟩
        rw [show start / 64 * 64 + (other - start / 64 * 64) = other by omega] at hset
        exact ⟨by omega, hset⟩
      · rintro ⟨hle, hset⟩
        rw [show start / 64 * 64 + (other - start / 64 * 64) = other by omega]
        exact ⟨by omega, by omega, hset⟩
    simp only [hsame]

theorem contains_new (sectionCount index : ℕ) : (new sectionCount).contains index = false := by
  rw [contains_eq, bitAt, new, getD_eq_getElem?_getD, List.getElem?_replicate]
  split <;> exact getLsbD_zero

end RandomTickSectionBits

namespace Sections

/-- Outside of open guards the bits are those of the sections; an open guard knows the bit that its
section had. -/
structure Indexed (s : Sections) : Prop where
  sectionCount_eq : s.bits.sectionCount = s.sections.length
  closed : ∀ index < s.sections.length, s.guards index = none →
    s.bits.contains index = s.ticking index
  guarded : ∀ index wasRandomlyTicking, s.guards index = some wasRandomlyTicking →
    index < s.sections.length ∧ s.bits.contains index = wasRandomlyTicking

variable (sections : List ChunkSection) (bits : RandomTickSectionBits)

theorem ticking_modify
    (guards : ℕ → Option Bool) {index other : ℕ} (operation : ChunkSection → ChunkSection)
    (h : other ≠ index) :
    ticking ⟨sections.modify index operation, bits, guards⟩ other =
      ticking ⟨sections, bits, guards⟩ other := by
  simp [ticking, h.symm]

variable {s : Sections}

theorem withRandomTickIndex_spec (owned : ChunkSection) {index : ℕ}
    (hindex : index < bits.sectionCount) :
    (withRandomTickIndex bits (owned, index)).sectionCount = bits.sectionCount ∧
    ∀ other, (withRandomTickIndex bits (owned, index)).contains other =
      (bits.contains other || (decide (other = index) && owned.isRandomlyTicking)) := by
  unfold withRandomTickIndex
  split
  case isTrue hticking =>
    refine ⟨rfl, fun other => ?_⟩
    rw [RandomTickSectionBits.contains_set bits hindex, hticking, Bool.and_true]
    by_cases hother : other = index <;> simp [hother]
  case isFalse hticking =>
    refine ⟨rfl, fun other => ?_⟩
    simp [hticking]

theorem foldl_withRandomTickIndex (start : ℕ)
    (bits : RandomTickSectionBits) (hcount : start + sections.length ≤ bits.sectionCount) :
    ((sections.zipIdx start).foldl withRandomTickIndex bits).sectionCount = bits.sectionCount ∧
    ∀ index, ((sections.zipIdx start).foldl withRandomTickIndex bits).contains index =
      (bits.contains index || (decide (start ≤ index) &&
        (sections[index - start]?).any ChunkSection.isRandomlyTicking)) := by
  induction sections generalizing start bits with
  | nil => simp
  | cons owned sections ih =>
    rw [length_cons] at hcount
    obtain ⟨hsame, hfirst⟩ :=
      withRandomTickIndex_spec bits owned (show start < bits.sectionCount by omega)
    obtain ⟨hsame', hothers⟩ := ih (start + 1) (withRandomTickIndex bits (owned, start)) (by omega)
    rw [zipIdx_cons, foldl_cons]
    refine ⟨hsame'.trans hsame, fun index => ?_⟩
    rw [hothers, hfirst, Bool.or_assoc]
    congr 1
    rcases Nat.lt_trichotomy index start with hlt | rfl | hgt
    · have hne : index ≠ start := hlt.ne
      simp [hne, not_le.mpr hlt, not_le.mpr (hlt.trans (Nat.lt_succ_self start))]
    · simp
    · have hsub : index - start = index - (start + 1) + 1 := by omega
      have hne : index ≠ start := hgt.ne'
      simp [hne, hgt.le, Nat.succ_le_of_lt hgt, hsub]

theorem indexed_fromOwned : (fromOwned sections).Indexed := by
  obtain ⟨hcount, hcontains⟩ := foldl_withRandomTickIndex sections 0 (.new sections.length)
    (zero_add _).le
  constructor
  · exact hcount
  · intro index _ _
    refine (hcontains index).trans ?_
    rw [RandomTickSectionBits.contains_new, Bool.false_or, decide_eq_true (Nat.zero_le index),
      Bool.true_and, Nat.sub_zero]
    rfl
  · intro index _ h
    simp [fromOwned] at h

theorem Indexed.write (h : s.Indexed) (index : ℕ) : (s.step (.write index)).Indexed := by
  rw [step]
  split
  case isFalse => exact h
  case isTrue hopen =>
    refine ⟨h.sectionCount_eq, fun other hother hnone => ?_, fun other was hsome => ?_⟩ <;>
      dsimp only at *
    · by_cases hsame : other = index
      · subst hsame
        simp at hnone
      · rw [update_of_ne hsame] at hnone
        exact h.closed other hother hnone
    · by_cases hsame : other = index
      · subst hsame
        rw [Function.update_self] at hsome
        exact ⟨hopen.1, (h.closed other hopen.1 hopen.2).trans (Option.some.inj hsome)⟩
      · rw [update_of_ne hsame] at hsome
        exact h.guarded other was hsome

theorem Indexed.change (h : s.Indexed) (index : ℕ) (operation : ChunkSection → ChunkSection) :
    (s.step (.change index operation)).Indexed := by
  rw [step]
  split
  case isFalse => exact h
  case isTrue hheld =>
    refine ⟨?_, fun other hother hnone => ?_, fun other was hsome => ?_⟩
    · exact h.sectionCount_eq.trans (length_modify _ _ _).symm
    · have hsame : other ≠ index := by
        rintro rfl
        rw [hnone] at hheld
        simp at hheld
      rw [length_modify] at hother
      rw [ticking_modify s.sections s.bits s.guards operation hsame]
      exact h.closed other hother hnone
    · rw [length_modify]
      exact h.guarded other was hsome

theorem Indexed.drop (h : s.Indexed) (index : ℕ) : (s.step (.drop index)).Indexed := by
  rw [step]
  split
  case h_1 => exact h
  case h_2 was hheld =>
    obtain ⟨hindex, hbit⟩ := h.guarded index was hheld
    have hcount : index < s.bits.sectionCount := by rwa [h.sectionCount_eq]
    generalize hbits : (if s.ticking index ≠ was then s.bits.set index (s.ticking index)
      else s.bits) = bits
    have hcontains : bits.sectionCount = s.bits.sectionCount ∧ ∀ other, bits.contains other =
        if other = index then s.ticking index else s.bits.contains other := by
      rw [← hbits]
      split
      case isTrue => exact ⟨rfl, RandomTickSectionBits.contains_set s.bits hcount _⟩
      case isFalse hsame =>
        refine ⟨rfl, fun other => ?_⟩
        split
        case isTrue hother => rw [hother, hbit, not_not.mp hsame]
        case isFalse => rfl
    dsimp only
    rw [hbits]
    refine ⟨hcontains.1.trans h.sectionCount_eq, fun other hother hnone => ?_,
      fun other was' hsome => ?_⟩ <;> dsimp only at *
    · refine (hcontains.2 other).trans ?_
      split
      case isTrue hsame => rw [hsame]; rfl
      case isFalse hsame =>
        rw [update_of_ne hsame] at hnone
        exact h.closed other hother hnone
    · have hsame : other ≠ index := by
        rintro rfl
        simp at hsome
      rw [update_of_ne hsame] at hsome
      obtain ⟨hother, hbit'⟩ := h.guarded other was' hsome
      refine ⟨hother, (hcontains.2 other).trans ?_⟩
      rw [if_neg hsame, hbit']

theorem Indexed.runs (h : s.Indexed) (ops : List Op) : (runSteps step s ops).Indexed := by
  induction ops generalizing s with
  | nil => exact h
  | cons op ops ih =>
    cases op with
    | write index => exact ih (h.write index)
    | change index operation => exact ih (h.change index operation)
    | drop index => exact ih (h.drop index)

/-- The bit of a section is exact whenever no guard of the section is open. With no open guards the
scan gives the first section from its start on that ticks, if there is one. -/
structure IndexExact (s : Sections) : Prop where
  bit : ∀ index < s.sections.length, s.guards index = none →
    s.bits.contains index = s.ticking index
  next_eq : (∀ index, s.guards index = none) → ∀ start index,
    s.bits.next start = some index ↔
      IsLeast {other | start ≤ other ∧ s.ticking other = true} index
  next_none : (∀ index, s.guards index = none) → ∀ start,
    s.bits.next start = none ↔ ∀ other, start ≤ other → s.ticking other = false

theorem lt_of_ticking {index : ℕ} (h : s.ticking index = true) : index < s.sections.length := by
  by_contra hge
  rw [ticking, List.getElem?_eq_none (not_lt.mp hge)] at h
  simp at h

theorem Indexed.indexExact (h : s.Indexed) : s.IndexExact := by
  have hset : (∀ index, s.guards index = none) → ∀ start,
      {other | other < s.bits.sectionCount ∧ start ≤ other ∧ s.bits.contains other = true} =
        {other | start ≤ other ∧ s.ticking other = true} := by
    intro hclosed start
    ext other
    simp only [Set.mem_ofPred_eq, h.sectionCount_eq]
    constructor
    · rintro ⟨hlt, hle, hbit⟩
      exact ⟨hle, (h.closed other hlt (hclosed other)).symm.trans hbit⟩
    · rintro ⟨hle, hticking⟩
      have hlt := lt_of_ticking hticking
      exact ⟨hlt, hle, (h.closed other hlt (hclosed other)).trans hticking⟩
  have hnext : (∀ index, s.guards index = none) → ∀ start index, s.bits.next start = some index ↔
        IsLeast {other | start ≤ other ∧ s.ticking other = true} index := by
    intro hclosed start index
    rw [RandomTickSectionBits.next_eq_some_iff, hset hclosed]
  refine ⟨h.closed, hnext, fun hclosed start => ?_⟩
  constructor
  · intro hnone other hle
    by_contra hticking
    rw [Bool.not_eq_false] at hticking
    have hexists : ∃ other, start ≤ other ∧ s.ticking other = true := ⟨other, hle, hticking⟩
    have hleast := (hnext hclosed start (Nat.find hexists)).mpr
      ⟨Nat.find_spec hexists, fun _ hother => Nat.find_min' hexists hother⟩
    rw [hnone] at hleast
    simp at hleast
  · intro hnot
    rw [eq_none_iff_forall_ne_some]
    intro index hindex
    obtain ⟨⟨hle, hticking⟩, -⟩ := (hnext hclosed start index).mp hindex
    rw [hnot index hle] at hticking
    exact absurd hticking (by decide)

/-- However writers take locks, change sections and let go of locks, the index follows. -/
theorem random_tick_index_exact (sections : List ChunkSection) (ops : List Op) :
    (runSteps step (fromOwned sections) ops).IndexExact :=
  ((indexed_fromOwned sections).runs ops).indexExact

end Sections

end Steel
