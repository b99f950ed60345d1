import Mathlib.Data.Finset.Basic
import Mathlib.Tactic.Linarith
import Mathlib.Tactic.Ring

/-! # Views of chunks

The view of a player is a disc of chunks. When it changes, the chunks that come and those that go
are found by a scan of the bounding square of both discs, or by two scans when they are far apart.
-/

namespace Steel

open List Bool

abbrev ChunkCoords := ℤ × ℤ

structure PlayerChunkView where
  center : ChunkCoords
  viewDistance : ℕ
  deriving DecidableEq

/-- `a..=b` -/
def rangeInclusive (a b : ℤ) : List ℤ := (List.range (b + 1 - a).toNat).map fun i : ℕ => a + i

@[simp] theorem mem_rangeInclusive {a b x : ℤ} : x ∈ rangeInclusive a b ↔ a ≤ x ∧ x ≤ b := by
  simp only [rangeInclusive, mem_map, mem_range]
  constructor
  · rintro ⟨i, hi, rfl⟩
    omega
  · rintro ⟨ha, hb⟩
    exact ⟨(x - a).toNat, by omega, by omega⟩

namespace PlayerChunkView

variable (view : PlayerChunkView)

def minX : ℤ := view.center.1 - view.viewDistance - 1

def maxX : ℤ := view.center.1 + view.viewDistance + 1

def minZ : ℤ := view.center.2 - view.viewDistance - 1

def maxZ : ℤ := view.center.2 + view.viewDistance + 1

def isWithinDistance (centerX centerZ viewDistance chunkX chunkZ : ℤ) (includeNeighbors : Bool) :
    Bool :=
  let bufferRange : ℤ := if includeNeighbors then 2 else 1
  let deltaX := max 0 (|chunkX - centerX| - bufferRange)
  let deltaZ := max 0 (|chunkZ - centerZ| - bufferRange)
  let distanceSquared := deltaX * deltaX + deltaZ * deltaZ
  let radiusSquared := viewDistance * viewDistance
  distanceSquared < radiusSquared

def contains (pos : ChunkCoords) : Bool :=
  isWithinDistance view.center.1 view.center.2 view.viewDistance pos.1 pos.2 true

/-- The chunks of the view in the order of `for_each`. -/
def chunks : List ChunkCoords :=
  (rangeInclusive view.minX view.maxX).flatMap fun x =>
    ((rangeInclusive view.minZ view.maxZ).map fun z => (x, z)).filter view.contains

def squareIntersects (view other : PlayerChunkView) : Bool :=
  view.minX ≤ other.maxX && view.maxX ≥ other.minX && view.minZ ≤ other.maxZ &&
    view.maxZ ≥ other.minZ

/-- The chunks that are added, and those that are removed. -/
def difference (old new : PlayerChunkView) : List ChunkCoords × List ChunkCoords :=
  if old = new then ([], [])
  else if old.squareIntersects new then
    let scan := (rangeInclusive (min old.minX new.minX) (max old.maxX new.maxX)).flatMap fun x =>
      (rangeInclusive (min old.minZ new.minZ) (max old.maxZ new.maxZ)).map fun z => (x, z)
    let changed := scan.filter fun pos => old.contains pos ≠ new.contains pos
    (changed.filter new.contains, changed.filter fun pos => !new.contains pos)
  else (new.chunks, old.chunks)

theorem abs_sub_le_of_sq_lt {x center distance rest : ℤ} (hdistance : 0 ≤ distance)
    (hrest : 0 ≤ rest)
    (h : max 0 (|x - center| - 2) * max 0 (|x - center| - 2) + rest < distance * distance) :
    center - distance - 1 ≤ x ∧ x ≤ center + distance + 1 := by
  have hlt : max 0 (|x - center| - 2) < distance := by
    by_contra hge
    have hsq := mul_self_le_mul_self hdistance (not_lt.1 hge)
    linarith
  have habs : |x - center| ≤ distance + 1 := by
    have := le_max_right 0 (|x - center| - 2)
    linarith
  have := abs_le.1 habs
  constructor <;> linarith

variable {view : PlayerChunkView} {pos : ChunkCoords}

theorem square_of_contains (h : view.contains pos) :
    (view.minX ≤ pos.1 ∧ pos.1 ≤ view.maxX) ∧ (view.minZ ≤ pos.2 ∧ pos.2 ≤ view.maxZ) := by
  simp only [contains, isWithinDistance, if_true, decide_eq_true_eq] at h
  constructor
  · exact abs_sub_le_of_sq_lt (Int.natCast_nonneg _) (mul_self_nonneg _) h
  · rw [add_comm] at h
    exact abs_sub_le_of_sq_lt (Int.natCast_nonneg _) (mul_self_nonneg _) h

theorem mem_chunks : pos ∈ view.chunks ↔ view.contains pos := by
  simp only [chunks, mem_flatMap, mem_filter, mem_map, mem_rangeInclusive]
  constructor
  · rintro ⟨x, hx, -, h⟩
    exact h
  · intro h
    obtain ⟨hx, hz⟩ := square_of_contains h
    exact ⟨pos.1, hx, ⟨pos.2, hz, rfl⟩, h⟩

theorem not_contains_of_not_squareIntersects {other : PlayerChunkView}
    (hsquare : view.squareIntersects other = false) (h : view.contains pos) :
    other.contains pos = false := by
  rw [eq_false_iff]
  intro h'
  obtain ⟨hx, hz⟩ := square_of_contains h
  obtain ⟨hx', hz'⟩ := square_of_contains h'
  have hmeet : view.squareIntersects other = true := by
    simp only [squareIntersects, and_eq_true, decide_eq_true_eq, ge_iff_le]
    omega
  rw [hmeet] at hsquare
  cases hsquare

theorem mem_difference {old new : PlayerChunkView} :
    (pos ∈ (difference old new).1 ↔ new.contains pos ∧ ¬ old.contains pos) ∧
      (pos ∈ (difference old new).2 ↔ old.contains pos ∧ ¬ new.contains pos) := by
  unfold difference
  split_ifs with heq hsquare
  · subst heq
    simp
  · have hscan : old.contains pos ∨ new.contains pos →
        pos ∈ (rangeInclusive (min old.minX new.minX) (max old.maxX new.maxX)).flatMap fun x =>
          (rangeInclusive (min old.minZ new.minZ) (max old.maxZ new.maxZ)).map fun z => (x, z) := by
      intro h
      simp only [mem_flatMap, mem_map, mem_rangeInclusive]
      have hsquare : ∃ view, (view = old ∨ view = new) ∧ view.contains pos := by
        rcases h with h | h
        · exact ⟨old, Or.inl rfl, h⟩
        · exact ⟨new, Or.inr rfl, h⟩
      obtain ⟨view, hview, h⟩ := hsquare
      obtain ⟨hx, hz⟩ := square_of_contains h
      refine ⟨pos.1, ?_, pos.2, ?_, rfl⟩ <;> rcases hview with rfl | rfl <;> omega
    simp only [mem_filter, decide_eq_true_eq, ne_eq, not_eq_true']
    cases hold : old.contains pos <;> cases hnew : new.contains pos <;> simp_all
  · rw [not_eq_true] at hsquare
    rw [mem_chunks, mem_chunks]
    constructor
    · constructor
      · intro h
        refine ⟨h, fun hold => ?_⟩
        rw [not_contains_of_not_squareIntersects hsquare hold] at h
        cases h
      · exact fun h => h.1
    · constructor
      · intro h
        refine ⟨h, ?_⟩
        rw [not_contains_of_not_squareIntersects hsquare h]
        exact false_ne_true
      · exact fun h => h.1

end PlayerChunkView

end Steel
