import Mathlib.Tactic.Common

/-! # Surfaces of columns

The surface of a column of cells is one above its highest marked cell, and at the bottom if no cell
is marked.
-/

namespace Steel

open Bool Nat

/-- The marked cells of a column of height `n` end at `h`. -/
structure IsSurface (marked : ℕ → Bool) (n h : ℕ) : Prop where
  le : h ≤ n
  above : ∀ i, h ≤ i → i < n → marked i = false
  below : ∀ i, h = i + 1 → marked i = true

def surface (marked : ℕ → Bool) : ℕ → ℕ
  | 0 => 0
  | n + 1 => if marked n then n + 1 else surface marked n

variable {marked marked' : ℕ → Bool} {n h h' : ℕ}

theorem IsSurface.of_unmarked (h : ∀ i < n, marked i = false) : IsSurface marked n 0 where
  le := zero_le n
  above i _ hi := h i hi
  below i hi := by cases hi

theorem isSurface_surface (marked : ℕ → Bool) (n : ℕ) : IsSurface marked n (surface marked n) := by
  induction n with
  | zero => exact .of_unmarked nofun
  | succ n ih =>
    rw [surface]
    split
    · rename_i hmarked
      constructor
      · exact Nat.le_refl _
      · intro i hle hlt
        omega
      · rintro i hi
        cases hi
        exact hmarked
    · rename_i hmarked
      constructor
      · exact Nat.le_succ_of_le ih.le
      · intro i hle hlt
        rcases Nat.lt_succ_iff_lt_or_eq.1 hlt with hlt | rfl
        · exact ih.above i hle hlt
        · exact not_eq_true _ ▸ hmarked
      · exact ih.below

namespace IsSurface

theorem unique (hs : IsSurface marked n h) (hs' : IsSurface marked n h') : h = h' := by
  have hle {h h' : ℕ} (hs : IsSurface marked n h) (hs' : IsSurface marked n h') : h ≤ h' := by
    cases h with
    | zero => exact zero_le _
    | succ i =>
      by_contra hlt
      have habove := hs'.above i (by omega) hs.le
      rw [hs.below i rfl] at habove
      cases habove
  exact Nat.le_antisymm (hle hs hs') (hle hs' hs)

theorem congr (hs : IsSurface marked n h) (heq : ∀ i < n, marked i = marked' i) :
    IsSurface marked' n h where
  le := hs.le
  above i hle hlt := (heq i hlt).symm.trans (hs.above i hle hlt)
  below i hi := by
    have hlt : i < n := Nat.lt_of_lt_of_le (by omega) hs.le
    exact (heq i hlt).symm.trans (hs.below i hi)

theorem eq_zero_iff (hs : IsSurface marked n h) : h = 0 ↔ ∀ i < n, marked i = false := by
  constructor
  · rintro rfl i hi
    exact hs.above i (zero_le i) hi
  · intro hall
    exact hs.unique (.of_unmarked hall)

theorem of_shorter {m : ℕ} (hs : IsSurface marked m h) (hm : m ≤ n)
    (habove : ∀ i, m ≤ i → i < n → marked i = false) : IsSurface marked n h where
  le := Nat.le_trans hs.le hm
  above i hle hlt := by
    rcases Nat.lt_or_ge i m with hi | hi
    · exact hs.above i hle hi
    · exact habove i hi hlt
  below := hs.below

/-- Hiding marked cells does not change the surface if there are higher ones that can be seen. -/
theorem eq_iff_of_hidden {hidden : ℕ → Bool} (hs : IsSurface marked n h)
    (hs' : IsSurface (fun i => marked i && !hidden i) n h') :
    h = h' ↔ ∀ i < n, marked i = true → hidden i = true →
      ∃ j, i < j ∧ j < n ∧ marked j = true ∧ hidden j = false := by
  constructor
  · rintro rfl i hi hmark hhidden
    cases h with
    | zero =>
      rw [hs.above i (zero_le i) hi] at hmark
      cases hmark
    | succ j =>
      have htop : marked j = true ∧ hidden j = false := by simpa using hs'.below j rfl
      have hle : i ≤ j := by
        by_contra hlt
        rw [hs.above i (by omega) hi] at hmark
        cases hmark
      have hne : i ≠ j := by
        rintro rfl
        rw [htop.2] at hhidden
        cases hhidden
      exact ⟨j, by omega, hs.le, htop⟩
  · intro hall
    refine hs'.unique ?_ |>.symm
    constructor
    · exact hs.le
    · intro i hle hlt
      rw [hs.above i hle hlt, Bool.false_and]
    · rintro i rfl
      rw [hs.below i rfl, Bool.true_and, Bool.not_eq_true']
      by_contra hhidden
      obtain ⟨j, hlt, hn, hmark, -⟩ := hall i hs.le (hs.below i rfl) (eq_true_of_ne_false hhidden)
      rw [hs.above j hlt hn] at hmark
      cases hmark

theorem of_top {k : ℕ} (hk : k < n) (hmark : marked k = true)
    (habove : ∀ i, k < i → i < n → marked i = false) : IsSurface marked n (k + 1) where
  le := hk
  above i hle hlt := habove i hle hlt
  below i hi := by
    cases hi
    exact hmark

theorem congr_above (hs : IsSurface marked n h)
    (heq : ∀ i, h ≤ i + 1 → i < n → marked i = marked' i) : IsSurface marked' n h where
  le := hs.le
  above i hle hlt := by
    rw [← heq i (Nat.le_succ_of_le hle) hlt]
    exact hs.above i hle hlt
  below i hi := by
    have hle := hs.le
    rw [← heq i (Nat.le_of_eq hi) (by omega)]
    exact hs.below i hi

variable {y : ℕ}

section

variable (hs : IsSurface marked n h) (heq : ∀ i ≠ y, marked i = marked' i)

include hs heq

/-- A change well below the surface, or one that marks the cell right below it. -/
theorem of_lt (hy : y < h) (hmark : h = y + 1 → marked' y = true) : IsSurface marked' n h where
  le := hs.le
  above i hle hlt := by
    rw [← heq i (by omega)]
    exact hs.above i hle hlt
  below i hi := by
    by_cases hiy : i = y
    · subst hiy
      exact hmark hi
    · rw [← heq i hiy]
      exact hs.below i hi

theorem of_marked (hle : h ≤ y) (hlt : y < n) (hmark : marked' y = true) :
    IsSurface marked' n (y + 1) where
  le := hlt
  above i hi hn := by
    rw [← heq i (by omega)]
    exact hs.above i (by omega) hn
  below i hi := by
    cases hi
    exact hmark

theorem of_unmarked_above (hle : h ≤ y) (hmark : marked' y = false) : IsSurface marked' n h where
  le := hs.le
  above i hi hn := by
    by_cases hiy : i = y
    · rwa [hiy]
    · rw [← heq i hiy]
      exact hs.above i hi hn
  below i hi := by
    rw [← heq i (by omega)]
    exact hs.below i hi

end

theorem of_unmarked_top (hs : IsSurface marked n (y + 1)) (heq : ∀ i ≠ y, marked i = marked' i)
    (hmark : marked' y = false) : IsSurface marked' n (surface marked' y) := by
  refine (isSurface_surface marked' y).of_shorter (Nat.le_of_succ_le hs.le) fun i hi hn => ?_
  rcases Nat.eq_or_lt_of_le hi with rfl | hlt
  · exact hmark
  · rw [← heq i (by omega)]
    exact hs.above i hlt hn

end IsSurface

/-- The marked cells from `k` on. -/
def markedFrom (marked : ℕ → Bool) (k i : ℕ) : Bool := decide (k ≤ i) && marked i

theorem IsSurface.of_markedFrom_pos {k : ℕ} (hs : IsSurface (markedFrom marked k) n h)
    (hpos : 0 < h) {k' : ℕ} (hk : k' ≤ k) : IsSurface (markedFrom marked k') n h := by
  obtain ⟨top, rfl⟩ := Nat.exists_eq_succ_of_ne_zero (Nat.ne_of_gt hpos)
  have htop : k ≤ top ∧ marked top = true := by simpa [markedFrom] using hs.below top rfl
  constructor
  · exact hs.le
  · intro i hle hlt
    have habove : markedFrom marked k i = false := hs.above i hle hlt
    simp only [markedFrom, and_eq_false_iff, decide_eq_false_iff_not] at habove ⊢
    exact .inr (habove.resolve_left (by omega))
  · rintro i hi
    cases hi
    simp [markedFrom, Nat.le_trans hk htop.1, htop.2]

theorem IsSurface.markedFrom_of_zero {k : ℕ} (hs : IsSurface (markedFrom marked (k + 1)) n 0)
    (hk : k < n) : IsSurface (markedFrom marked k) n (if marked k then k + 1 else 0) := by
  have habove (i : ℕ) (hi : k + 1 ≤ i) (hlt : i < n) : marked i = false := by
    simpa [markedFrom, hi] using hs.above i (Nat.zero_le i) hlt
  split
  · rename_i hmarked
    constructor
    · exact hk
    · intro i hle hlt
      simp [markedFrom, habove i hle hlt]
    · rintro i hi
      cases hi
      simp [markedFrom, hmarked]
  · rename_i hmarked
    refine .of_unmarked fun i hlt => ?_
    rw [markedFrom, and_eq_false_iff]
    rcases Nat.lt_trichotomy i k with hi | rfl | hi
    · exact .inl (by simpa using hi)
    · exact .inr (by simpa using hmarked)
    · exact .inr (habove i hi hlt)

theorem IsSurface.markedFrom_step {k : ℕ} (hs : IsSurface (markedFrom marked (k + 1)) n h)
    (hk : k < n) :
    IsSurface (markedFrom marked k) n (if h = 0 ∧ marked k = true then k + 1 else h) := by
  rcases Nat.eq_zero_or_pos h with rfl | hpos
  · simpa using hs.markedFrom_of_zero hk
  · rw [if_neg fun hfound => Nat.ne_of_gt hpos hfound.1]
    exact hs.of_markedFrom_pos hpos (Nat.le_succ k)

theorem isSurface_markedFrom_top (marked : ℕ → Bool) (n : ℕ) :
    IsSurface (markedFrom marked n) n 0 :=
  .of_unmarked fun i hi => by simp [markedFrom, Nat.not_le.2 hi]

theorem isSurface_markedFrom_zero : IsSurface (markedFrom marked 0) n h ↔ IsSurface marked n h := by
  have heq : markedFrom marked 0 = marked := by
    funext i
    simp [markedFrom]
  rw [heq]

end Steel
