import Mathlib.Algebra.Group.Pi.Lemmas
import Mathlib.Algebra.BigOperators.Group.Multiset.Basic
import Mathlib.Tactic.Abel

/-! # Item stacks

A stack is a kind of item, with its components, and a count. A stack of air or
without a positive count is empty, whatever its kind is.
-/

namespace Steel

/-- Items with their components. Item 0 is air. The range of the stack size is the one of
its component. -/
class ItemKind (κ : Type) where
  item : κ → ℕ
  air : κ
  item_air : item air = 0
  maxStackSize : κ → ℤ
  one_le_maxStackSize : ∀ k, 1 ≤ maxStackSize k
  maxStackSize_le : ∀ k, maxStackSize k ≤ 99
  isDamaged : κ → Bool

structure ItemStack (κ : Type) where
  kind : κ
  count : ℤ
  deriving DecidableEq

namespace ItemStack

variable {κ : Type} [ItemKind κ]

def empty : ItemStack κ := ⟨ItemKind.air, 0⟩

variable (s : ItemStack κ)

def IsEmpty : Prop := ItemKind.item s.kind = 0 ∨ s.count ≤ 0

instance (s : ItemStack κ) : Decidable s.IsEmpty :=
  inferInstanceAs (Decidable (ItemKind.item s.kind = 0 ∨ s.count ≤ 0))

def item (s : ItemStack κ) : ℕ := if s.IsEmpty then 0 else ItemKind.item s.kind

/-- The count that `count()` shows. -/
def shownCount : ℤ := if s.IsEmpty then 0 else s.count

def maxStackSize (s : ItemStack κ) : ℤ := ItemKind.maxStackSize s.kind

def isStackable : Bool :=
  decide (1 < s.maxStackSize) && !ItemKind.isDamaged s.kind

def setCount (count : ℤ) : ItemStack κ := ⟨s.kind, count⟩

def grow (amount : ℤ) : ItemStack κ := ⟨s.kind, s.count + amount⟩

def shrink (amount : ℤ) : ItemStack κ := ⟨s.kind, s.count - amount⟩

def split (amount : ℤ) : ItemStack κ × ItemStack κ :=
  let take := min amount s.count
  (⟨s.kind, take⟩, s.shrink take)

def copyWithCount (count : ℤ) : ItemStack κ :=
  if s.IsEmpty then empty else ⟨s.kind, count⟩

def IsSameItem (a b : ItemStack κ) : Prop := a.item = b.item

instance (a b : ItemStack κ) : Decidable (a.IsSameItem b) :=
  inferInstanceAs (Decidable (a.item = b.item))

def IsSameItemSameComponents (a b : ItemStack κ) : Prop :=
  a.IsSameItem b ∧ (a.IsEmpty ∧ b.IsEmpty ∨ a.kind = b.kind)

instance [DecidableEq κ] (a b : ItemStack κ) : Decidable (a.IsSameItemSameComponents b) :=
  inferInstanceAs (Decidable (a.IsSameItem b ∧ (a.IsEmpty ∧ b.IsEmpty ∨ a.kind = b.kind)))

@[simp] theorem isEmpty_empty : (empty : ItemStack κ).IsEmpty := .inr (Int.le_refl 0)

variable {s : ItemStack κ}

theorem count_pos (h : ¬ s.IsEmpty) : 0 < s.count := by
  by_contra hc
  exact h (.inr (by omega))

theorem item_kind_ne_zero (h : ¬ s.IsEmpty) : ItemKind.item s.kind ≠ 0 :=
  fun h0 => h (.inl h0)

variable {a b : ItemStack κ}

theorem not_isEmpty_of_same (h : a.IsSameItem b) (hb : ¬ b.IsEmpty) : ¬ a.IsEmpty := by
  intro ha
  rw [IsSameItem, item, item, if_pos ha, if_neg hb] at h
  exact hb (.inl h.symm)

theorem kind_eq_of_same (h : a.IsSameItemSameComponents b)
    (hb : ¬ b.IsEmpty) : a.kind = b.kind := by
  obtain ⟨-, ⟨-, hempty⟩ | hkind⟩ := h
  · exact absurd hempty hb
  · exact hkind

theorem not_isEmpty_mk (h : ¬ s.IsEmpty) {count : ℤ} (hcount : 0 < count) :
    ¬ (⟨s.kind, count⟩ : ItemStack κ).IsEmpty := by
  rintro (h0 | h0)
  · exact h (.inl h0)
  · exact absurd h0 (Int.not_le.mpr hcount)

section Amount

variable [DecidableEq κ]

def amount (s : ItemStack κ) : κ → ℤ := if s.IsEmpty then 0 else Pi.single s.kind s.count

def bag (s : ItemStack κ) : Multiset κ :=
  if s.IsEmpty then 0 else Multiset.replicate s.count.toNat s.kind

theorem count_bag (s : ItemStack κ) (k : κ) : (Multiset.count k s.bag : ℤ) = s.amount k := by
  unfold bag amount
  by_cases h : s.IsEmpty
  · simp [h]
  · have hpos := count_pos h
    by_cases hk : s.kind = k
    · subst hk
      simp [h, Int.toNat_of_nonneg (Int.le_of_lt hpos)]
    · simp [h, Multiset.count_replicate, hk, Ne.symm hk]

theorem amount_of_isEmpty {s : ItemStack κ} (h : s.IsEmpty) : s.amount = 0 := if_pos h

@[simp] theorem amount_empty : (empty : ItemStack κ).amount = 0 := amount_of_isEmpty isEmpty_empty

theorem amount_mk {k : κ} {count : ℤ} (hcount : 0 ≤ count) :
    (⟨k, count⟩ : ItemStack κ).amount = if ItemKind.item k = 0 then 0 else Pi.single k count := by
  unfold amount IsEmpty
  by_cases hk : ItemKind.item k = 0
  · simp [hk]
  · by_cases hzero : count = 0
    · simp [hk, hzero]
    · have hpos : ¬ count ≤ 0 := by omega
      simp [hk, hpos]

theorem amount_add_amount {k : κ} {a b c d : ℤ} (ha : 0 ≤ a) (hb : 0 ≤ b) (hc : 0 ≤ c)
    (hd : 0 ≤ d) (h : a + b = c + d) :
    (⟨k, a⟩ : ItemStack κ).amount + (⟨k, b⟩ : ItemStack κ).amount =
      (⟨k, c⟩ : ItemStack κ).amount + (⟨k, d⟩ : ItemStack κ).amount := by
  rw [amount_mk ha, amount_mk hb, amount_mk hc, amount_mk hd]
  split_ifs
  · rfl
  · rw [← Pi.single_add, ← Pi.single_add, h]

theorem amount_zero {k : κ} : (⟨k, 0⟩ : ItemStack κ).amount = 0 :=
  amount_of_isEmpty (.inr (Int.le_refl 0))

theorem amount_split (s : ItemStack κ) {n : ℤ} (hn : 0 ≤ n) (hle : n ≤ s.count) :
    (⟨s.kind, n⟩ : ItemStack κ).amount + (s.shrink n).amount = s.amount := by
  have h := amount_add_amount (k := s.kind) (a := n) (b := s.count - n) (c := s.count) (d := 0)
    hn (by omega) (by omega) (by omega) (by omega)
  rw [amount_zero, add_zero] at h
  exact h

theorem amount_grow (s : ItemStack κ) (hs : 0 ≤ s.count) {n : ℤ} (hn : 0 ≤ n) :
    (s.grow n).amount = s.amount + (⟨s.kind, n⟩ : ItemStack κ).amount := by
  have h := amount_add_amount (k := s.kind) (a := s.count + n) (b := 0) (c := s.count) (d := n)
    (by omega) (by omega) hs hn (by omega)
  rw [amount_zero, add_zero] at h
  exact h

theorem amount_transfer (hkind : a.kind = b.kind) (ha : 0 ≤ a.count) {n : ℤ}
    (hn : 0 ≤ n) (hle : n ≤ b.count) :
    (a.grow n).amount + (b.shrink n).amount = a.amount + b.amount := by
  obtain ⟨k, count⟩ := a
  obtain rfl : k = b.kind := hkind
  have ha' : 0 ≤ count := ha
  exact amount_add_amount (by omega) (by omega) ha (by omega) (by dsimp only; omega)

end Amount

end ItemStack

end Steel
