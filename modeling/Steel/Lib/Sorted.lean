import Mathlib.Data.List.Nodup
import Mathlib.Order.Lattice

/-! # Sorted collections

A priority queue and an ordered set, both kept as sorted lists. The least item
comes first; items of the same key leave a queue in the order in which they
entered it.
-/

namespace Steel

open List

variable {α κ : Type} [LinearOrder κ]

def insertSorted (key : α → κ) (a : α) : List α → List α
  | [] => [a]
  | b :: l => if key a < key b then a :: b :: l else b :: insertSorted key a l

theorem insertSorted_perm (key : α → κ) (a : α) (l : List α) :
    (insertSorted key a l).Perm (a :: l) := by
  induction l with
  | nil => rfl
  | cons b l ih =>
    unfold insertSorted
    split
    · rfl
    · exact (ih.cons b).trans (List.Perm.swap a b l)

variable {key : α → κ} {l : List α}

theorem mem_insertSorted {a b : α} : b ∈ insertSorted key a l ↔ b = a ∨ b ∈ l := by
  rw [(insertSorted_perm key a l).mem_iff, mem_cons]

theorem pairwise_insertSorted (a : α) (h : l.Pairwise fun b c => key b ≤ key c) :
    (insertSorted key a l).Pairwise fun b c => key b ≤ key c := by
  induction l with
  | nil => exact pairwise_singleton _ a
  | cons b l ih =>
    obtain ⟨hb, hl⟩ := pairwise_cons.mp h
    unfold insertSorted
    split
    case isTrue hlt =>
      refine pairwise_cons.mpr ⟨?_, h⟩
      intro c hc
      rcases mem_cons.mp hc with rfl | hc
      · exact hlt.le
      · exact hlt.le.trans (hb c hc)
    case isFalse hge =>
      refine pairwise_cons.mpr ⟨?_, ih hl⟩
      intro c hc
      rcases mem_insertSorted.mp hc with rfl | hc
      · exact not_lt.mp hge
      · exact hb c hc

theorem findIdx?_congr {p q : α → Bool} (h : ∀ a ∈ l, p a = q a) : l.findIdx? p = l.findIdx? q := by
  induction l with
  | nil => rfl
  | cons a l ih =>
    rw [List.findIdx?_cons, List.findIdx?_cons, h a mem_cons_self,
      ih fun b hb => h b (mem_cons_of_mem a hb)]

theorem insertIdx_findIdx (key : α → κ) (a : α) (l : List α) :
    l.insertIdx (l.findIdx fun b => decide (key a < key b)) a = insertSorted key a l := by
  induction l with
  | nil => rfl
  | cons b l ih =>
    rw [findIdx_cons, insertSorted]
    by_cases hlt : key a < key b
    · simp [hlt]
    · simp [hlt, ih]

theorem pairwise_lt_insertSorted {a : α} (h : l.Pairwise fun b c => key b < key c)
    (hne : ∀ b ∈ l, key b ≠ key a) : (insertSorted key a l).Pairwise fun b c => key b < key c := by
  have hle := pairwise_insertSorted a (h.imp fun hlt => hlt.le)
  have hdistinct : (insertSorted key a l).Pairwise fun b c => key b ≠ key c := by
    rw [(insertSorted_perm key a l).pairwise_iff fun hbc => Ne.symm hbc, pairwise_cons]
    exact ⟨fun b hb => (hne b hb).symm, h.imp fun hlt => hlt.ne⟩
  exact (hle.and hdistinct).imp fun hbc => lt_of_le_of_ne hbc.1 hbc.2

/-- A priority queue; the item with the least key comes first. -/
structure PriorityQueue (α : Type) (key : α → κ) where
  items : List α
  sorted : items.Pairwise fun a b => key a ≤ key b

namespace PriorityQueue

variable {key : α → κ}

def empty : PriorityQueue α key := ⟨[], List.Pairwise.nil⟩

variable (q : PriorityQueue α key)

def push (a : α) : PriorityQueue α key :=
  ⟨insertSorted key a q.items, pairwise_insertSorted a q.sorted⟩

def peek : Option α := q.items.head?

def rest : PriorityQueue α key :=
  ⟨q.items.tail, q.sorted.tail⟩

def pop : Option (α × PriorityQueue α key) :=
  q.peek.map fun a => (a, q.rest)

@[simp] theorem items_empty : (empty : PriorityQueue α key).items = [] := rfl

@[simp] theorem items_rest : q.rest.items = q.items.tail := rfl

theorem items_push_perm (a : α) :
    (q.push a).items.Perm (a :: q.items) := insertSorted_perm key a q.items

@[simp] theorem mem_push {q : PriorityQueue α key} {a b : α} :
    b ∈ (q.push a).items ↔ b = a ∨ b ∈ q.items := mem_insertSorted

variable {q : PriorityQueue α key}

theorem peek_eq_none : q.peek = none ↔ q.items = [] :=
  List.head?_eq_none_iff

theorem items_of_peek {a : α} (h : q.peek = some a) : q.items = a :: q.rest.items := by
  obtain ⟨l, hl⟩ := List.head?_eq_some_iff.mp h
  rw [items_rest, hl, tail_cons]

theorem mem_of_peek {a : α} (h : q.peek = some a) : a ∈ q.items := by
  rw [items_of_peek h]
  exact mem_cons_self

theorem key_le_of_peek {a b : α} (h : q.peek = some a) (hb : b ∈ q.items) : key a ≤ key b := by
  have hs := q.sorted
  rw [items_of_peek h] at hs hb
  rcases mem_cons.mp hb with rfl | hb
  · exact le_rfl
  · exact (pairwise_cons.mp hs).1 b hb

end PriorityQueue

/-- An ordered set: its items are strictly increasing. -/
structure SortedSet (κ : Type) [LinearOrder κ] where
  items : List κ
  sorted : items.Pairwise (· < ·)

namespace SortedSet

instance : Membership κ (SortedSet κ) := ⟨fun s a => a ∈ s.items⟩

instance (s : SortedSet κ) (a : κ) : Decidable (a ∈ s) := inferInstanceAs (Decidable (a ∈ s.items))

variable {s : SortedSet κ} {a b : κ}

theorem mem_def : a ∈ s ↔ a ∈ s.items := Iff.rfl

def empty : SortedSet κ := ⟨[], List.Pairwise.nil⟩

theorem nodup (s : SortedSet κ) : s.items.Nodup := s.sorted.imp fun h => h.ne

theorem pairwise_lt_insertSorted {l : List κ} (h : l.Pairwise (· < ·)) (ha : a ∉ l) :
    (insertSorted id a l).Pairwise (· < ·) := by
  have hle : (insertSorted id a l).Pairwise fun b c => id b ≤ id c :=
    pairwise_insertSorted a (h.imp fun hlt => hlt.le)
  have hnodup : (insertSorted id a l).Nodup :=
    (insertSorted_perm id a l).nodup_iff.mpr
      (nodup_cons.mpr ⟨ha, h.imp fun hlt => hlt.ne⟩)
  exact hle.imp₂ (fun _ _ h h' => lt_of_le_of_ne h h') hnodup

/-- Add an item; an item that is there already changes nothing. -/
def insert (s : SortedSet κ) (a : κ) : SortedSet κ :=
  if h : a ∈ s.items then s else ⟨insertSorted id a s.items, pairwise_lt_insertSorted s.sorted h⟩

def erase (s : SortedSet κ) (a : κ) : SortedSet κ :=
  ⟨s.items.erase a, s.sorted.sublist List.erase_sublist⟩

def first (s : SortedSet κ) : Option κ := s.items.head?

def popFirst (s : SortedSet κ) : SortedSet κ := ⟨s.items.tail, s.sorted.tail⟩

@[simp] theorem not_mem_empty : ¬ a ∈ (empty : SortedSet κ) := not_mem_nil

@[simp] theorem mem_insert : b ∈ s.insert a ↔ b = a ∨ b ∈ s := by
  unfold insert
  split
  case isTrue h =>
    constructor
    · exact Or.inr
    · rintro (rfl | hb)
      · exact h
      · exact hb
  case isFalse => exact mem_insertSorted

@[simp] theorem mem_erase : b ∈ s.erase a ↔ b ≠ a ∧ b ∈ s := s.nodup.mem_erase_iff

@[simp] theorem items_popFirst (s : SortedSet κ) : s.popFirst.items = s.items.tail := rfl

section

variable (h : s.first = some a)

include h

theorem items_of_first : s.items = a :: s.popFirst.items := by
  obtain ⟨l, hl⟩ := List.head?_eq_some_iff.mp h
  rw [items_popFirst, hl, tail_cons]

theorem mem_of_first : a ∈ s := by
  rw [mem_def, items_of_first h]
  exact mem_cons_self

theorem mem_popFirst : b ∈ s.popFirst ↔ b ≠ a ∧ b ∈ s := by
  have hs := s.sorted
  rw [items_of_first h] at hs
  rw [mem_def, mem_def, items_of_first h, mem_cons]
  constructor
  · intro hb
    exact ⟨((pairwise_cons.mp hs).1 b hb).ne', Or.inr hb⟩
  · rintro ⟨hne, rfl | hb⟩
    · exact absurd rfl hne
    · exact hb

theorem le_of_first (hb : b ∈ s) : a ≤ b := by
  have hs := s.sorted
  rw [mem_def, items_of_first h] at hb
  rw [items_of_first h] at hs
  rcases mem_cons.mp hb with rfl | hb
  · exact le_rfl
  · exact ((pairwise_cons.mp hs).1 b hb).le

end

theorem first_eq_none : s.first = none ↔ ∀ b, ¬ b ∈ s := by
  rw [first, List.head?_eq_none_iff, eq_nil_iff_forall_not_mem]
  rfl

end SortedSet

end Steel
