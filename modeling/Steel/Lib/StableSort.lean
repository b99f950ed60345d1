import Mathlib.Data.Prod.Lex
import Steel.Lib.Sorted

/-! # Stable sorting

Inserting the items of a list one after the other sorts it and keeps items of the same key in their
order. A sort that is given its comparison promises a sorted result only if the comparison orders
the items it is given.
-/

namespace Steel

open List

variable {α β κ μ : Type} [LinearOrder κ] [LinearOrder μ]

def insertAll (key : α → κ) (acc l : List α) : List α :=
  l.foldl (fun acc a => insertSorted key a acc) acc

def sortStable (key : α → κ) (l : List α) : List α := insertAll key [] l

theorem insertSorted_map (f : α → β) (key : β → κ) (a : α) (l : List α) :
    insertSorted key (f a) (l.map f) = (insertSorted (fun a => key (f a)) a l).map f := by
  induction l with
  | nil => rfl
  | cons b l ih =>
    simp only [map_cons, insertSorted]
    split
    · rfl
    · rw [ih, map_cons]

theorem insertAll_map (f : α → β) (key : β → κ) (acc l : List α) :
    insertAll key (acc.map f) (l.map f) = (insertAll (fun a => key (f a)) acc l).map f := by
  induction l generalizing acc with
  | nil => rfl
  | cons a l ih =>
    simp only [insertAll, map_cons, foldl_cons] at ih ⊢
    rw [insertSorted_map, ih]

variable {key : α → κ} {l : List α}

theorem insertSorted_congr {key' : α → μ} {a : α}
    (h : ∀ b ∈ l, key a < key b ↔ key' a < key' b) :
    insertSorted key a l = insertSorted key' a l := by
  induction l with
  | nil => rfl
  | cons b l ih =>
    simp only [insertSorted, h b mem_cons_self, ih fun c hc => h c (mem_cons_of_mem b hc)]

theorem pairwise_insertAll {acc : List α} (l : List α)
    (h : acc.Pairwise fun a b => key a ≤ key b) :
    (insertAll key acc l).Pairwise fun a b => key a ≤ key b := by
  induction l generalizing acc with
  | nil => exact h
  | cons a l ih => exact ih (pairwise_insertSorted a h)

theorem pairwise_sortStable (key : α → κ) (l : List α) :
    (sortStable key l).Pairwise fun a b => key a ≤ key b :=
  pairwise_insertAll l List.Pairwise.nil

theorem filter_insertSorted (a : α) (k : κ)
    (h : l.Pairwise fun b c => key b ≤ key c) :
    (insertSorted key a l).filter (fun b => key b = k) =
      l.filter (fun b => key b = k) ++ [a].filter fun b => key b = k := by
  induction l with
  | nil => rfl
  | cons b l ih =>
    obtain ⟨hb, hl⟩ := pairwise_cons.mp h
    unfold insertSorted
    split
    case isTrue hlt =>
      by_cases hk : key a = k
      · have hnone : (b :: l).filter (fun b => key b = k) = [] := by
          rw [filter_eq_nil_iff]
          intro c hc heq
          have hlt' : k < key c := by
            rcases mem_cons.mp hc with rfl | hc
            · exact hk ▸ hlt
            · exact (hk ▸ hlt).trans_le (hb c hc)
          exact absurd (of_decide_eq_true heq) hlt'.ne'
        rw [filter_cons_of_pos (by simpa using hk), hnone]
        simp [hk]
      · rw [filter_cons_of_neg (by simpa using hk)]
        simp [hk]
    case isFalse =>
      rw [filter_cons, filter_cons, ih hl]
      split <;> rfl

theorem filter_insertAll {acc : List α} (l : List α) (k : κ)
    (h : acc.Pairwise fun a b => key a ≤ key b) :
    (insertAll key acc l).filter (fun b => key b = k) =
      acc.filter (fun b => key b = k) ++ l.filter fun b => key b = k := by
  induction l generalizing acc with
  | nil => simp [insertAll]
  | cons a l ih =>
    have hstep := ih (pairwise_insertSorted a h)
    rw [filter_insertSorted a k h, append_assoc, ← filter_append] at hstep
    exact hstep

theorem filter_sortStable (key : α → κ) (l : List α) (k : κ) :
    (sortStable key l).filter (fun b => key b = k) = l.filter fun b => key b = k :=
  filter_insertAll l k List.Pairwise.nil

variable {l l' : List α}

theorem mem_of_filter_eq
    (h : ∀ k, l.filter (fun b => key b = k) = l'.filter fun b => key b = k) {a : α} (ha : a ∈ l) :
    a ∈ l' := by
  have hmem : a ∈ l.filter fun b => key b = key a := mem_filter.mpr ⟨ha, by simp⟩
  rw [h] at hmem
  exact mem_of_mem_filter hmem

theorem mem_sortStable {a : α} : a ∈ sortStable key l ↔ a ∈ l :=
  ⟨mem_of_filter_eq (filter_sortStable key l),
    mem_of_filter_eq fun k => (filter_sortStable key l k).symm⟩

theorem eq_of_filter_eq (hl : l.Pairwise fun a b => key a ≤ key b)
    (hl' : l'.Pairwise fun a b => key a ≤ key b)
    (h : ∀ k, l.filter (fun b => key b = k) = l'.filter fun b => key b = k) : l = l' := by
  induction l generalizing l' with
  | nil =>
    rw [eq_comm, eq_nil_iff_forall_not_mem]
    intro a ha
    cases mem_of_filter_eq (fun k => (h k).symm) ha
  | cons a l ih =>
    cases l' with
    | nil => cases mem_of_filter_eq h mem_cons_self
    | cons b l' =>
      obtain ⟨ha, htl⟩ := pairwise_cons.mp hl
      obtain ⟨hb, htl'⟩ := pairwise_cons.mp hl'
      have hle : key a ≤ key b := by
        rcases mem_cons.mp (mem_of_filter_eq (fun k => (h k).symm) mem_cons_self)
          with rfl | hmem
        · exact le_rfl
        · exact ha b hmem
      have hge : key b ≤ key a := by
        rcases mem_cons.mp (mem_of_filter_eq h mem_cons_self) with rfl | hmem
        · exact le_rfl
        · exact hb a hmem
      have heq := le_antisymm hle hge
      have hhead := h (key b)
      rw [filter_cons_of_pos (by simpa using heq),
        filter_cons_of_pos (by simp), List.cons.injEq] at hhead
      obtain ⟨rfl, htail⟩ := hhead
      rw [ih htl htl']
      intro k
      by_cases hk : key a = k
      · subst hk
        exact htail
      · have hother := h k
        rwa [filter_cons_of_neg (by simpa using hk),
          filter_cons_of_neg (by simpa using hk)] at hother

theorem sortStable_perm (key : α → κ) (l : List α) : (sortStable key l).Perm l := by
  have hinsert : ∀ acc : List α, (insertAll key acc l).Perm (l ++ acc) := by
    induction l with
    | nil => exact fun acc => .refl acc
    | cons a l ih =>
      intro acc
      exact ((ih _).trans ((insertSorted_perm key a acc).append_left l)).trans perm_middle
  simpa [sortStable] using hinsert []

theorem sortStable_eq_of_perm (hperm : l.Perm l')
    (hkey : ∀ a ∈ l, ∀ b ∈ l, key a = key b → a = b) : sortStable key l = sortStable key l' := by
  apply Perm.eq_of_pairwise _ (pairwise_sortStable key l) (pairwise_sortStable key l')
    (((sortStable_perm key l).trans hperm).trans (sortStable_perm key l').symm)
  intro a b ha hb hab hba
  exact hkey a (mem_sortStable.mp ha) b (hperm.mem_iff.mpr (mem_sortStable.mp hb))
    (le_antisymm hab hba)

/-- A list that is sorted by a pair of keys comes back when it is sorted by the second key and
then by the first one. -/
theorem sortStable_sortStable {key' : α → μ}
    (h : l.Pairwise fun a b => toLex (key a, key' a) ≤ toLex (key b, key' b)) :
    sortStable key (sortStable key' l) = l := by
  have hsecond := pairwise_sortStable key' l
  have hfirst := pairwise_sortStable key (sortStable key' l)
  apply @eq_of_filter_eq α (κ ×ₗ μ) _ (fun a => toLex (key a, key' a)) _ _ _ h
  · intro k
    have hsplit : ∀ m : List α, m.filter (fun b => toLex (key b, key' b) = k) =
        (m.filter fun b => key b = (ofLex k).1).filter fun b => key' b = (ofLex k).2 := by
      intro m
      rw [filter_filter]
      apply filter_congr
      intro b _
      rw [← Bool.decide_and]
      apply decide_eq_decide.mpr
      rw [← toLex_ofLex k, toLex_inj, Prod.ext_iff, and_comm]
      rfl
    rw [hsplit, filter_sortStable, filter_comm, filter_sortStable, filter_comm, hsplit]
  · rw [pairwise_iff_forall_sublist] at hfirst ⊢
    intro a b hab
    rcases lt_or_eq_of_le (hfirst hab) with hlt | heq
    · exact Prod.Lex.toLex_le_toLex.mpr (Or.inl hlt)
    · refine Prod.Lex.toLex_le_toLex.mpr (Or.inr ⟨heq, ?_⟩)
      have hsub : List.Sublist [a, b] (sortStable key' l) := by
        have hfilter := hab.filter fun c => decide (key c = key b)
        rw [filter_sortStable] at hfilter
        have hpair : [a, b].filter (fun c => decide (key c = key b)) = [a, b] := by simp [heq]
        rw [hpair] at hfilter
        exact hfilter.trans filter_sublist
      exact pairwise_iff_forall_sublist.mp hsecond hsub

/-- The comparison is a total preorder of the items. -/
structure TotalPreorderOn (compare : α → α → Ordering) (l : List α) : Prop where
  swap : ∀ a ∈ l, ∀ b ∈ l, compare b a = (compare a b).swap
  trans : ∀ a ∈ l, ∀ b ∈ l, ∀ c ∈ l,
    compare a b ≠ .gt → compare b c ≠ .gt → compare a c ≠ .gt

theorem totalPreorderOn_iff (compare : α → α → Ordering) (l : List α) :
    TotalPreorderOn compare l ↔ (∀ a ∈ l, ∀ b ∈ l, compare b a = (compare a b).swap) ∧
      ∀ a ∈ l, ∀ b ∈ l, ∀ c ∈ l, compare a b ≠ .gt → compare b c ≠ .gt → compare a c ≠ .gt :=
  ⟨fun h => ⟨h.swap, h.trans⟩, fun h => ⟨h.1, h.2⟩⟩

instance (compare : α → α → Ordering) (l : List α) : Decidable (TotalPreorderOn compare l) :=
  decidable_of_iff' _ (totalPreorderOn_iff compare l)

/-- What a sort promises. Without a value it panics. -/
structure Sorts (sortBy : (α → α → Ordering) → List α → Option (List α)) : Prop where
  perm : ∀ {compare l sorted}, sortBy compare l = some sorted → sorted.Perm l
  sorted : ∀ {compare l}, TotalPreorderOn compare l → ∃ sorted, sortBy compare l = some sorted ∧
    sorted.Pairwise (compare · · ≠ .gt)

def checkedSort (compare : α → α → Ordering) (l : List α) : Option (List α) :=
  if TotalPreorderOn compare l then
    some ((l.attach.mergeSort fun a b => compare a.val b.val ≠ .gt).map Subtype.val)
  else none

variable {compare : α → α → Ordering}

theorem checkedSort_isSome {l sorted : List α}
    (h : checkedSort compare l = some sorted) : TotalPreorderOn compare l := by
  unfold checkedSort at h
  split at h
  case isTrue hcompare => exact hcompare
  case isFalse => simp at h

theorem TotalPreorderOn.total (h : TotalPreorderOn compare l) {a b : α} (ha : a ∈ l) (hb : b ∈ l) :
    compare a b ≠ .gt ∨ compare b a ≠ .gt := by
  rw [h.swap a ha b hb]
  cases compare a b <;> simp

theorem sorts_checkedSort : Sorts (@checkedSort α) := by
  constructor
  case perm =>
    intro compare l sorted h
    unfold checkedSort at h
    split at h
    case isTrue =>
      obtain rfl := Option.some.inj h
      have hperm := (mergeSort_perm l.attach
        fun a b => decide (compare a.val b.val ≠ .gt)).map Subtype.val
      rwa [attach_map_subtype_val] at hperm
    case isFalse => simp at h
  case sorted =>
    intro compare l h
    refine ⟨_, if_pos h, ?_⟩
    rw [pairwise_map]
    have htrans : ∀ a b c : {a // a ∈ l}, decide (compare a.val b.val ≠ .gt) →
        decide (compare b.val c.val ≠ .gt) → decide (compare a.val c.val ≠ .gt) := by
      intro a b c hab hbc
      rw [decide_eq_true_iff] at hab hbc ⊢
      exact h.trans a.val a.property b.val b.property c.val c.property hab hbc
    have htotal : ∀ a b : {a // a ∈ l}, decide (compare a.val b.val ≠ .gt) ||
        decide (compare b.val a.val ≠ .gt) := by
      intro a b
      rw [Bool.or_eq_true, decide_eq_true_iff, decide_eq_true_iff]
      exact h.total a.property b.property
    exact (pairwise_mergeSort htrans htotal l.attach).imp of_decide_eq_true

end Steel
