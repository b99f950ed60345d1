import Mathlib.Data.List.AList
import Mathlib.Data.List.Induction
import Mathlib.Order.Bounds.Basic
import Mathlib.Order.MinMax

/-! # Hash maps

A hash map is an association list without repeated keys, and it may be iterated in any order.
-/

namespace Steel

open AList List

variable {κ α : Type}

abbrev HashMap (κ α : Type) := AList fun _ : κ => α

/-- An order in which a map may be iterated. -/
structure Iteration (κ : Type) where
  order : List κ → List κ
  perm : ∀ l, (order l).Perm l

def Iteration.id : Iteration κ := ⟨fun l => l, fun l => .refl l⟩

def Iteration.keys (iteration : Iteration κ) (m : HashMap κ α) : List κ := iteration.order m.keys

theorem Iteration.nodup_keys (iteration : Iteration κ) (m : HashMap κ α) :
    (iteration.keys m).Nodup :=
  (iteration.perm m.keys).nodup_iff.mpr m.keys_nodup

section Lookup

variable [DecidableEq κ]

theorem Iteration.mem_keys {iteration : Iteration κ} {m : HashMap κ α} {k : κ} :
    k ∈ iteration.keys m ↔ (m.lookup k).isSome = true := by
  rw [Iteration.keys, (iteration.perm m.keys).mem_iff, ← AList.mem_keys, lookup_isSome]

end Lookup

def contents (m : HashMap κ (List α)) : List α := m.entries.flatMap (·.2)

section Contents

variable [DecidableEq κ] {m : HashMap κ (List α)}

theorem contents_perm (m : HashMap κ (List α)) (k : κ) :
    (contents m).Perm ((m.lookup k).getD [] ++ contents (m.erase k)) := by
  cases h : m.lookup k with
  | none =>
    rw [lookup_eq_none] at h
    have herase : m.erase k = m := AList.ext (kerase_of_notMem_keys h)
    rw [herase]
    rfl
  | some l =>
    have hmem : Sigma.mk k l ∈ m.entries := mem_lookup_iff.1 h
    obtain ⟨l', before, after, -, hentries, herase⟩ :=
      exists_of_kerase (mem_keys_of_mem hmem)
    obtain rfl : l = l' := by
      have hmem' : Sigma.mk k l' ∈ m.entries := by
        rw [hentries]
        exact mem_append_right _ mem_cons_self
      exact Option.some.inj (h.symm.trans (mem_lookup_iff.2 hmem'))
    have herase : (m.erase k).entries = before ++ after := herase
    rw [contents, contents, hentries, herase, Option.getD_some, flatMap_append, flatMap_cons,
      flatMap_append]
    exact perm_append_comm_assoc _ _ _

theorem contents_insert (m : HashMap κ (List α)) (k : κ) (l : List α) :
    contents (m.insert k l) = l ++ contents (m.erase k) := by
  rw [contents, entries_insert, flatMap_cons]
  rfl

theorem contents_append (m : HashMap κ (List α)) (k : κ) (l : List α) :
    (contents (m.insert k ((m.lookup k).getD [] ++ l))).Perm (l ++ contents m) := by
  rw [contents_insert, append_assoc]
  refine perm_append_comm_assoc _ _ _ |>.trans ?_
  exact (contents_perm m k).symm.append_left l

theorem mem_contents {a : α} : a ∈ contents m ↔ ∃ k, a ∈ (m.lookup k).getD [] := by
  simp only [contents, mem_flatMap, Sigma.exists]
  constructor
  · rintro ⟨k, l, hmem, ha⟩
    rw [← mem_lookup_iff, Option.mem_def] at hmem
    exact ⟨k, by rwa [hmem]⟩
  · rintro ⟨k, ha⟩
    cases hl : m.lookup k with
    | none =>
      rw [hl] at ha
      cases ha
    | some l =>
      rw [hl] at ha
      exact ⟨k, l, mem_lookup_iff.1 hl, ha⟩

end Contents

section Least

variable [LinearOrder α]

def IsLeastOf : Option α → Set α → Prop
  | none, s => ∀ a, a ∉ s
  | some a, s => IsLeast s a

theorem IsLeastOf.unique {o o' : Option α} {s : Set α} (h : IsLeastOf o s) (h' : IsLeastOf o' s) :
    o = o' := by
  cases o with
  | none =>
    cases o' with
    | none => rfl
    | some a => exact absurd h'.1 (h a)
  | some a =>
    cases o' with
    | none => exact absurd h.1 (h' a)
    | some b => rw [IsLeast.unique h h']

theorem isLeastOf_min? (l : List α) : IsLeastOf l.min? {a | a ∈ l} := by
  cases h : l.min? with
  | none =>
    rw [List.min?_eq_none_iff] at h
    simp [IsLeastOf, h]
  | some a =>
    obtain ⟨hmem, hle⟩ := List.min?_eq_some_iff.mp h
    exact ⟨hmem, fun b hb => hle b hb⟩

variable [DecidableEq κ]

/-- Enter a value; of two values of a key the smaller one stays. -/
def insertLeast (m : HashMap κ α) (k : κ) (a : α) : HashMap κ α :=
  m.insert k (match m.lookup k with
    | some b => min b a
    | none => a)

section

variable {m : HashMap κ α} {s : κ → Set α} (h : ∀ k, IsLeastOf (m.lookup k) (s k))

include h

theorem insertLeast_spec (k : κ) (a : α) :
    ∀ k', IsLeastOf ((insertLeast m k a).lookup k') {b | b ∈ s k' ∨ (k' = k ∧ b = a)} := by
  intro k'
  by_cases hk : k' = k
  · subst hk
    have hold := h k'
    rw [insertLeast, lookup_insert]
    cases hlookup : m.lookup k' with
    | none =>
      rw [hlookup] at hold
      refine ⟨Or.inr ⟨rfl, rfl⟩, ?_⟩
      rintro b (hb | ⟨-, rfl⟩)
      · exact absurd hb (hold b)
      · exact le_rfl
    | some b =>
      rw [hlookup] at hold
      constructor
      · rcases min_choice b a with hmin | hmin
        · simp only [hmin]
          exact Or.inl hold.1
        · simp only [hmin]
          exact Or.inr ⟨trivial, rfl⟩
      · rintro c (hc | ⟨-, rfl⟩)
        · exact (min_le_left b a).trans (hold.2 hc)
        · exact min_le_right b c
  · have hset : {b | b ∈ s k' ∨ (k' = k ∧ b = a)} = s k' := by
      ext b
      simp [hk]
    rw [insertLeast, lookup_insert_ne hk, hset]
    exact h k'

theorem foldl_insertLeast_spec (es : List (κ × α)) :
    ∀ k, IsLeastOf ((es.foldl (fun m e => insertLeast m e.1 e.2) m).lookup k)
      {a | a ∈ s k ∨ (k, a) ∈ es} := by
  induction es generalizing m s with
  | nil =>
    intro k
    have hset : {a | a ∈ s k ∨ (k, a) ∈ ([] : List (κ × α))} = s k := by
      ext a
      simp
    rw [hset]
    exact h k
  | cons e es ih =>
    intro k
    have hset : {a | a ∈ s k ∨ (k, a) ∈ e :: es} =
        {a | (a ∈ s k ∨ (k = e.1 ∧ a = e.2)) ∨ (k, a) ∈ es} := by
      ext a
      simp [or_assoc, Prod.ext_iff]
    rw [hset]
    exact ih (insertLeast_spec h e.1 e.2) k

end

theorem foldl_insertLeast_empty (es : List (κ × α)) (k : κ) :
    IsLeastOf ((es.foldl (fun m e => insertLeast m e.1 e.2) ∅).lookup k) {a | (k, a) ∈ es} := by
  have hempty : ∀ k : κ, IsLeastOf ((∅ : HashMap κ α).lookup k) ∅ := by
    intro k a ha
    exact ha
  have hset : {a | a ∈ (∅ : Set α) ∨ (k, a) ∈ es} = {a | (k, a) ∈ es} := by
    ext a
    simp
  rw [← hset]
  exact foldl_insertLeast_spec hempty es k

end Least

section Last

variable [LinearOrder α] [DecidableEq κ]

/-- A map that collects entries of rising values keeps the largest value of each key. -/
theorem lookup_collect_le_iff {es : List (κ × α)} (hes : es.Pairwise fun e e' => e.2 ≤ e'.2)
    (k : κ) (a : α) :
    (((es.foldl (fun m e => m.insert e.1 e.2) (∅ : HashMap κ α)).lookup k).any
      fun b => decide (a ≤ b)) = true ↔ ∃ e ∈ es, e.1 = k ∧ a ≤ e.2 := by
  induction es using List.reverseRecOn with
  | nil =>
    constructor
    · intro h
      cases h
    · rintro ⟨e, he, -⟩
      cases he
  | append_singleton es e ih =>
    obtain ⟨hes, -, hlast⟩ := pairwise_append.mp hes
    rw [foldl_append, foldl_cons, foldl_nil]
    by_cases hk : e.1 = k
    · subst hk
      rw [lookup_insert, Option.any_some, decide_eq_true_iff]
      constructor
      · intro hle
        exact ⟨e, mem_append_right es mem_cons_self, rfl, hle⟩
      · rintro ⟨e', he', -, hle⟩
        rcases mem_append.mp he' with hmem | hmem
        · exact hle.trans (hlast e' hmem e mem_cons_self)
        · rwa [mem_singleton.mp hmem] at hle
    · rw [lookup_insert_ne (Ne.symm hk), ih hes]
      constructor
      · rintro ⟨e', he', hkey, hle⟩
        exact ⟨e', mem_append_left _ he', hkey, hle⟩
      · rintro ⟨e', he', hkey, hle⟩
        rcases mem_append.mp he' with hmem | hmem
        · exact ⟨e', hmem, hkey, hle⟩
        · rw [mem_singleton.mp hmem] at hkey
          exact absurd hkey hk

end Last

end Steel
