import Mathlib.Data.List.Nodup

/-! # Buckets

A map from keys to buckets indexes items by the keys they belong to. It keeps no empty bucket, has
no item twice in a bucket, and items are entered and taken out one at a time.
-/

namespace Steel

open Function List Option

/-- The list has exactly the items with the property, each once. -/
structure Enumerates {α : Type*} (l : List α) (P : α → Prop) : Prop where
  nodup : l.Nodup
  mem : ∀ a, a ∈ l ↔ P a

namespace Enumerates

variable {α : Type*} {l : List α} {P P' : α → Prop}

theorem congr (h : Enumerates l P) (hiff : ∀ a, P a ↔ P' a) : Enumerates l P' :=
  ⟨h.nodup, fun a => (h.mem a).trans (hiff a)⟩

theorem append (h : Enumerates l P) {a : α} (hnew : ¬ P a) :
    Enumerates (l ++ [a]) fun b => P b ∨ b = a where
  nodup := by
    rw [nodup_append]
    refine ⟨h.nodup, nodup_singleton a, ?_⟩
    rintro b hb c hc rfl
    obtain rfl := mem_singleton.1 hc
    exact hnew ((h.mem b).1 hb)
  mem b := by rw [mem_append, h.mem, mem_singleton]

theorem filter (h : Enumerates l P) (p : α → Bool) :
    Enumerates (l.filter p) fun b => P b ∧ p b = true :=
  ⟨h.nodup.filter p, fun b => by rw [mem_filter, h.mem]⟩

theorem erase [DecidableEq α] (h : Enumerates l P) (a : α) :
    Enumerates (l.erase a) fun b => P b ∧ b ≠ a :=
  ⟨h.nodup.erase a, fun b => by rw [h.nodup.mem_erase_iff, h.mem, and_comm]⟩

end Enumerates

variable {κ α : Type*} {buckets : κ → Option (List α)} {belongs belongs' : α → κ → Prop}

/-- The bucket of a key has exactly the items that belong to it. -/
structure Buckets (buckets : κ → Option (List α)) (belongs : α → κ → Prop) : Prop where
  ne_nil : ∀ k l, buckets k = some l → l ≠ []
  nodup : ∀ k l, buckets k = some l → l.Nodup
  mem : ∀ a k, (∃ l, buckets k = some l ∧ a ∈ l) ↔ belongs a k

theorem buckets_empty : Buckets (fun _ : κ => (none : Option (List α))) fun _ _ => False :=
  ⟨nofun, nofun, fun _ _ => ⟨nofun, False.elim⟩⟩

namespace Buckets

theorem congr (h : Buckets buckets belongs) (hiff : ∀ a k, belongs a k ↔ belongs' a k) :
    Buckets buckets belongs' :=
  ⟨h.ne_nil, h.nodup, fun a k => (h.mem a k).trans (hiff a k)⟩

theorem mem_getD (h : Buckets buckets belongs) {a : α} {k : κ} :
    a ∈ (buckets k).getD [] ↔ belongs a k := by
  rw [← h.mem]
  cases buckets k with
  | none => simp
  | some l => simp

theorem nodup_getD (h : Buckets buckets belongs) (k : κ) : ((buckets k).getD []).Nodup := by
  cases hk : buckets k with
  | none => exact .nil
  | some l => exact h.nodup k l hk

variable [DecidableEq κ]

theorem put {a : α} {k : κ} {l : List α} (h : Buckets buckets belongs) (hnew : ¬ belongs a k)
    (hl : l.Perm (a :: (buckets k).getD [])) :
    Buckets (Function.update buckets k (some l)) fun b j => belongs b j ∨ b = a ∧ j = k where
  ne_nil j l' hj := by
    by_cases hjk : j = k
    · subst hjk
      rw [update_self] at hj
      obtain rfl := Option.some.inj hj
      rintro rfl
      simpa using hl.length_eq
    · rw [update_of_ne hjk] at hj
      exact h.ne_nil j l' hj
  nodup j l' hj := by
    by_cases hjk : j = k
    · subst hjk
      rw [update_self] at hj
      obtain rfl := Option.some.inj hj
      rw [hl.nodup_iff, nodup_cons, h.mem_getD]
      exact ⟨hnew, h.nodup_getD j⟩
    · rw [update_of_ne hjk] at hj
      exact h.nodup j l' hj
  mem b j := by
    by_cases hjk : j = k
    · subst hjk
      have hmem : b ∈ l ↔ belongs b j ∨ b = a := by
        rw [hl.mem_iff, mem_cons, h.mem_getD, or_comm]
      simp [hmem]
    · rw [update_of_ne hjk, h.mem]
      simp [hjk]

end Buckets

section Remove

variable [DecidableEq κ] [DecidableEq α]

/-- Takes an item out of the bucket of a key, and the bucket with its last item. -/
def removeFromBucket (buckets : κ → Option (List α)) (k : κ) (a : α) : κ → Option (List α) :=
  match buckets k with
  | none => buckets
  | some l =>
    if (l.erase a).isEmpty then Function.update buckets k none
    else Function.update buckets k (some (l.erase a))

theorem removeFromBucket_of_ne {k j : κ} {a : α} (h : j ≠ k) :
    removeFromBucket buckets k a j = buckets j := by
  unfold removeFromBucket
  cases buckets k with
  | none => rfl
  | some l =>
    dsimp only
    split
    · exact update_of_ne h _ _
    · exact update_of_ne h _ _

theorem removeFromBucket_self {k : κ} {a : α} : removeFromBucket buckets k a k =
      (buckets k).bind fun l => if (l.erase a).isEmpty then none else some (l.erase a) := by
  unfold removeFromBucket
  cases hk : buckets k with
  | none => exact hk
  | some l =>
    dsimp only [bind_some]
    split
    · exact update_self ..
    · exact update_self ..

theorem Buckets.remove (h : Buckets buckets belongs) (k : κ) (a : α) :
    Buckets (removeFromBucket buckets k a) fun b j => belongs b j ∧ ¬ (b = a ∧ j = k) where
  ne_nil j l hj := by
    by_cases hjk : j = k
    · subst hjk
      rw [removeFromBucket_self, bind_eq_some_iff] at hj
      obtain ⟨old, -, hrest⟩ := hj
      split at hrest
      · cases hrest
      · rename_i hne
        obtain rfl := Option.some.inj hrest
        exact fun hnil => hne (by rw [hnil]; rfl)
    · rw [removeFromBucket_of_ne hjk] at hj
      exact h.ne_nil j l hj
  nodup j l hj := by
    by_cases hjk : j = k
    · subst hjk
      rw [removeFromBucket_self, bind_eq_some_iff] at hj
      obtain ⟨old, hold, hrest⟩ := hj
      split at hrest
      · cases hrest
      · obtain rfl := Option.some.inj hrest
        exact (h.nodup j old hold).erase a
    · rw [removeFromBucket_of_ne hjk] at hj
      exact h.nodup j l hj
  mem b j := by
    by_cases hjk : j = k
    · subst hjk
      rw [removeFromBucket_self, ← h.mem]
      cases hold : buckets j with
      | none => simp
      | some old =>
        have herase : b ∈ old.erase a ↔ b ∈ old ∧ b ≠ a := by
          rw [(h.nodup j old hold).mem_erase_iff, and_comm]
        by_cases hempty : (old.erase a).isEmpty
        · rw [isEmpty_iff.1 hempty] at herase
          simp only [not_mem_nil, false_iff] at herase
          rw [bind_some, if_pos hempty]
          simp [herase]
        · rw [bind_some, if_neg hempty]
          simp [herase]
    · rw [removeFromBucket_of_ne hjk, h.mem]
      simp [hjk]

end Remove

end Steel
