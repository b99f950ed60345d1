import Steel.Lib.HashMap

/-! # Reference counts

A map from keys to positive numbers counts the holders of each key. A key without holders is
not in the map.
-/

namespace Steel.ReferenceCount

open AList List

variable {κ : Type} [DecidableEq κ]

def retain (counts : HashMap κ ℕ) (k : κ) : HashMap κ ℕ :=
  counts.insert k ((counts.lookup k).getD 0 + 1)

def release (counts : HashMap κ ℕ) (k : κ) : HashMap κ ℕ :=
  match counts.lookup k with
  | none => counts
  | some count => if count - 1 = 0 then counts.erase k else counts.insert k (count - 1)

/-- The map counts the occurrences of keys in a list of holders. -/
def Counts (counts : HashMap κ ℕ) (holders : List κ) : Prop :=
  ∀ k, counts.lookup k = if holders.count k = 0 then none else some (holders.count k)

variable {counts : HashMap κ ℕ} {holders : List κ} {k : κ}

theorem Counts.empty : Counts (∅ : HashMap κ ℕ) [] := by
  intro k
  rfl

theorem Counts.perm {holders' : List κ} (h : Counts counts holders) (hp : holders.Perm holders') :
    Counts counts holders' := by
  intro k
  rw [h k, hp.count_eq]

theorem Counts.retain (h : Counts counts holders) :
    Counts (ReferenceCount.retain counts k) (k :: holders) := by
  intro k'
  by_cases hk : k' = k
  · subst hk
    rw [ReferenceCount.retain, lookup_insert, count_cons_self,
      if_neg (Nat.succ_ne_zero _), h k']
    split_ifs with hcount
    · simp [hcount]
    · rfl
  · rw [ReferenceCount.retain, lookup_insert_ne hk, h k', count_cons_of_ne (Ne.symm hk)]

theorem Counts.release (h : Counts counts (k :: holders)) :
    Counts (ReferenceCount.release counts k) holders := by
  have hsome : counts.lookup k = some (holders.count k + 1) := by
    rw [h k, count_cons_self]
    simp
  intro k'
  have hk' := h k'
  simp only [ReferenceCount.release, hsome, Nat.add_sub_cancel]
  by_cases hk : k' = k
  · subst hk
    split_ifs with hcount
    · rw [lookup_erase]
    · rw [lookup_insert]
  · rw [count_cons_of_ne (Ne.symm hk)] at hk'
    rw [← hk']
    split_ifs
    · rw [lookup_erase_ne hk]
    · rw [lookup_insert_ne hk]

theorem Counts.mem_iff (h : Counts counts holders) : k ∈ counts ↔ k ∈ holders := by
  rw [← lookup_isSome, h k, ← count_pos_iff]
  split_ifs with hcount
  · simp [hcount]
  · simp [Nat.pos_of_ne_zero hcount]

theorem Counts.eq_empty (h : Counts counts []) : counts = ∅ := by
  have hkeys : counts.keys = [] := by
    apply eq_nil_iff_forall_not_mem.2
    intro k hk
    exact absurd (h.mem_iff.1 (mem_keys.2 hk)) not_mem_nil
  apply ext
  exact map_eq_nil_iff.1 hkeys

end Steel.ReferenceCount
