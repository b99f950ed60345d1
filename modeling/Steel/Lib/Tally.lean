import Mathlib.Algebra.Group.Nat.Defs
import Mathlib.Data.List.Nodup
import Mathlib.Data.List.Perm.Basic

/-! # Tallies

A tally of a list pairs every value of the list with its number of occurrences, kept in 16 bits.
-/

namespace Steel

open List Nat

variable {α : Type*}

/-- `Vec::swap_remove`: the last element takes the place of the removed one. -/
def swapRemove (l : List α) (i : ℕ) : List α :=
  match l.getLast? with
  | none => l
  | some last => (l.set i last).dropLast

theorem swapRemove_perm {l : List α} {i : ℕ} (h : i < l.length) :
    (swapRemove l i).Perm (l.eraseIdx i) := by
  obtain rfl | ⟨init, last, rfl⟩ := l.eq_nil_or_concat
  · simp at h
  · rw [concat_eq_append] at h ⊢
    rw [length_append, length_singleton] at h
    rcases Nat.lt_or_ge i init.length with hi | hi
    · rw [eraseIdx_append_of_lt_length hi]
      simp only [swapRemove, List.getLast?_append, List.getLast?_singleton, Option.some_or,
        set_append_left _ _ hi, dropLast_concat]
      rw [set_eq_take_append_cons_drop, if_pos hi, eraseIdx_eq_take_drop_succ]
      exact perm_middle.trans (perm_append_singleton _ _).symm
    · obtain rfl : i = init.length := by omega
      simp [swapRemove, eraseIdx_append_of_length_le]

theorem set_perm_erase [DecidableEq α] {l : List α} {i : ℕ} {a : α} (h : l[i]? = some a) (b : α) :
    (l.set i b).Perm ((b :: l).erase a) := by
  obtain ⟨hi, rfl⟩ := List.getElem?_eq_some_iff.mp h
  have hl : l.Perm (l[i] :: (l.take i ++ l.drop (i + 1))) := by
    have hsplit : (l.take i ++ l[i] :: l.drop (i + 1)).Perm
        (l[i] :: (l.take i ++ l.drop (i + 1))) := perm_middle
    rwa [← drop_eq_getElem_cons hi, take_append_drop] at hsplit
  have herase : ((b :: l).erase l[i]).Perm (b :: (l.take i ++ l.drop (i + 1))) := by
    have hswap : (b :: l).Perm (l[i] :: b :: (l.take i ++ l.drop (i + 1))) :=
      (hl.cons b).trans (List.Perm.swap _ _ _)
    simpa using hswap.erase l[i]
  rw [set_eq_take_append_cons_drop, if_pos hi]
  exact perm_middle.trans herase.symm

variable (p : α → Bool)

theorem Tally.foldl_count (l : List α) (acc : UInt16) (hlen : acc.toNat + l.length < 2 ^ 16) :
    (l.foldl (fun count v => if p v then count + 1 else count) acc).toNat =
      acc.toNat + l.countP p := by
  induction l generalizing acc with
  | nil => simp
  | cons v l ih =>
    rw [length_cons] at hlen
    rw [foldl_cons]
    by_cases hp : p v = true
    · have hacc : (acc + 1).toNat = acc.toNat + 1 := by
        rw [UInt16.toNat_add, mod_eq_of_lt (by simp; omega)]
        rfl
      rw [if_pos hp, ih _ (by omega), hacc, countP_cons_of_pos hp]
      omega
    · rw [if_neg hp, ih _ (by omega), countP_cons_of_neg hp]

namespace Tally

variable [DecidableEq α]

/-- Count `n` more occurrences of a value. -/
def add : List (α × UInt16) → α → UInt16 → List (α × UInt16)
  | [], v, n => [(v, n)]
  | (w, c) :: t, v, n => if w = v then (w, c + n) :: t else (w, c) :: add t v n

def sub (t : List (α × UInt16)) (v : α) : List (α × UInt16) :=
  match t.findIdx? fun e => e.1 = v with
  | none => t
  | some i =>
    match t[i]? with
    | none => t
    | some (w, c) =>
      let t := t.set i (w, c - 1)
      if c - 1 = 0 then swapRemove t i else t

end Tally

/-- Every value of the list occurs once in the tally, with its number of occurrences. -/
structure Tallies [DecidableEq α] (l : List α) (t : List (α × UInt16)) : Prop where
  nodup : (t.map Prod.fst).Nodup
  mem_iff : ∀ v c, (v, c) ∈ t ↔ v ∈ l ∧ c.toNat = l.count v
  complete : ∀ v ∈ l, ∃ c, (v, c) ∈ t

namespace Tallies

variable [DecidableEq α] {l l' : List α} {t t' : List (α × UInt16)} {v w : α} {c n : UInt16}

theorem nil : Tallies ([] : List α) [] := ⟨nodup_nil, by simp, by simp⟩

theorem of_mem_iff (hlen : l.length < 2 ^ 16) (hnodup : (t.map Prod.fst).Nodup)
    (hmem : ∀ v c, (v, c) ∈ t ↔ v ∈ l ∧ c.toNat = l.count v) : Tallies l t := by
  refine ⟨hnodup, hmem, fun v hv => ⟨UInt16.ofNat (l.count v), (hmem _ _).mpr ⟨hv, ?_⟩⟩⟩
  rw [UInt16.toNat_ofNat']
  exact Nat.mod_eq_of_lt (Nat.lt_of_le_of_lt count_le_length hlen)

theorem perm (h : Tallies l t) (hl : l.Perm l') : Tallies l' t :=
  ⟨h.nodup, fun v c => by rw [h.mem_iff, hl.mem_iff, hl.count_eq],
    fun v hv => h.complete v (hl.mem_iff.mpr hv)⟩

theorem perm_tally (h : Tallies l t) (ht : t.Perm t') : Tallies l t' :=
  ⟨(ht.map Prod.fst).nodup_iff.mp h.nodup, fun v c => by rw [← ht.mem_iff, h.mem_iff],
    fun v hv => (h.complete v hv).imp fun _ => ht.mem_iff.mp⟩

theorem mem_fst_iff (h : Tallies l t) : v ∈ t.map Prod.fst ↔ v ∈ l := by
  constructor
  · rintro hv
    obtain ⟨⟨v, c⟩, he, rfl⟩ := mem_map.mp hv
    exact ((h.mem_iff v c).mp he).1
  · intro hv
    obtain ⟨c, hc⟩ := h.complete v hv
    exact mem_map.mpr ⟨(v, c), hc, rfl⟩

end Tallies

namespace Tally

variable [DecidableEq α] {t : List (α × UInt16)} {v w : α} {c n : UInt16}

theorem map_fst_add : (add t v n).map Prod.fst =
    if v ∈ t.map Prod.fst then t.map Prod.fst else t.map Prod.fst ++ [v] := by
  induction t with
  | nil => simp [add]
  | cons e t ih =>
    obtain ⟨u, k⟩ := e
    by_cases hu : u = v
    · subst hu; simp [add]
    · have hv : v ≠ u := fun h => hu h.symm
      simp only [add, if_neg hu, map_cons, ih, mem_cons, hv, false_or]
      split <;> simp

theorem nodup_add (h : (t.map Prod.fst).Nodup) : ((add t v n).map Prod.fst).Nodup := by
  rw [map_fst_add]
  split
  case isTrue => exact h
  case isFalse hv => exact h.append (nodup_singleton v) (disjoint_singleton.mpr hv)

theorem mem_add (h : (t.map Prod.fst).Nodup) : (w, c) ∈ add t v n ↔ (w ≠ v ∧ (w, c) ∈ t) ∨
      (w = v ∧ ((∃ c₀, (v, c₀) ∈ t ∧ c = c₀ + n) ∨ (v ∉ t.map Prod.fst ∧ c = n))) := by
  induction t with
  | nil => simp only [add]; grind
  | cons e t ih =>
    obtain ⟨u, k⟩ := e
    rw [map_cons, nodup_cons] at h
    have hmem : ∀ k', (u, k') ∉ t := fun k' hk => h.1 (mem_map.mpr ⟨_, hk, rfl⟩)
    by_cases hu : u = v
    · subst hu
      simp only [add, if_true, mem_cons, Prod.mk.injEq, map_cons]
      grind
    · simp only [add, if_neg hu, mem_cons, Prod.mk.injEq, map_cons, ih h.2]
      grind

theorem sub_perm {l₁ l₂ : List (α × UInt16)} (hv : v ∉ l₁.map Prod.fst) :
    (sub (l₁ ++ (v, c) :: l₂) v).Perm (if c - 1 = 0 then l₁ ++ l₂ else l₁ ++ (v, c - 1) :: l₂) := by
  have hidx : (l₁ ++ (v, c) :: l₂).findIdx? (fun e => e.1 = v) = some l₁.length := by
    rw [List.findIdx?_append, List.findIdx?_eq_none_iff.mpr]
    · simp [List.findIdx?_cons]
    · intro e he
      simp only [decide_eq_false_iff_not]
      rintro rfl
      exact hv (mem_map.mpr ⟨e, he, rfl⟩)
  have hget : (l₁ ++ (v, c) :: l₂)[l₁.length]? = some (v, c) := by
    rw [List.getElem?_append_right (Nat.le_refl _), Nat.sub_self, List.getElem?_cons_zero]
  have hset : (l₁ ++ (v, c) :: l₂).set l₁.length (v, c - 1) = l₁ ++ (v, c - 1) :: l₂ := by
    rw [set_append_right _ _ (Nat.le_refl _), Nat.sub_self, set_cons_zero]
  simp only [sub, hidx, hget, hset]
  split
  · refine (swapRemove_perm (by simp)).trans ?_
    rw [eraseIdx_append_of_length_le (Nat.le_refl _), Nat.sub_self, eraseIdx_cons_zero]
  · exact .refl _

end Tally

namespace Tallies

variable [DecidableEq α] {l : List α} {t : List (α × UInt16)} {v : α} {n : UInt16}

theorem add (h : Tallies l t) (hn : 0 < n.toNat) (hlen : n.toNat + l.length < 2 ^ 16) (v : α) :
    Tallies (List.replicate n.toNat v ++ l) (Tally.add t v n) := by
  have hn' : n.toNat ≠ 0 := Nat.pos_iff_ne_zero.mp hn
  refine .of_mem_iff (by simpa using hlen) (Tally.nodup_add h.nodup) fun w c => ?_
  rw [Tally.mem_add h.nodup, mem_append, count_append, mem_replicate,
    count_replicate, h.mem_fst_iff]
  by_cases hw : w = v
  · subst hw
    simp only [ne_eq, not_true_eq_false, false_and, true_and, false_or, beq_self_eq_true, if_true,
      hn', not_false_eq_true, true_or]
    constructor
    · rintro (⟨c₀, hc₀, rfl⟩ | ⟨hw, rfl⟩)
      · have hcount := ((h.mem_iff _ _).mp hc₀).2
        have hle : l.count w ≤ l.length := count_le_length
        rw [UInt16.toNat_add, mod_eq_of_lt (by omega)]
        omega
      · rw [count_eq_zero_of_not_mem hw, add_zero]
    · intro hc
      by_cases hw : w ∈ l
      · obtain ⟨c₀, hc₀⟩ := h.complete w hw
        have hcount := ((h.mem_iff _ _).mp hc₀).2
        have hle : l.count w ≤ l.length := count_le_length
        refine .inl ⟨c₀, hc₀, UInt16.toNat_inj.mp ?_⟩
        rw [UInt16.toNat_add, mod_eq_of_lt (by omega)]
        omega
      · refine .inr ⟨hw, UInt16.toNat_inj.mp ?_⟩
        rw [hc, count_eq_zero_of_not_mem hw, add_zero]
  · have hv : v ≠ w := fun e => hw e.symm
    simp [hw, hv, h.mem_iff]

theorem sub (h : Tallies l t) (hlen : l.length < 2 ^ 16) (hv : v ∈ l) :
    Tallies (l.erase v) (Tally.sub t v) := by
  obtain ⟨c, hc⟩ := h.complete v hv
  obtain ⟨l₁, l₂, rfl⟩ := append_of_mem hc
  have hcount := ((h.mem_iff _ _).mp hc).2
  have hpos : 0 < l.count v := count_pos_iff.mpr hv
  have hsub : (c - 1).toNat = l.count v - 1 := by
    have hone : (1 : UInt16).toNat = 1 := rfl
    rw [UInt16.toNat_sub_of_le _ _ (UInt16.le_iff_toNat_le.mpr (by omega)), hcount, hone]
  have hnodup := h.nodup
  rw [map_append, map_cons, nodup_middle, nodup_cons, mem_append, not_or] at hnodup
  obtain ⟨⟨hv₁, hv₂⟩, hrest⟩ := hnodup
  have hother : ∀ w k, w ≠ v →
      ((w, k) ∈ l₁ ++ l₂ ↔ w ∈ l.erase v ∧ k.toNat = (l.erase v).count w) := by
    intro w k hw
    rw [mem_erase_of_ne hw, count_erase_of_ne hw, ← h.mem_iff w k]
    simp [hw]
  have hself : v ∈ l.erase v ↔ c - 1 ≠ 0 := by
    rw [← count_pos_iff, count_erase_self, ← hsub, Nat.pos_iff_ne_zero, ne_eq, ne_eq,
      ← UInt16.toNat_inj]
    rfl
  have hgone : ∀ k, (v, k) ∉ l₁ ++ l₂ := by
    intro k hk
    rcases mem_append.mp hk with hk | hk
    · exact hv₁ (mem_map.mpr ⟨_, hk, rfl⟩)
    · exact hv₂ (mem_map.mpr ⟨_, hk, rfl⟩)
  have hlen' : (l.erase v).length < 2 ^ 16 :=
    Nat.lt_of_le_of_lt erase_sublist.length_le hlen
  refine Tallies.perm_tally ?_ (Tally.sub_perm hv₁).symm
  split
  case isTrue h0 =>
    refine .of_mem_iff hlen' (by rwa [map_append]) fun w k => ?_
    by_cases hw : w = v
    · subst hw
      exact iff_of_false (hgone k) fun hk => hself.mp hk.1 h0
    · exact hother w k hw
  case isFalse h0 =>
    refine .of_mem_iff hlen' ?_ fun w k => ?_
    · rw [map_append, map_cons, nodup_middle, nodup_cons, mem_append, not_or]
      exact ⟨⟨hv₁, hv₂⟩, hrest⟩
    · rw [perm_middle.mem_iff, mem_cons]
      by_cases hw : w = v
      · subst hw
        rw [count_erase_self, ← hsub, UInt16.toNat_inj]
        simp [hgone, hself.mpr h0]
      · rw [← hother w k hw]
        simp [hw]

theorem tail {c : UInt16} (h : Tallies l ((v, c) :: t)) : Tallies (l.filter (· ≠ v)) t := by
  have hnodup := h.nodup
  rw [map_cons, nodup_cons] at hnodup
  have hmem : ∀ w k, (w, k) ∈ t → w ≠ v := by
    rintro w k hk rfl
    exact hnodup.1 (mem_map.mpr ⟨_, hk, rfl⟩)
  refine ⟨hnodup.2, fun w k => ?_, fun w hw => ?_⟩
  · by_cases hw : w = v
    · subst hw
      exact iff_of_false (fun hk => hmem w k hk rfl) (by simp)
    · have hiff := h.mem_iff w k
      simp only [mem_cons, Prod.mk.injEq, hw, false_and, false_or] at hiff
      rw [hiff, mem_filter, count_filter (by simpa using hw)]
      simp [hw]
  · rw [mem_filter] at hw
    obtain ⟨k, hk⟩ := h.complete w hw.1
    refine ⟨k, (mem_cons.mp hk).resolve_left fun he => ?_⟩
    simp only [Prod.mk.injEq] at he
    simp [he.1] at hw

theorem countP_split (l : List α) (v : α) :
    l.countP p = (if p v then l.count v else 0) + (l.filter (· ≠ v)).countP p := by
  rw [countP_eq_countP_filter_add l p fun w => decide (w = v), filter_eq, countP_replicate]
  simp

theorem foldl_add (h : Tallies l t) (acc : UInt16) (hlen : acc.toNat + l.length < 2 ^ 16) :
    (t.foldl (fun count e => if p e.1 then count + e.2 else count) acc).toNat =
      acc.toNat + l.countP p := by
  induction t generalizing l acc with
  | nil =>
    have hnil : l = [] := by
      rw [eq_nil_iff_forall_not_mem]
      intro v hv
      simpa using h.complete v hv
    simp [hnil]
  | cons e t ih =>
    obtain ⟨v, c⟩ := e
    have hc : c.toNat = l.count v := ((h.mem_iff v c).mp mem_cons_self).2
    have hlen' : l.length = c.toNat + (l.filter (· ≠ v)).length := by
      have hsplit := countP_split (fun _ => true) l v
      simpa [hc] using hsplit
    have hsplit := countP_split p l v
    rw [← hc] at hsplit
    rw [foldl_cons, hsplit]
    by_cases hp : p v = true
    · have hacc : (acc + c).toNat = acc.toNat + c.toNat := by
        rw [UInt16.toNat_add, mod_eq_of_lt (by omega)]
      simp only [hp, if_true]
      rw [ih h.tail _ (by omega), hacc]
      omega
    · simp only [hp, if_false, Bool.false_eq_true, zero_add]
      exact ih h.tail _ (by omega)

end Tallies

end Steel
