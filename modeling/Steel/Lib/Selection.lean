import Mathlib.Algebra.BigOperators.Group.List.Basic
import Mathlib.Algebra.Ring.Nat

/-! # Selections

A selection picks parts of a value and puts changed parts back. Selections compose: the parts of all
parts are parts of the whole.
-/

namespace Steel

open List
open Option (isSome)

variable {α : Type*}

/-- Parts of a value, and the value with other parts in their place. -/
structure Selection (α : Type*) where
  parts : List α
  put : List α → α

namespace Selection

def whole (a : α) : Selection α := ⟨[a], fun parts => parts.headD a⟩

/-- Puts consecutive parts back into consecutive selections. -/
def fill : List (Selection α) → List α → List α
  | [], _ => []
  | s :: ss, parts => s.put (parts.take s.parts.length) :: fill ss (parts.drop s.parts.length)

variable (s : Selection α)

def bind (f : α → Selection α) : Selection α where
  parts := s.parts.flatMap fun a => (f a).parts
  put := fun parts => s.put (fill (s.parts.map f) parts)

variable (ss : List (Selection α))

@[simp] theorem length_fill : ∀ parts, (fill ss parts).length = ss.length := by
  induction ss with
  | nil => exact fun parts => rfl
  | cons s ss ih => exact fun parts => congrArg (· + 1) (ih _)

theorem fill_append (ss ss' : List (Selection α)) : ∀ parts, fill (ss ++ ss') parts =
      fill ss parts ++ fill ss' (parts.drop (ss.flatMap (·.parts)).length) := by
  induction ss with
  | nil => exact fun parts => rfl
  | cons s ss ih =>
    intro parts
    simp [fill, ih]

theorem fill_take :
    ∀ parts, fill ss (parts.take (ss.flatMap (·.parts)).length) = fill ss parts := by
  induction ss with
  | nil => exact fun parts => rfl
  | cons s ss ih =>
    intro parts
    simp only [fill, flatMap_cons, length_append, take_take]
    congr 1
    · rw [Nat.min_eq_left (Nat.le_add_right _ _)]
    · rw [drop_take, Nat.add_sub_cancel_left, ih]

theorem bind_assoc (f g : α → Selection α) : (s.bind f).bind g = s.bind fun a => (f a).bind g := by
  have hfill : ∀ (l : List α) (parts : List α),
      fill (l.map f) (fill ((l.flatMap fun a => (f a).parts).map g) parts) =
        fill (l.map fun a => (f a).bind g) parts := by
    intro l
    induction l with
    | nil => exact fun parts => rfl
    | cons a l ih =>
      intro parts
      have hparts : (((f a).parts.map g).flatMap fun s => s.parts) = ((f a).bind g).parts := by
        simp [bind, flatMap_map]
      simp only [flatMap_cons, map_append, fill_append, map_cons, fill]
      rw [take_left' (by simp), drop_left' (by simp), ih, hparts]
      congr 1
      have htake := fill_take ((f a).parts.map g) parts
      rw [hparts] at htake
      exact congrArg (f a).put htake.symm
  simp only [bind, flatMap_assoc]
  congr 1
  funext parts
  exact congrArg s.put (hfill s.parts parts)

theorem bind_whole_put {parts : List α} (h : parts.length = s.parts.length) :
    (s.bind whole).put parts = s.put parts := by
  have hfill : ∀ l parts : List α, parts.length = l.length → fill (l.map whole) parts = parts := by
    intro l
    induction l with
    | nil => exact fun parts h => (length_eq_zero_iff.1 h).symm
    | cons a l ih =>
      rintro (_ | ⟨b, parts⟩) h
      · cases h
      · simp only [map_cons, fill, whole, length_singleton, take_succ_cons,
          take_zero, headD_cons, drop_succ_cons, drop_zero]
        rw [ih parts (Nat.succ.inj h)]
  exact congrArg s.put (hfill s.parts parts h)

theorem whole_bind_put (a : α) (f : α → Selection α) {parts : List α}
    (h : parts.length = (f a).parts.length) : ((whole a).bind f).put parts = (f a).put parts := by
  simp only [bind, whole, map_cons, map_nil, fill, headD_cons]
  rw [← h, take_length]

theorem fill_flatMap {h : α → Selection α} {g : α → List α}
    (hlength : ∀ a, (g a).length = (h a).parts.length) (l : List α) :
    fill (l.map h) (l.flatMap g) = l.map fun a => (h a).put (g a) := by
  induction l with
  | nil => rfl
  | cons a l ih =>
    simp only [map_cons, flatMap_cons, fill]
    rw [take_left' (hlength a), drop_left' (hlength a), ih]

/-- The parts that are selected by steps one after the other. -/
def descend : List (α → Selection α) → α → Selection α
  | [], a => whole a
  | f :: fs, a => (f a).bind (descend fs)

/-- How the branches end, from left to right: behind the last step, or at a dead end with the
given number of steps left after it. -/
def ends : List (α → Selection α) → α → List (Option ℕ)
  | [], _ => [none]
  | f :: fs, a => if (f a).parts.isEmpty then [some fs.length] else (f a).parts.flatMap (ends fs)

/-- Updates the parts depth first and adds up what the updates count. A dead end is an error. -/
def depthFirst (update : α → ℕ × α) : List (α → Selection α) → α → Except ℕ (ℕ × α)
  | [], a => .ok (update a)
  | f :: fs, a =>
    if (f a).parts.isEmpty then .error fs.length
    else
      match (f a).parts.mapM (depthFirst update fs) with
      | .error left => .error left
      | .ok results => .ok ((results.map Prod.fst).sum, (f a).put (results.map Prod.snd))

/-- Selects level by level. It is an error when no part is left at all. -/
def levels : List (α → Selection α) → Selection α → Except ℕ (Selection α)
  | [], s => .ok s
  | f :: fs, s => if (s.bind f).parts.isEmpty then .error fs.length else levels fs (s.bind f)

def levelwise (update : α → ℕ × α) (fs : List (α → Selection α)) (a : α) : Except ℕ (ℕ × α) :=
  match levels fs (whole a) with
  | .error left => .error left
  | .ok s =>
    .ok (((s.parts.map update).map Prod.fst).sum, s.put ((s.parts.map update).map Prod.snd))

theorem ends_ne_nil (fs : List (α → Selection α)) (a : α) : ends fs a ≠ [] := by
  induction fs generalizing a with
  | nil => exact cons_ne_nil _ _
  | cons f fs ih =>
    rw [ends]
    split_ifs with h
    · exact cons_ne_nil _ _
    · rw [List.isEmpty_iff] at h
      obtain ⟨b, hb⟩ := exists_mem_of_ne_nil _ h
      rw [ne_eq, flatMap_eq_nil_iff]
      exact fun hall => ih b (hall b hb)

variable {a : α} {fs : List (α → Selection α)} {left : ℕ} {update : α → ℕ × α}

theorem ends_lt (h : some left ∈ ends fs a) : left < fs.length := by
  induction fs generalizing a with
  | nil => simp [ends] at h
  | cons f fs ih =>
    rw [ends] at h
    rw [length_cons]
    split_ifs at h
    · simp at h
      omega
    · obtain ⟨b, -, hb⟩ := mem_flatMap.1 h
      have := ih hb
      omega

theorem mapM_ok {β ε : Type*} {f : α → Except ε β} {g : α → β} {l : List α}
    (h : ∀ a ∈ l, f a = .ok (g a)) : l.mapM f = .ok (l.map g) := by
  induction l with
  | nil => rfl
  | cons a l ih =>
    rw [mapM_cons, h a mem_cons_self, ih fun b hb => h b (mem_cons_of_mem a hb)]
    rfl

theorem depthFirst_ok : ∀ {a : α}, (∀ e ∈ ends fs a, e = none) → depthFirst update fs a =
        .ok ((((descend fs a).parts.map update).map Prod.fst).sum,
          (descend fs a).put (((descend fs a).parts.map update).map Prod.snd)) := by
  induction fs with
  | nil =>
    intro a h
    simp [depthFirst, descend, whole]
  | cons f fs ih =>
    intro a h
    rw [ends] at h
    rw [depthFirst]
    split_ifs at h ⊢ with hempty
    · exact absurd (h _ (mem_singleton_self _)) (by simp)
    · rw [mapM_ok fun b hb => ih fun e he => h e (mem_flatMap.2 ⟨b, hb, he⟩)]
      simp only [descend, bind, map_map, map_flatMap]
      congr 2
      · simp [List.flatMap, sum_flatten, Function.comp_def]
      · rw [fill_flatMap fun b => by simp]
        rfl

theorem mapM_error (ih : ∀ {a : α} {left : ℕ}, (ends fs a).find? isSome = some (some left) →
      depthFirst update fs a = .error left) {l : List α}
    (h : (l.flatMap (ends fs)).find? isSome = some (some left)) :
    l.mapM (depthFirst update fs) = .error left := by
  induction l with
  | nil => cases h
  | cons a l ihl =>
    rw [flatMap_cons, List.find?_append] at h
    rw [mapM_cons]
    cases hfind : (ends fs a).find? isSome with
    | none =>
      have hnone : ∀ e ∈ ends fs a, e = none := fun e he => by
        simpa using List.find?_eq_none.1 hfind e he
      rw [hfind] at h
      rw [depthFirst_ok hnone, ihl h]
      rfl
    | some e =>
      rw [hfind] at h
      obtain rfl : e = some left := Option.some.inj h
      rw [ih hfind]
      rfl

theorem depthFirst_error :
    ∀ {a : α} {left : ℕ}, (ends fs a).find? isSome = some (some left) →
      depthFirst update fs a = .error left := by
  induction fs with
  | nil =>
    intro a left h
    simp [ends] at h
  | cons f fs ih =>
    intro a left h
    rw [ends] at h
    rw [depthFirst]
    split_ifs at h ⊢ with hempty
    · simp at h
      rw [h]
    · rw [mapM_error ih h]

theorem depthFirst_error_lt (h : depthFirst update fs a = .error left) : left < fs.length := by
  cases hfind : (ends fs a).find? isSome with
  | none =>
    rw [depthFirst_ok fun e he => by simpa using List.find?_eq_none.1 hfind e he] at h
    cases h
  | some e =>
    obtain ⟨first, rfl⟩ := Option.isSome_iff_exists.1 (List.find?_some hfind)
    rw [depthFirst_error hfind] at h
    cases h
    exact ends_lt (List.mem_of_find?_eq_some hfind)

theorem ends_lt_of_mem {l : List α} (h : some left ∈ l.flatMap (ends fs)) : left < fs.length := by
  obtain ⟨a, -, ha⟩ := mem_flatMap.1 h
  exact ends_lt ha

/-- Selecting level by level selects the same parts, if any branch gets to the last level. -/
theorem levels_ok : ∀ {s : Selection α}, none ∈ s.parts.flatMap (ends fs) →
      ∃ s', levels fs s = .ok s' ∧ s'.parts = (s.bind (descend fs)).parts ∧
        ∀ parts, parts.length = s'.parts.length →
          s'.put parts = (s.bind (descend fs)).put parts := by
  induction fs with
  | nil =>
    intro s h
    refine ⟨s, rfl, ?_, fun parts hparts => (s.bind_whole_put hparts).symm⟩
    simp [bind, descend, whole]
  | cons f fs ih =>
    intro s h
    obtain ⟨a, ha, hend⟩ := mem_flatMap.1 h
    rw [ends] at hend
    split_ifs at hend with hempty
    · simp at hend
    · obtain ⟨b, hb, hend⟩ := mem_flatMap.1 hend
      have hmem : b ∈ (s.bind f).parts := mem_flatMap.2 ⟨a, ha, hb⟩
      obtain ⟨s', hs', hparts, hput⟩ :=
        ih (mem_flatMap.2 ⟨b, hmem, hend⟩ : none ∈ (s.bind f).parts.flatMap (ends fs))
      have hnonempty : (s.bind f).parts.isEmpty = false :=
        isEmpty_eq_false_iff_exists_mem.2 ⟨b, hmem⟩
      refine ⟨s', by rw [levels, hnonempty]; exact hs', ?_, ?_⟩
      · rw [hparts, bind_assoc]
        rfl
      · intro parts hlength
        rw [hput parts hlength, bind_assoc]
        rfl

theorem levels_error_lt :
    ∀ {s : Selection α} {left : ℕ}, levels fs s = .error left → left < fs.length := by
  induction fs with
  | nil =>
    intro s left h
    cases h
  | cons f fs ih =>
    intro s left h
    rw [levels] at h
    split_ifs at h
    · cases h
      exact Nat.lt_succ_self _
    · exact Nat.lt_succ_of_lt (ih h)

/-- When no branch gets to the last level, the error is that of the branches that get farthest. -/
theorem levels_error : ∀ {s : Selection α}, s.parts ≠ [] → none ∉ s.parts.flatMap (ends fs) →
      ∃ left, levels fs s = .error left ∧ some left ∈ s.parts.flatMap (ends fs) ∧
        ∀ other, some other ∈ s.parts.flatMap (ends fs) → left ≤ other := by
  induction fs with
  | nil =>
    intro s hparts h
    obtain ⟨a, ha⟩ := exists_mem_of_ne_nil _ hparts
    exact absurd (mem_flatMap.2 ⟨a, ha, mem_singleton_self none⟩) h
  | cons f fs ih =>
    intro s hparts h
    have hbind : ∀ e, e ∈ (s.bind f).parts.flatMap (ends fs) →
        e ∈ s.parts.flatMap (ends (f :: fs)) := by
      intro e he
      obtain ⟨b, hb, he⟩ := mem_flatMap.1 he
      obtain ⟨a, ha, hb⟩ := mem_flatMap.1 hb
      refine mem_flatMap.2 ⟨a, ha, ?_⟩
      rw [ends, if_neg (by simp; exact ne_nil_of_mem hb)]
      exact mem_flatMap.2 ⟨b, hb, he⟩
    rw [levels]
    split_ifs with hempty
    · have hdead : ∀ a ∈ s.parts, ends (f :: fs) a = [some fs.length] := by
        intro a ha
        rw [List.isEmpty_iff] at hempty
        have hnil : (f a).parts = [] := flatMap_eq_nil_iff.1 hempty a ha
        rw [ends, hnil]
        rfl
      obtain ⟨a, ha⟩ := exists_mem_of_ne_nil _ hparts
      refine ⟨fs.length, rfl, mem_flatMap.2 ⟨a, ha, by simp [hdead a ha]⟩, ?_⟩
      intro other hother
      obtain ⟨b, hb, hother⟩ := mem_flatMap.1 hother
      simp [hdead b hb] at hother
      omega
    · obtain ⟨left, hleft, hmem, hleast⟩ :=
        ih (fun hnil => hempty (List.isEmpty_iff.2 hnil)) fun hnone => h (hbind none hnone)
      refine ⟨left, hleft, hbind _ hmem, fun other hother => ?_⟩
      obtain ⟨a, ha, hother⟩ := mem_flatMap.1 hother
      rw [ends] at hother
      split_ifs at hother
      · have := ends_lt_of_mem hmem
        simp at hother
        omega
      · obtain ⟨b, hb, hother⟩ := mem_flatMap.1 hother
        exact hleast other (mem_flatMap.2 ⟨b, mem_flatMap.2 ⟨a, ha, hb⟩, hother⟩)

theorem levelwise_of_none_mem (h : none ∈ ends fs a) : levelwise update fs a =
      .ok ((((descend fs a).parts.map update).map Prod.fst).sum,
        (descend fs a).put (((descend fs a).parts.map update).map Prod.snd)) := by
  have hmem : none ∈ (whole a).parts.flatMap (ends fs) := by simpa [whole] using h
  obtain ⟨s, hs, hparts, hput⟩ := levels_ok hmem
  have hdescend : s.parts = (descend fs a).parts := by
    rw [hparts]
    simp [bind, whole]
  simp only [levelwise, hs]
  rw [hput _ (by simp), whole_bind_put a (descend fs) (by simp [hdescend]), hdescend]

/-- Both ways agree if and only if there is no dead end, or no branch gets to the last step and
the first dead end is as far as any branch gets. -/
theorem depthFirst_eq_levelwise_iff (update : α → ℕ × α) :
    depthFirst update fs a = levelwise update fs a ↔
      (∀ e ∈ ends fs a, e = none) ∨ (none ∉ ends fs a ∧ ∃ left,
        (ends fs a).head? = some (some left) ∧ ∀ other, some other ∈ ends fs a → left ≤ other) := by
  by_cases hall : ∀ e ∈ ends fs a, e = none
  · obtain ⟨e, he⟩ := exists_mem_of_ne_nil _ (ends_ne_nil fs a)
    have hnone : none ∈ ends fs a := by rwa [hall e he] at he
    rw [depthFirst_ok hall, levelwise_of_none_mem hnone]
    exact iff_of_true rfl (Or.inl hall)
  · obtain ⟨left, hfind⟩ : ∃ left, (ends fs a).find? isSome = some (some left) := by
      cases hfind : (ends fs a).find? isSome with
      | none => exact absurd (fun e he => by simpa using List.find?_eq_none.1 hfind e he) hall
      | some e =>
        obtain ⟨left, rfl⟩ := Option.isSome_iff_exists.1 (List.find?_some hfind)
        exact ⟨left, rfl⟩
    rw [depthFirst_error hfind]
    by_cases hnone : none ∈ ends fs a
    · rw [levelwise_of_none_mem hnone]
      simp [hall, hnone]
    · have hmem : none ∉ (whole a).parts.flatMap (ends fs) := by simpa [whole] using hnone
      obtain ⟨least, hleast, hmemLeast, hle⟩ := levels_error (cons_ne_nil a []) hmem
      have hends : (whole a).parts.flatMap (ends fs) = ends fs a := by simp [whole]
      rw [hends] at hmemLeast hle
      have hhead : (ends fs a).head? = some (some left) := by
        cases hcases : ends fs a with
        | nil => exact absurd hcases (ends_ne_nil fs a)
        | cons e es =>
          rw [hcases] at hfind hnone
          cases e with
          | none => exact absurd mem_cons_self hnone
          | some e => simpa using hfind
      simp only [levelwise, hleast, hall, hnone, hhead, not_false_eq_true, true_and, false_or,
        Option.some.injEq, exists_eq_left']
      constructor
      · rintro heq
        obtain rfl : left = least := by simpa using heq
        exact hle
      · intro hleft
        have hge := hle left (List.mem_of_mem_head? hhead)
        rw [Nat.le_antisymm (hleft least hmemLeast) hge]

end Selection

end Steel
