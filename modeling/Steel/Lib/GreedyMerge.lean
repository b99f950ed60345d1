import Mathlib.Data.List.MinMax
import Mathlib.Data.Prod.Lex
import Mathlib.Order.BooleanAlgebra.Basic

/-! # Greedy merging of queues

Only the heads of the queues compete. The head with the least key is taken;
among equal keys the queue that was served last stays in turn, and otherwise
the queue of the lowest rank comes first.
-/

namespace Steel

open List Function

namespace GreedyMerge

variable {ι τ κ : Type} [DecidableEq ι] [LinearOrder κ]

section Definitions

variable (active : List ι) (rank : ι → ℕ) (due : τ → Bool) (key : τ → κ)

def candidates (queue : ι → List τ) : List (ι × τ) :=
  active.filterMap fun i => ((queue i).head?.filter due).map fun t => (i, t)

/-- Least first: by key, the queue in turn before the others, then by rank. -/
def preference (current : Option ι) (e : ι × τ) : κ ×ₗ Bool ×ₗ ℕ :=
  toLex (key e.2, toLex (decide (current ≠ some e.1), rank e.1))

def pick (queue : ι → List τ) (current : Option ι) : Option (ι × τ) :=
  (candidates active due queue).argmin (preference rank key current)

def advance (queue : ι → List τ) (i : ι) : ι → List τ :=
  Function.update queue i (queue i).tail

/-- At most `n` items, each with the queue it is taken from. -/
def greedy : ℕ → (ι → List τ) → Option ι → List (ι × τ)
  | 0, _, _ => []
  | n + 1, queue, current =>
    match pick active rank due key queue current with
    | none => []
    | some (i, t) => (i, t) :: greedy n (advance queue i) (some i)

def after (queue : ι → List τ) (trace : List (ι × τ)) : ι → List τ :=
  trace.foldl (fun queue e => advance queue e.1) queue

end Definitions

variable {active : List ι} {rank : ι → ℕ} {due : τ → Bool} {key : τ → κ}
variable {queue : ι → List τ} {current : Option ι} {i : ι} {t : τ} {n : ℕ} {e : ι × τ}

omit [DecidableEq ι] in
theorem mem_candidates : e ∈ candidates active due queue ↔
      e.1 ∈ active ∧ (queue e.1).head? = some e.2 ∧ due e.2 = true := by
  simp only [candidates, mem_filterMap, Option.map_eq_some_iff, Option.filter_eq_some_iff]
  constructor
  · rintro ⟨i, hi, t, ⟨ht, hdue⟩, rfl⟩
    exact ⟨hi, ht, hdue⟩
  · rintro ⟨hi, ht, hdue⟩
    exact ⟨e.1, hi, e.2, ⟨ht, hdue⟩, rfl⟩

omit [DecidableEq ι] in
theorem eq_of_mem_candidates {e e' : ι × τ} (he : e ∈ candidates active due queue)
    (he' : e' ∈ candidates active due queue) (h : e.1 = e'.1) : e = e' := by
  obtain ⟨-, ht, -⟩ := mem_candidates.mp he
  obtain ⟨-, ht', -⟩ := mem_candidates.mp he'
  rw [h, ht'] at ht
  exact Prod.ext h (Option.some.inj ht).symm

section

variable (h : (i, t) ∈ candidates active due queue)

include h

theorem pick_eq_some (hmin : ∀ e ∈ candidates active due queue, e.1 ≠ i → preference rank key
      current (i, t) < preference rank key current e) :
    pick active rank due key queue current = some (i, t) := by
  unfold pick
  cases hm : (candidates active due queue).argmin (preference rank key current) with
  | none =>
    rw [argmin_eq_none] at hm
    simp [hm] at h
  | some e =>
    have he := argmin_mem hm
    by_cases hi : e.1 = i
    · exact congrArg some (eq_of_mem_candidates he h hi)
    · exact absurd (hmin e he hi) (not_lt.mpr (le_of_mem_argmin h hm))

theorem pick_current (hle : ∀ e ∈ candidates active due queue, e.1 ≠ i → key t ≤ key e.2) :
    pick active rank due key queue (some i) = some (i, t) := by
  apply pick_eq_some h
  intro e he hi
  rcases lt_or_eq_of_le (hle e he hi) with hlt | heq
  · exact Prod.Lex.toLex_lt_toLex.mpr (Or.inl hlt)
  · refine Prod.Lex.toLex_lt_toLex.mpr (Or.inr ⟨heq, Prod.Lex.toLex_lt_toLex.mpr (Or.inl ?_)⟩)
    have hne : (some i : Option ι) ≠ some e.1 := fun hs => hi (Option.some.inj hs).symm
    simp [hne]

theorem pick_least (hlt : ∀ e ∈ candidates active due queue, e.1 ≠ i → key t < key e.2 ∨ (key t =
      key e.2 ∧ rank i < rank e.1 ∧ current ≠ some e.1)) :
    pick active rank due key queue current = some (i, t) := by
  apply pick_eq_some h
  intro e he hi
  rcases hlt e he hi with hlt | ⟨heq, hrank, hcur⟩
  · exact Prod.Lex.toLex_lt_toLex.mpr (Or.inl hlt)
  · refine Prod.Lex.toLex_lt_toLex.mpr (Or.inr ⟨heq, Prod.Lex.toLex_lt_toLex.mpr ?_⟩)
    by_cases hc : current = some i
    · left
      have hne : i ≠ e.1 := fun hs => hi hs.symm
      simp [hc, hne]
    · right
      simp [hc, hcur, hrank]

end

theorem greedy_succ (h : pick active rank due key queue current = some (i, t)) :
    greedy active rank due key (n + 1) queue current =
      (i, t) :: greedy active rank due key n (advance queue i) (some i) := by
  rw [greedy, h]

theorem greedy_of_no_candidates (h : ∀ e, e ∉ candidates active due queue) :
    greedy active rank due key n queue current = [] := by
  cases n with
  | zero => rfl
  | succ n =>
    have hnil : candidates active due queue = [] := eq_nil_iff_forall_not_mem.mpr h
    rw [greedy, pick, hnil, argmin_nil]

theorem pick_mem (h : pick active rank due key queue current = some e) :
    e ∈ candidates active due queue := argmin_mem h

theorem after_cons (e : ι × τ) (trace : List (ι × τ)) :
    after queue (e :: trace) = after (advance queue e.1) trace := rfl

theorem after_append (trace trace' : List (ι × τ)) :
    after queue (trace ++ trace') = after (after queue trace) trace' := foldl_append

theorem queue_eq_taken_append (i : ι) :
    queue i = ((greedy active rank due key n queue current).filter fun e => e.1 = i).map Prod.snd ++
      after queue (greedy active rank due key n queue current) i := by
  induction n generalizing queue current with
  | zero => rfl
  | succ n ih =>
    cases hp : pick active rank due key queue current with
    | none =>
      rw [greedy, hp]
      rfl
    | some e =>
      obtain ⟨j, t⟩ := e
      obtain ⟨-, ht, -⟩ := mem_candidates.mp (pick_mem hp)
      have hrest := @ih (advance queue j) (some j)
      rw [greedy_succ hp, after_cons]
      by_cases hji : j = i
      · subst hji
        rw [filter_cons_of_pos (by simp), map_cons, cons_append, ← hrest, advance,
          update_self, List.cons_head?_tail ht]
      · rw [filter_cons_of_neg (by simpa using hji), ← hrest, advance, update_of_ne (Ne.symm hji)]

theorem mem_candidates_update {l : List τ} (h : e.1 ≠ i) :
    e ∈ candidates active due (Function.update queue i l) ↔ e ∈ candidates active due queue := by
  rw [mem_candidates, mem_candidates, update_of_ne h]

/-- A queue in turn is drained while its heads are due and no other head has a smaller key. -/
theorem greedy_run (hi : i ∈ active) {taken rest : List τ} (hq : queue i = taken ++ rest)
    (hdue : ∀ t ∈ taken, due t = true)
    (hle : ∀ t ∈ taken, ∀ e ∈ candidates active due queue, e.1 ≠ i → key t ≤ key e.2) :
    greedy active rank due key (taken.length + n) queue (some i) = taken.map (fun t => (i, t)) ++
        greedy active rank due key n (Function.update queue i rest) (some i) := by
  induction taken generalizing queue with
  | nil =>
    rw [nil_append] at hq
    rw [← hq, update_eq_self]
    simp
  | cons t taken ih =>
    have hhead : (i, t) ∈ candidates active due queue :=
      mem_candidates.mpr ⟨hi, by rw [hq]; rfl, hdue t mem_cons_self⟩
    have hpick : pick active rank due key queue (some i) = some (i, t) :=
      pick_current hhead (hle t mem_cons_self)
    have hadvance : advance queue i = Function.update queue i (taken ++ rest) := by
      rw [advance, hq]
      rfl
    rw [length_cons, Nat.succ_add, greedy_succ hpick, hadvance, ih (update_self ..),
      update_idem, map_cons, cons_append]
    · intro u hu
      exact hdue u (mem_cons_of_mem t hu)
    · intro u hu e he hne
      exact hle u (mem_cons_of_mem t hu) e ((mem_candidates_update hne).mp he) hne

theorem after_run {taken rest : List τ} (hq : queue i = taken ++ rest) :
    after queue (taken.map fun t => (i, t)) = Function.update queue i rest := by
  induction taken generalizing queue with
  | nil =>
    rw [nil_append] at hq
    rw [← hq, update_eq_self]
    rfl
  | cons t taken ih =>
    have hadvance : advance queue i = Function.update queue i (taken ++ rest) := by
      rw [advance, hq]
      rfl
    rw [map_cons, after_cons, hadvance, ih (update_self ..), update_idem]

theorem greedy_mem_head (h : e ∈ greedy active rank due key n queue current) :
    ∃ t, (e.1, t) ∈ candidates active due queue := by
  induction n generalizing queue current with
  | zero => simp [greedy] at h
  | succ n ih =>
    cases hp : pick active rank due key queue current with
    | none => simp [greedy, hp] at h
    | some e' =>
      have hmem := pick_mem hp
      rw [greedy, hp] at h
      rcases mem_cons.mp h with heq | h
      · exact ⟨e'.2, by rw [heq]; exact hmem⟩
      · obtain ⟨t, ht⟩ := ih h
        by_cases hi : e.1 = e'.1
        · exact ⟨e'.2, by rw [hi]; exact hmem⟩
        · exact ⟨t, (mem_candidates_update (e := (e.1, t)) hi).mp ht⟩

end GreedyMerge

end Steel
