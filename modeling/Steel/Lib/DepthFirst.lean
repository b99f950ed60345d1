import Mathlib.Data.List.Basic
import Mathlib.Logic.Relation

/-! # Recursive traversals

A traversal visits a node at most once, after all that follows it. It visits exactly the
nodes that can be reached, whatever their order.
-/

namespace Steel.DepthFirst

open List

variable {α σ : Type} {next : α → List α} {emit : α → σ → σ}

def Reaches (next : α → List α) : α → α → Prop := Relation.ReflTransGen fun a b => b ∈ next a

/-- What a traversal adds to the visited nodes: an order of new nodes, all reached from the
roots, that are emitted in turn and closed under following. -/
structure Adds (next : α → List α) (emit : α → σ → σ) (roots : List α)
    (before after : σ × List α) (order : List α) : Prop where
  visited : ∀ a, a ∈ after.2 ↔ a ∈ before.2 ∨ a ∈ order
  starts : ∀ a ∈ roots, a ∈ after.2
  closed : ∀ a ∈ order, ∀ b ∈ next a, b ∈ after.2
  reached : ∀ a ∈ order, ∃ root ∈ roots, Reaches next root a
  emitted : after.1 = order.foldl (fun s a => emit a s) before.1

theorem Adds.nil (state : σ × List α) : Adds next emit [] state state [] :=
  ⟨by simp, by simp, by simp, by simp, rfl⟩

theorem Adds.append {roots roots' order order' : List α} {first second third : σ × List α}
    (h : Adds next emit roots first second order)
    (h' : Adds next emit roots' second third order') :
    Adds next emit (roots ++ roots') first third (order ++ order') where
  visited a := by
    rw [h'.visited, h.visited, mem_append, or_assoc]
  starts a ha := by
    rcases mem_append.mp ha with ha | ha
    · exact (h'.visited a).mpr (.inl (h.starts a ha))
    · exact h'.starts a ha
  closed a ha b hb := by
    rcases mem_append.mp ha with ha | ha
    · exact (h'.visited b).mpr (.inl (h.closed a ha b hb))
    · exact h'.closed a ha b hb
  reached a ha := by
    rcases mem_append.mp ha with ha | ha
    · obtain ⟨root, hroot, hreach⟩ := h.reached a ha
      exact ⟨root, mem_append_left _ hroot, hreach⟩
    · obtain ⟨root, hroot, hreach⟩ := h'.reached a ha
      exact ⟨root, mem_append_right _ hroot, hreach⟩
  emitted := by rw [h'.emitted, h.emitted, foldl_append]

variable [DecidableEq α]

/-- Visits what follows a node and then the node, with fuel for the depth. -/
def visit (next : α → List α) (emit : α → σ → σ) : ℕ → α → σ × List α → Option (σ × List α)
  | 0, _, _ => none
  | fuel + 1, a, (s, visited) =>
    if a ∈ visited then some (s, visited)
    else do
      let (s, visited) ← (next a).foldlM (fun state b => visit next emit fuel b state)
        (s, a :: visited)
      some (emit a s, visited)

def visitAll (next : α → List α) (emit : α → σ → σ) (fuel : ℕ) (roots : List α)
    (state : σ × List α) : Option (σ × List α) :=
  roots.foldlM (fun state b => visit next emit fuel b state) state

theorem visit_succ (fuel : ℕ) (a : α) (s : σ) (visited : List α) :
    visit next emit (fuel + 1) a (s, visited) = if a ∈ visited then some (s, visited)
      else (visitAll next emit fuel (next a) (s, a :: visited)).map
        fun state => (emit a state.1, state.2) := by
  rw [visit]
  split
  · rfl
  · rw [visitAll, Option.bind_eq_bind, Option.map_eq_bind]
    rfl

variable {fuel : ℕ} {before after : σ × List α}

theorem visitAll_adds (hvisit : ∀ a before after, visit next emit fuel a before = some after →
      ∃ order, Adds next emit [a] before after order) {roots : List α}
    (h : visitAll next emit fuel roots before = some after) :
    ∃ order, Adds next emit roots before after order := by
  induction roots generalizing before with
  | nil =>
    obtain rfl : before = after := by simpa [visitAll] using h
    exact ⟨[], .nil before⟩
  | cons root roots ih =>
    rw [visitAll, foldlM_cons, Option.bind_eq_bind, Option.bind_eq_some_iff] at h
    obtain ⟨between, hfirst, hrest⟩ := h
    obtain ⟨order, horder⟩ := hvisit root before between hfirst
    obtain ⟨order', horder'⟩ := ih hrest
    exact ⟨order ++ order', horder.append horder'⟩

theorem visit_adds {a : α} (h : visit next emit fuel a before = some after) :
    ∃ order, Adds next emit [a] before after order := by
  induction fuel generalizing a before after with
  | zero => cases h
  | succ fuel ih =>
    obtain ⟨s, visited⟩ := before
    rw [visit_succ] at h
    split at h
    · rename_i hmem
      obtain rfl : (s, visited) = after := by simpa using h
      exact ⟨[], by simp, by simpa using hmem, by simp, by simp, rfl⟩
    · obtain ⟨⟨s', visited'⟩, hall, rfl⟩ := Option.map_eq_some_iff.mp h
      obtain ⟨order, horder⟩ := visitAll_adds (fun a before after => ih) hall
      refine ⟨order ++ [a], ?_, ?_, ?_, ?_, ?_⟩
      · intro b
        simp only [horder.visited, mem_cons, mem_append, not_mem_nil, or_false]
        tauto
      · simpa using (horder.visited a).mpr (.inl mem_cons_self)
      · intro b hb c hc
        rcases mem_append.mp hb with hb | hb
        · exact horder.closed b hb c hc
        · obtain rfl := mem_singleton.mp hb
          exact horder.starts c hc
      · intro b hb
        refine ⟨a, mem_singleton_self a, ?_⟩
        rcases mem_append.mp hb with hb | hb
        · obtain ⟨root, hroot, hreach⟩ := horder.reached b hb
          exact .head hroot hreach
        · obtain rfl := mem_singleton.mp hb
          exact .refl
      · rw [foldl_append]
        exact congrArg (emit a) horder.emitted

/-- A traversal from nothing emits exactly the nodes that can be reached from its roots. -/
theorem visitAll_reaches {roots : List α} {s : σ} {after : σ × List α}
    (h : visitAll next emit fuel roots (s, []) = some after) :
    ∃ order : List α, (∀ a, a ∈ order ↔ ∃ root ∈ roots, Reaches next root a) ∧
      after.1 = order.foldl (fun s a => emit a s) s := by
  obtain ⟨order, horder⟩ := visitAll_adds (fun a before after => visit_adds) h
  have hmem : ∀ a, a ∈ after.2 ↔ a ∈ order := fun a => by simpa using horder.visited a
  refine ⟨order, ?_, horder.emitted⟩
  intro a
  constructor
  · exact horder.reached a
  · rintro ⟨root, hroot, hreach⟩
    induction hreach with
    | refl => exact (hmem root).mp (horder.starts root hroot)
    | tail _ hstep ih => exact (hmem _).mp (horder.closed _ ih _ hstep)

theorem visitAll_total {P : List α → Prop}
    (hvisit : ∀ a s visited, P visited → ∃ after, visit next emit fuel a (s, visited) = some after)
    (hgrow : ∀ a s visited after, P visited → visit next emit fuel a (s, visited) = some after →
      P after.2)
    (roots : List α) (s : σ) {visited : List α} (hP : P visited) :
    ∃ after, visitAll next emit fuel roots (s, visited) = some after := by
  induction roots generalizing s visited with
  | nil => exact ⟨_, rfl⟩
  | cons root roots ih =>
    obtain ⟨⟨s', visited'⟩, hfirst⟩ := hvisit root s visited hP
    rw [visitAll, foldlM_cons, hfirst, Option.bind_eq_bind, Option.bind_some]
    exact ih s' (hgrow root s visited _ hP hfirst)

section

variable {nodes : List α} (hnodes : ∀ a, next a ≠ [] → a ∈ nodes)

include hnodes

theorem visit_total {fuel : ℕ} (a : α) (s : σ) {visited : List α}
    (hfuel : (nodes.filter (· ∉ visited)).length < fuel) :
    ∃ after, visit next emit fuel a (s, visited) = some after := by
  induction fuel generalizing a s visited with
  | zero => omega
  | succ fuel ih =>
    rw [visit_succ]
    split
    · exact ⟨_, rfl⟩
    · rename_i hnew
      suffices ∃ after, visitAll next emit fuel (next a) (s, a :: visited) = some after by
        obtain ⟨after, hafter⟩ := this
        exact ⟨_, by rw [hafter]; rfl⟩
      by_cases hnext : next a = []
      · rw [hnext]
        exact ⟨_, rfl⟩
      · apply visitAll_total (P := fun visited => (nodes.filter (· ∉ visited)).length < fuel)
        · exact fun a s visited => ih a s
        · intro b s visited after hlt hafter
          obtain ⟨order, horder⟩ := visit_adds hafter
          refine Nat.lt_of_le_of_lt (Sublist.length_le (monotone_filter_right nodes ?_)) hlt
          intro c hc
          have := (horder.visited c).mpr
          simp only [decide_eq_true_eq] at hc ⊢
          exact fun hin => hc (this (.inl hin))
        · have hmem : a ∈ nodes.filter (· ∉ visited) := by simpa [hnew] using hnodes a hnext
          have hsub : nodes.filter (· ∉ a :: visited) =
              (nodes.filter (· ∉ visited)).filter (· ≠ a) := by
            rw [filter_filter]
            simp
          have hlt : ((nodes.filter (· ∉ visited)).filter (· ≠ a)).length <
              (nodes.filter (· ∉ visited)).length :=
            length_filter_lt_length_iff_exists.mpr ⟨a, hmem, by simp⟩
          rw [hsub]
          omega

theorem visitAll_some_of_visited {fuel : ℕ} (hfuel : nodes.length < fuel) (roots : List α) (s : σ)
    (visited : List α) :
    ∃ after, visitAll next emit fuel roots (s, visited) = some after := by
  apply visitAll_total (P := fun _ => True)
  · intro a s visited _
    exact visit_total hnodes a s (Nat.lt_of_le_of_lt (length_filter_le _ nodes) hfuel)
  · simp
  · trivial

theorem visitAll_some {fuel : ℕ} (hfuel : nodes.length < fuel) (roots : List α) (s : σ) :
    ∃ after, visitAll next emit fuel roots (s, []) = some after :=
  visitAll_some_of_visited hnodes hfuel roots s []

end

end Steel.DepthFirst
