import Mathlib.Data.Finset.Card
import Mathlib.Data.List.Chain

/-! # Search for cycles

A depth-first search keeps the nodes that are done and the path to the current node.
-/

namespace Steel.CycleSearch

open List

variable {α β : Type*} {next : α → List α}

/-- Nodes that follow one another, the last one being the first one again. -/
structure IsCycle (next : α → List α) (cycle : List α) : Prop where
  two_le : 2 ≤ cycle.length
  closed : cycle.head? = cycle.getLast?
  follows : cycle.IsChain fun a b => b ∈ next a

def Acyclic (next : α → List α) : Prop := ∀ a, ¬ Relation.TransGen (fun a b => b ∈ next a) a a

theorem IsCycle.not_acyclic {cycle : List α} (h : IsCycle next cycle) : ¬ Acyclic next := by
  obtain ⟨htwo, hclosed, hfollows⟩ := h
  match cycle with
  | [] => exact absurd htwo (by simp)
  | [a] => exact absurd htwo (Nat.lt_irrefl 1)
  | a :: b :: rest =>
    rw [isChain_cons_cons] at hfollows
    have hlast : (b :: rest).getLast (cons_ne_nil b rest) = a := by
      rw [List.head?_cons, List.getLast?_cons_cons,
        List.getLast?_eq_some_getLast (cons_ne_nil b rest)] at hclosed
      exact (Option.some.inj hclosed).symm
    have hback := relationReflTransGen_of_exists_isChain_cons rest hfollows.2 hlast
    exact fun hacyclic => hacyclic a (Relation.TransGen.head' hfollows.1 hback)

def Finds (next : α → List α) (P : β → Prop) : Except (Option (List α)) β → Prop
  | .ok b => P b
  | .error (some cycle) => IsCycle next cycle
  | .error none => False

/-- What is done is closed under following, lies on no cycle, and is not on the path. -/
structure Explored (next : α → List α) (stack visited : List α) : Prop where
  closed : ∀ a ∈ visited, ∀ b ∈ next a, b ∈ visited
  acyclic : ∀ a ∈ visited, ¬ Relation.TransGen (fun a b => b ∈ next a) a a
  disjoint : ∀ a ∈ stack, a ∉ visited

theorem Explored.nil : Explored next ([] : List α) [] := ⟨nofun, nofun, nofun⟩

variable {stack visited : List α}

theorem Explored.reaches (h : Explored next stack visited) {a b : α}
    (hab : Relation.ReflTransGen (fun a b => b ∈ next a) a b) (ha : a ∈ visited) : b ∈ visited := by
  induction hab with
  | refl => exact ha
  | tail _ hbc ih => exact h.closed _ ih _ hbc

theorem Explored.done {a : α} (h : Explored next (stack ++ [a]) visited)
    (hnext : ∀ b ∈ next a, b ∈ visited) (hnew : a ∉ stack) :
    Explored next stack (a :: visited) := by
  have ha : a ∉ visited := h.disjoint a (mem_append_right _ mem_cons_self)
  refine ⟨fun b hb c hc => ?_, fun b hb hcycle => ?_, fun b hb hvisited => ?_⟩
  · rcases mem_cons.1 hb with rfl | hb
    · exact mem_cons_of_mem _ (hnext c hc)
    · exact mem_cons_of_mem _ (h.closed b hb c hc)
  · rcases mem_cons.1 hb with rfl | hb
    · obtain ⟨c, hc, hback⟩ := Relation.TransGen.head'_iff.1 hcycle
      exact ha (h.reaches hback (hnext c hc))
    · exact h.acyclic b hb hcycle
  · rcases mem_cons.1 hvisited with rfl | hvisited
    · exact hnew hb
    · exact h.disjoint b (mem_append_left _ hb) hvisited

section Fold

variable {f : List α → β → Except (Option (List α)) (List α)} {I : List α → Prop}

/-- A fold that keeps a condition, and never forgets, does what each of its steps does. -/
theorem Finds.foldlM {D : β → List α → Prop} {l : List β} {visited : List α} (h : I visited)
    (hf : ∀ visited, I visited → ∀ b ∈ l,
      Finds next (fun visited' => I visited' ∧ visited ⊆ visited' ∧ D b visited') (f visited b))
    (hmono : ∀ b visited visited', visited ⊆ visited' → D b visited → D b visited') :
    Finds next (fun visited' => I visited' ∧ visited ⊆ visited' ∧ ∀ b ∈ l, D b visited')
      (l.foldlM f visited) := by
  induction l generalizing visited with
  | nil => exact ⟨h, List.Subset.refl _, nofun⟩
  | cons b l ih =>
    rw [foldlM_cons]
    have hfirst := hf visited h b mem_cons_self
    cases hb : f visited b with
    | error error =>
      rw [hb] at hfirst
      cases error with
      | none => exact hfirst
      | some cycle => exact hfirst
    | ok between =>
      rw [hb] at hfirst
      obtain ⟨hbetween, hsub, hdone⟩ := hfirst
      have hrest := ih hbetween fun visited hvisited c hc =>
        hf visited hvisited c (mem_cons_of_mem b hc)
      change Finds next _ (l.foldlM f between)
      cases hl : l.foldlM f between with
      | error error =>
        rw [hl] at hrest
        cases error with
        | none => exact hrest
        | some cycle => exact hrest
      | ok after =>
        rw [hl] at hrest
        obtain ⟨hafter, hsub', hall⟩ := hrest
        refine ⟨hafter, List.Subset.trans hsub hsub', fun c hc => ?_⟩
        rcases mem_cons.1 hc with rfl | hc
        · exact hmono c between after hsub' hdone
        · exact hall c hc

end Fold

variable [DecidableEq α]

/-- Searches from a node, with fuel for the depth. A missing error stands for a search that is cut
off. -/
def visit (next : α → List α) : ℕ → List α → List α → α → Except (Option (List α)) (List α)
  | 0, _, _, _ => .error none
  | fuel + 1, stack, visited, a =>
    if a ∈ visited then .ok visited
    else
      match stack.findIdx? (· = a) with
      | some start => .error (some (stack.drop start ++ [a]))
      | none => do
        let visited ← (next a).foldlM (visit next fuel (stack ++ [a])) visited
        return a :: visited

theorem isCycle_of_findIdx? {stack : List α} {a : α} {start : ℕ}
    (hstart : stack.findIdx? (· = a) = some start)
    (hpath : (stack ++ [a]).IsChain fun a b => b ∈ next a) :
    IsCycle next (stack.drop start ++ [a]) := by
  obtain ⟨hlt, hget, -⟩ := List.findIdx?_eq_some_iff_getElem.1 hstart
  have hget : stack[start] = a := of_decide_eq_true hget
  have hsuffix : stack.drop start ++ [a] <:+ stack ++ [a] := by
    rw [← drop_append_of_le_length hlt.le]
    exact drop_suffix start _
  have hpath' := hpath.suffix hsuffix
  rw [drop_eq_getElem_cons hlt, hget] at hpath' ⊢
  refine ⟨?_, ?_, hpath'⟩
  · simp
  · rw [List.getLast?_concat]
    rfl

/-- The search ends: it finds a cycle, or the node and all that can be reached are done. -/
theorem visit_spec {nodes : Finset α} (hnext : ∀ a ∈ nodes, ∀ b ∈ next a, b ∈ nodes) {fuel : ℕ}
    {a : α} (h : Explored next stack visited)
    (hpath : (stack ++ [a]).IsChain fun a b => b ∈ next a) (hnodup : stack.Nodup)
    (hnodes : ∀ b ∈ stack, b ∈ nodes) (ha : a ∈ nodes) (hfuel : nodes.card < fuel + stack.length) :
    Finds next (fun visited' => Explored next stack visited' ∧ visited ⊆ visited' ∧ a ∈ visited')
      (visit next fuel stack visited a) := by
  induction fuel generalizing stack visited a with
  | zero =>
    have hcard : stack.length ≤ nodes.card := by
      rw [← toFinset_card_of_nodup hnodup]
      exact Finset.card_le_card fun b hb => hnodes b (mem_toFinset.1 hb)
    omega
  | succ fuel ih =>
    unfold visit
    split
    · rename_i hvisited
      exact ⟨h, List.Subset.refl _, hvisited⟩
    · rename_i hnew
      split
      · rename_i start hstart
        exact isCycle_of_findIdx? hstart hpath
      · rename_i hstart
        have hstack : a ∉ stack := by
          rw [List.findIdx?_eq_none_iff] at hstart
          exact fun hmem => of_decide_eq_false (hstart a hmem) rfl
        have hexplored : Explored next (stack ++ [a]) visited := by
          refine ⟨h.closed, h.acyclic, fun b hb => ?_⟩
          rcases mem_append.1 hb with hb | hb
          · exact h.disjoint b hb
          · rw [mem_singleton.1 hb]
            exact hnew
        have hfold : Finds next (fun visited' => Explored next (stack ++ [a]) visited' ∧
            visited ⊆ visited' ∧ ∀ b ∈ next a, b ∈ visited')
            ((next a).foldlM (visit next fuel (stack ++ [a])) visited) := by
          refine Finds.foldlM hexplored (fun visited hvisited b hb => ?_)
            fun b visited visited' hsub hb => hsub hb
          refine ih hvisited ?_ ?_ ?_ (hnext a ha b hb) ?_
          · rw [isChain_append]
            refine ⟨hpath, isChain_singleton b, ?_⟩
            simpa using hb
          · rw [nodup_append]
            exact ⟨hnodup, nodup_singleton a,
              by simpa using fun c hc => ne_of_mem_of_not_mem hc hstack⟩
          · intro c hc
            rcases mem_append.1 hc with hc | hc
            · exact hnodes c hc
            · rwa [mem_singleton.1 hc]
          · rw [length_append, length_singleton]
            omega
        cases hresult : (next a).foldlM (visit next fuel (stack ++ [a])) visited with
        | error error =>
          rw [hresult] at hfold
          cases error with
          | none => exact hfold
          | some cycle => exact hfold
        | ok visited' =>
          rw [hresult] at hfold
          obtain ⟨hdone, hsub, hall⟩ := hfold
          exact ⟨hdone.done hall hstack, subset_cons_of_subset a hsub, mem_cons_self⟩

theorem visitAll_spec (nodes : Finset α) (hnext : ∀ a ∈ nodes, ∀ b ∈ next a, b ∈ nodes)
    (houtside : ∀ a, a ∉ nodes → next a = []) {roots : List α} (hroots : ∀ a, a ∈ roots ↔ a ∈ nodes)
    {fuel : ℕ} (hfuel : nodes.card < fuel) :
    Finds next (fun _ => Acyclic next) (roots.foldlM (visit next fuel []) []) := by
  have hfold : Finds next (fun visited' => Explored next [] visited' ∧ [] ⊆ visited' ∧
      ∀ a ∈ roots, a ∈ visited') (roots.foldlM (visit next fuel []) []) := by
    refine Finds.foldlM .nil (fun visited hvisited a ha => ?_)
      fun b visited visited' hsub hb => hsub hb
    exact visit_spec hnext hvisited (isChain_singleton a) .nil nofun ((hroots a).1 ha) hfuel
  cases hresult : roots.foldlM (visit next fuel []) [] with
  | error error =>
    rw [hresult] at hfold
    cases error with
    | none => exact hfold
    | some cycle => exact hfold
  | ok visited =>
    rw [hresult] at hfold
    obtain ⟨hexplored, -, hall⟩ := hfold
    intro a hcycle
    by_cases ha : a ∈ nodes
    · exact hexplored.acyclic a (hall a ((hroots a).2 ha)) hcycle
    · obtain ⟨b, hb, -⟩ := Relation.TransGen.head'_iff.1 hcycle
      rw [houtside a ha] at hb
      cases hb

end Steel.CycleSearch
