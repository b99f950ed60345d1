import Mathlib.Data.List.Basic

/-! # Traversals with a stack

A traversal visits the nodes of a stack and pushes what follows each of them. When it
ends, what it visited is closed under following.
-/

namespace Steel.Worklist

open List

variable {α ε : Type} {expand : α → List α → Except ε (List α)}

/-- Visits the nodes of a stack until it is empty, with fuel for the number of visits. -/
def visit (expand : α → List α → Except ε (List α)) :
    ℕ → List α → List α → Option (Except ε (List α))
  | 0, _, _ => none
  | _ + 1, [], visited => some (.ok visited)
  | fuel + 1, a :: pending, visited =>
    match expand a pending with
    | .error e => some (.error e)
    | .ok pending => visit expand fuel pending (visited ++ [a])

/-- Every push keeps the stack and adds all that follows the node. -/
def Pushes (expand : α → List α → Except ε (List α)) (follows : α → α → Prop) : Prop :=
  ∀ a pending pushed, expand a pending = .ok pushed →
    pending ⊆ pushed ∧ ∀ b, follows a b → b ∈ pushed

variable {pending visited result : List α}

theorem visit_closed {follows : α → α → Prop} (hp : Pushes expand follows) {fuel : ℕ}
    (hv : ∀ a ∈ visited, ∀ b, follows a b → b ∈ visited ∨ b ∈ pending)
    (h : visit expand fuel pending visited = some (.ok result)) :
    visited ⊆ result ∧ pending ⊆ result ∧ ∀ a ∈ result, ∀ b, follows a b → b ∈ result := by
  induction fuel generalizing pending visited with
  | zero => simp [visit] at h
  | succ fuel ih =>
    cases pending with
    | nil =>
      obtain rfl : visited = result := by simpa [visit] using h
      exact ⟨fun _ h => h, by simp, fun a ha b hb => by simpa using hv a ha b hb⟩
    | cons a pending =>
      rw [visit] at h
      split at h
      · cases h
      · rename_i pushed hexpand
        obtain ⟨hkeep, hadd⟩ := hp a pending pushed hexpand
        have hnext : ∀ c ∈ visited ++ [a], ∀ b, follows c b → b ∈ visited ++ [a] ∨ b ∈ pushed := by
          intro c hc b hb
          rcases mem_append.mp hc with hc | hc
          · rcases hv c hc b hb with hb | hb
            · exact .inl (mem_append_left _ hb)
            · rcases mem_cons.mp hb with rfl | hb
              · exact .inl (by simp)
              · exact .inr (hkeep hb)
          · obtain rfl : c = a := by simpa using hc
            exact .inr (hadd b hb)
        obtain ⟨hvisited, hpending, hclosed⟩ := ih hnext h
        refine ⟨fun c hc => hvisited (mem_append_left _ hc), ?_, hclosed⟩
        intro c hc
        rcases mem_cons.mp hc with rfl | hc
        · exact hvisited (by simp)
        · exact hpending (hkeep hc)

/-- What holds of the stack and of all that is pushed holds of all that is visited next. -/
theorem visit_forall {P : α → Prop}
    (hp : ∀ a pending pushed, (∀ b ∈ pending, P b) → expand a pending = .ok pushed →
      ∀ b ∈ pushed, P b) {fuel : ℕ} (hpending : ∀ a ∈ pending, P a)
    (h : visit expand fuel pending visited = some (.ok result)) :
    ∃ rest, result = visited ++ rest ∧ ∀ a ∈ rest, P a := by
  induction fuel generalizing pending visited with
  | zero => simp [visit] at h
  | succ fuel ih =>
    cases pending with
    | nil =>
      obtain rfl : visited = result := by simpa [visit] using h
      exact ⟨[], by simp, by simp⟩
    | cons a pending =>
      rw [visit] at h
      split at h
      · cases h
      · rename_i pushed hexpand
        have hkeep := fun b hb => hpending b (mem_cons_of_mem _ hb)
        obtain ⟨rest, rfl, hrest⟩ := ih (hp a pending pushed hkeep hexpand) h
        refine ⟨a :: rest, by simp, ?_⟩
        intro b hb
        rcases mem_cons.mp hb with rfl | hb
        · exact hpending b mem_cons_self
        · exact hrest b hb

end Steel.Worklist
