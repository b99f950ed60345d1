import Mathlib.Logic.Relation
import Mathlib.Data.Option.Basic
import Mathlib.Tactic.Common

/-! # Loops

A loop takes steps until there is none left to take. It is run with fuel, and a measure of what is
left to do shows that some amount of fuel is enough.
-/

namespace Steel

variable {σ τ : Type*} {step : σ → Option σ} {step' : τ → Option τ}

def loop (step : σ → Option σ) : ℕ → σ → Option σ
  | 0, _ => none
  | fuel + 1, s =>
    match step s with
    | none => some s
    | some s' => loop step fuel s'

def Reaches (step : σ → Option σ) : σ → σ → Prop :=
  Relation.ReflTransGen fun s s' => step s = some s'

variable {s t : σ} {fuel : ℕ} {R : σ → τ → Prop}

theorem Reaches.invariant {I : σ → Prop} (hstep : ∀ s s', I s → step s = some s' → I s')
    (h : Reaches step s t) (hi : I s) : I t := by
  induction h with
  | refl => exact hi
  | tail _ hlast ih => exact hstep _ _ ih hlast

section

variable (h : loop step fuel s = some t)

include h

theorem loop_add (more : ℕ) :
    loop step (fuel + more) s = some t := by
  induction fuel generalizing s with
  | zero => cases h
  | succ fuel ih =>
    rw [Nat.add_right_comm]
    unfold loop at h ⊢
    cases hs : step s with
    | none => simpa only [hs] using h
    | some s' =>
      simp only [hs] at h ⊢
      exact ih h

theorem loop_eq_of_some {fuel' : ℕ} {t' : σ} (h' : loop step fuel' s = some t') : t = t' := by
  have hleft := loop_add h fuel'
  have hright := loop_add h' fuel
  rw [Nat.add_comm] at hright
  exact Option.some.inj (hleft.symm.trans hright)

theorem reaches_of_loop : Reaches step s t ∧ step t = none := by
  induction fuel generalizing s with
  | zero => cases h
  | succ fuel ih =>
    unfold loop at h
    cases hs : step s with
    | none =>
      simp only [hs, Option.some.injEq] at h
      subst h
      exact ⟨.refl, hs⟩
    | some s' =>
      simp only [hs] at h
      exact ⟨.head hs (ih h).1, (ih h).2⟩

end

theorem loop_of_reaches (h : Reaches step s t) (ht : step t = none) :
    ∃ fuel, loop step fuel s = some t := by
  induction h using Relation.ReflTransGen.head_induction_on with
  | refl => exact ⟨1, by simp only [loop, ht]⟩
  | head hstep _ ih =>
    obtain ⟨fuel, hfuel⟩ := ih
    exact ⟨fuel + 1, by simpa only [loop, hstep] using hfuel⟩

/-- The loop ends, and all of its states satisfy `p`. -/
def loopAll (p : σ → Bool) (step : σ → Option σ) : ℕ → σ → Bool
  | 0, _ => false
  | fuel + 1, s =>
    p s && match step s with
      | none => true
      | some s' => loopAll p step fuel s'

theorem reaches_of_loopAll {p : σ → Bool} (h : loopAll p step fuel s = true)
    (ht : Reaches step s t) :
    p t = true := by
  induction fuel generalizing s with
  | zero => cases h
  | succ fuel ih =>
    unfold loopAll at h
    rw [Bool.and_eq_true] at h
    rcases ht.cases_head with rfl | ⟨s', hstep, hrest⟩
    · exact h.1
    · simp only [hstep] at h
      exact ih h.2 hrest

theorem exists_loop {I : σ → Prop} (μ : σ → ℕ)
    (hstep : ∀ s s', I s → step s = some s' → I s' ∧ μ s' < μ s) (hi : I s) :
    ∃ fuel t, loop step fuel s = some t := by
  induction hn : μ s using Nat.strongRecOn generalizing s with
  | ind n ih =>
    cases hs : step s with
    | none => exact ⟨1, s, by simp only [loop, hs]⟩
    | some s' =>
      obtain ⟨hi', hlt⟩ := hstep s s' hi hs
      obtain ⟨fuel, t, ht⟩ := ih _ (hn ▸ hlt) hi' rfl
      exact ⟨fuel + 1, t, by simpa only [loop, hs] using ht⟩

theorem loop_related (hstep : ∀ s t, R s t → Option.Rel R (step s) (step' t)) {t : τ} (hr : R s t)
    (fuel : ℕ) : Option.Rel R (loop step fuel s) (loop step' fuel t) := by
  induction fuel generalizing s t with
  | zero => exact .none
  | succ fuel ih =>
    unfold loop
    have hrel := hstep s t hr
    cases hs : step s with
    | none =>
      cases ht : step' t with
      | none => exact .some hr
      | some t' => rw [hs, ht] at hrel; cases hrel
    | some s' =>
      cases ht : step' t with
      | none => rw [hs, ht] at hrel; cases hrel
      | some t' =>
        rw [hs, ht] at hrel
        cases hrel with
        | some hr => exact ih hr

theorem rel_swap {x : Option σ} {y : Option τ} (h : Option.Rel R x y) :
    Option.Rel (fun t s => R s t) y x := by
  cases h with
  | none => exact .none
  | some h => exact .some h

theorem Reaches.related (hstep : ∀ s t, R s t → Option.Rel R (step s) (step' t)) {s' : σ} {t : τ}
    (hr : R s t) (h : Reaches step s s') : ∃ t', Reaches step' t t' ∧ R s' t' := by
  induction h with
  | refl => exact ⟨t, .refl, hr⟩
  | @tail middle last _ hlast ih =>
    obtain ⟨t', ht', hr'⟩ := ih
    have hrel := hstep middle t' hr'
    rw [hlast] at hrel
    cases hs : step' t' with
    | none => rw [hs] at hrel; cases hrel
    | some t'' =>
      rw [hs] at hrel
      cases hrel with
      | some hr'' => exact ⟨t'', ht'.tail hs, hr''⟩

end Steel
