import Mathlib.Tactic.Common

/-! # Guarded runs

A run of a step function applies a list of actions one after the other; each action must meet a
guard in the state it is applied to.
-/

namespace Steel

variable {σ α : Type*}

def runSteps (step : σ → α → σ) : σ → List α → σ
  | s, [] => s
  | s, a :: as => runSteps step (step s a) as

/-- Every action of the run meets the guard in the state it is applied to. -/
def Guarded (step : σ → α → σ) (guard : σ → α → Prop) : σ → List α → Prop
  | _, [] => True
  | s, a :: as => guard s a ∧ Guarded step guard (step s a) as

variable {step : σ → α → σ} {guard : σ → α → Prop}

instance Guarded.decidable [∀ s a, Decidable (guard s a)] :
    ∀ (s : σ) (as : List α), Decidable (Guarded step guard s as)
  | _, [] => .isTrue trivial
  | s, a :: as =>
    match (inferInstance : Decidable (guard s a)), Guarded.decidable (step s a) as with
    | .isTrue h, .isTrue h' => .isTrue ⟨h, h'⟩
    | .isFalse h, _ => .isFalse fun hg => h hg.1
    | _, .isFalse h' => .isFalse fun hg => h' hg.2

@[simp] theorem runSteps_nil (s : σ) : runSteps step s [] = s := rfl

@[simp] theorem runSteps_cons (s : σ) (a : α) (as : List α) :
    runSteps step s (a :: as) = runSteps step (step s a) as := rfl

theorem runSteps_append (s : σ) (as bs : List α) :
    runSteps step s (as ++ bs) = runSteps step (runSteps step s as) bs := by
  induction as generalizing s with
  | nil => rfl
  | cons a as ih => exact ih (step s a)

variable {s : σ} {as : List α}

theorem guarded_append {bs : List α} : Guarded step guard s (as ++ bs) ↔
      Guarded step guard s as ∧ Guarded step guard (runSteps step s as) bs := by
  induction as generalizing s with
  | nil => simp [Guarded]
  | cons a as ih => simp [Guarded, ih, and_assoc]

theorem guarded_of_forall (h : ∀ a ∈ as, ∀ s, guard s a) : Guarded step guard s as := by
  induction as generalizing s with
  | nil => trivial
  | cons a as ih =>
    exact ⟨h a List.mem_cons_self s, ih fun b hb => h b (List.mem_cons_of_mem a hb)⟩

theorem Guarded.and {guard' : σ → α → Prop} (h : Guarded step guard s as)
    (h' : Guarded step guard' s as) : Guarded step (fun s a => guard s a ∧ guard' s a) s as := by
  induction as generalizing s with
  | nil => trivial
  | cons a as ih => exact ⟨⟨h.1, h'.1⟩, ih h.2 h'.2⟩

theorem Guarded.invariant {I : σ → Prop} (hstep : ∀ s a, I s → guard s a → I (step s a))
    (hg : Guarded step guard s as) (hi : I s) : I (runSteps step s as) := by
  induction as generalizing s with
  | nil => exact hi
  | cons a as ih => exact ih hg.2 (hstep s a hi hg.1)

/-- Guarded runs of two systems in lockstep keep a relation between their states. -/
theorem Guarded.simulation {τ : Type*} {step' : τ → α → τ} {R : σ → τ → Prop}
    (hstep : ∀ s t a, R s t → guard s a → R (step s a) (step' t a)) {t : τ}
    (hg : Guarded step guard s as) (hr : R s t) : R (runSteps step s as) (runSteps step' t as) := by
  induction as generalizing s t with
  | nil => exact hr
  | cons a as ih => exact ih hg.2 (hstep s t a hr hg.1)

theorem Guarded.of_simulation {τ : Type*} {step' : τ → α → τ} {guard' : τ → α → Prop}
    {R : σ → τ → Prop} (hstep : ∀ s t a, R s t → guard s a → guard' t a ∧ R (step s a) (step' t a))
    {t : τ} (hg : Guarded step guard s as) (hr : R s t) : Guarded step' guard' t as := by
  induction as generalizing s t with
  | nil => trivial
  | cons a as ih =>
    obtain ⟨hguard, hnext⟩ := hstep s t a hr hg.1
    exact ⟨hguard, ih hg.2 hnext⟩

end Steel
