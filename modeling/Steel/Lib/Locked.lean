import Mathlib.Algebra.BigOperators.Group.Finset.Piecewise
import Mathlib.Tactic.Abel

/-! # Computations that release their locks

A computation reads and writes a shared state while it holds the locks, and gives them up at certain
points, where other computations may change the state.
-/

namespace Steel

open Finset Function

/-- The state is locked except at `release`. A computation that fails never returns. -/
inductive Locked (σ α : Type) where
  | ret (a : α)
  | get (next : σ → Locked σ α)
  | put (s : σ) (next : Locked σ α)
  | release (next : Locked σ α)
  | fail

namespace Locked

variable {σ α β : Type}

protected def bind : Locked σ α → (α → Locked σ β) → Locked σ β
  | ret a, k => k a
  | get next, k => get fun s => (next s).bind k
  | put s next, k => put s (next.bind k)
  | release next, k => release (next.bind k)
  | fail, _ => fail

instance : Monad (Locked σ) where
  pure := ret
  bind := Locked.bind

def read : Locked σ σ := get ret

def modify (f : σ → σ) : Locked σ Unit := get fun s => put (f s) (ret ())

def run : Locked σ α → σ → Option (α × σ)
  | ret a, s => some (a, s)
  | get next, s => run (next s) s
  | put s next, _ => run next s
  | release next, s => run next s
  | fail, _ => none

def segment : Locked σ α → σ → Locked σ α × σ
  | ret a, s => (ret a, s)
  | get next, s => segment (next s) s
  | put s next, _ => segment next s
  | release next, s => (next, s)
  | fail, s => (fail, s)

/-- One computation after the other, each starting with a new lock. -/
def sequence : List (Locked σ Unit) → Locked σ Unit
  | [] => ret ()
  | p :: ps => p.bind fun _ => release (sequence ps)

def Finished (p : Locked σ α) : Prop := ∃ a, p = ret a

end Locked

/-- What holds whenever the state is unlocked, and what is accounted for. -/
structure Account (σ M : Type) where
  inv : σ → Prop
  total : σ → M

/-- What others may do to the state while it is unlocked, and what a computation itself
may do. -/
structure Access (σ : Type) where
  rely : σ → σ → Prop
  guar : σ → σ → Prop
  rely_refl : ∀ s, rely s s
  rely_trans : ∀ {s t u}, rely s t → rely t u → rely s u
  guar_refl : ∀ s, guar s s
  guar_trans : ∀ {s t u}, guar s t → guar t u → guar s u

def Access.Sequential {σ : Type} (A : Access σ) : Prop := ∀ s t, A.rely s t → t = s

def Access.alone (σ : Type) : Access σ where
  rely s t := t = s
  guar _ _ := True
  rely_refl _ := rfl
  rely_trans h h' := h'.trans h
  guar_refl _ := trivial
  guar_trans _ _ := trivial

theorem Access.alone_sequential (σ : Type) : (Access.alone σ).Sequential := fun _ _ h => h

section Spec

variable {σ α β M : Type} [AddCommGroup M] (P : Account σ M) (A : Access σ)

/-- `hand` is what the computation has in its hands: together with the total of the state it
stays the same. The result meets `Q`, the invariant holds at every release, and only a
computation with interference may fail. -/
def Spec : Locked σ α → (α → M → σ → Prop) → M → σ → Prop
  | .ret a, Q, hand, s => Q a hand s
  | .get next, Q, hand, s => Spec (next s) Q hand s
  | .put t next, Q, hand, s => A.guar s t ∧ Spec next Q (hand + (P.total s - P.total t)) t
  | .release next, Q, hand, s =>
    P.inv s ∧ ∀ t, A.rely s t → P.inv t → Spec next Q hand t
  | .fail, _, _, s => ¬ A.Sequential ∧ P.inv s

variable {P A}

variable {p : Locked σ α} {hand : M} {s : σ}

theorem spec_bind {k : α → Locked σ β} {Q : β → M → σ → Prop} : Spec P A (p >>= k) Q hand s ↔
      Spec P A p (fun a hand s => Spec P A (k a) Q hand s) hand s := by
  change Spec P A (p.bind k) Q hand s ↔ _
  induction p generalizing hand s with
  | ret a => rfl
  | get next ih => exact ih s
  | put t next ih => exact and_congr_right fun _ => ih
  | release next ih =>
    exact and_congr_right fun _ => forall_congr' fun t => imp_congr_right fun _ =>
      imp_congr_right fun _ => ih
  | fail => rfl

theorem Spec.mono {Q Q' : α → M → σ → Prop} (h : Spec P A p Q hand s)
    (hQ : ∀ a hand s, Q a hand s → Q' a hand s) : Spec P A p Q' hand s := by
  induction p generalizing hand s with
  | ret a => exact hQ _ _ _ h
  | get next ih => exact ih s h
  | put t next ih => exact ⟨h.1, ih h.2⟩
  | release next ih => exact ⟨h.1, fun t ht hinv => ih (h.2 t ht hinv)⟩
  | fail => exact h

variable {Q : α → M → σ → Prop}

@[simp] theorem spec_pure {a : α} {hand : M} {s : σ} :
    Spec P A (pure a) Q hand s ↔ Q a hand s := Iff.rfl

@[simp] theorem spec_read {Q : σ → M → σ → Prop} {hand : M} {s : σ} :
    Spec P A Locked.read Q hand s ↔ Q s hand s := Iff.rfl

theorem Spec.run (hseq : A.Sequential) (h : Spec P A p Q hand s) :
    ∃ a t, p.run s = some (a, t) ∧ Q a (hand + (P.total s - P.total t)) t := by
  induction p generalizing hand s with
  | ret a => exact ⟨a, s, rfl, by simpa [Spec] using h⟩
  | get next ih => exact ih s h
  | put t next ih =>
    obtain ⟨a, u, hrun, hQ⟩ := ih h.2
    refine ⟨a, u, hrun, ?_⟩
    have heq : hand + (P.total s - P.total t) + (P.total t - P.total u) =
        hand + (P.total s - P.total u) := by abel
    exact heq ▸ hQ
  | release next ih => exact ih (h.2 s (A.rely_refl s) h.1)
  | fail => exact absurd hseq h.1

def Settled (P : Account σ M) (_ : α) (hand : M) (s : σ) : Prop := hand = 0 ∧ P.inv s

/-- What a computation leaves at the end of a segment: the rest of it is correct in every
state that others may make of this one. -/
def Rests (P : Account σ M) (A : Access σ) (hand : M) (s : σ) : Locked σ α → Prop
  | .ret _ => hand = 0
  | .fail => True
  | p => ∀ t, A.rely s t → P.inv t → Spec P A p (Settled P) hand t

theorem Rests.of_forall (hinv : P.inv s)
    (h : ∀ t, A.rely s t → P.inv t → Spec P A p (Settled P) hand t) : Rests P A hand s p := by
  cases p with
  | ret a => exact (h s (A.rely_refl s) hinv).1
  | fail => trivial
  | get next => exact h
  | put t next => exact h
  | release next => exact h

theorem Rests.rely {t : σ} (h : Rests P A hand s p) (hrely : A.rely s t) : Rests P A hand t p := by
  cases p with
  | ret a => exact h
  | fail => trivial
  | get next => exact fun u hu => h u (A.rely_trans hrely hu)
  | put t next => exact fun u hu => h u (A.rely_trans hrely hu)
  | release next => exact fun u hu => h u (A.rely_trans hrely hu)

theorem Spec.segment (h : Spec P A p (Settled P) hand s) :
    A.guar s (p.segment s).2 ∧ P.inv (p.segment s).2 ∧
      Rests P A (hand + (P.total s - P.total (p.segment s).2)) (p.segment s).2 (p.segment s).1 := by
  induction p generalizing hand s with
  | ret a => exact ⟨A.guar_refl s, h.2, by simpa [Locked.segment, Rests] using h.1⟩
  | get next ih => exact ih s h
  | put t next ih =>
    obtain ⟨hguar, hinv, hrest⟩ := ih h.2
    refine ⟨A.guar_trans h.1 hguar, hinv, ?_⟩
    have heq : hand + (P.total s - P.total t) + (P.total t - P.total (next.segment t).2) =
        hand + (P.total s - P.total (next.segment t).2) := by abel
    exact heq ▸ hrest
  | release next ih =>
    refine ⟨A.guar_refl s, h.1, ?_⟩
    simp only [Locked.segment, sub_self, add_zero]
    exact .of_forall h.1 h.2
  | fail => exact ⟨A.guar_refl s, h.2, trivial⟩

theorem Rests.segment (h : Rests P A hand s p) (hinv : P.inv s) :
    A.guar s (p.segment s).2 ∧ P.inv (p.segment s).2 ∧
      Rests P A (hand + (P.total s - P.total (p.segment s).2)) (p.segment s).2 (p.segment s).1 := by
  cases p with
  | ret a => exact ⟨A.guar_refl s, hinv, by simpa [Locked.segment, Rests] using h⟩
  | fail => exact ⟨A.guar_refl s, hinv, trivial⟩
  | get next => exact Spec.segment (h s (A.rely_refl s) hinv)
  | put t next => exact Spec.segment (h s (A.rely_refl s) hinv)
  | release next => exact Spec.segment (h s (A.rely_refl s) hinv)

/-- Computations that were started one after the other keep the account if each does. -/
theorem spec_sequence {ps : List (Locked σ Unit)} (hinv : P.inv s)
    (h : ∀ p ∈ ps, ∀ t, P.inv t → Spec P A p (Settled P) 0 t) :
    Spec P A (Locked.sequence ps) (Settled P) 0 s := by
  induction ps generalizing s with
  | nil => exact ⟨rfl, hinv⟩
  | cons p ps ih =>
    have hbind : Locked.sequence (p :: ps) = p >>= fun _ => .release (Locked.sequence ps) := rfl
    rw [hbind, spec_bind]
    apply (h p List.mem_cons_self s hinv).mono
    rintro _ hand t ⟨rfl, ht⟩
    exact ⟨ht, fun u _ hu => ih hu fun q hq => h q (List.mem_cons_of_mem p hq)⟩

end Spec

section Schedule

variable {σ M ι : Type} [AddCommGroup M] [Fintype ι] [DecidableEq ι]

/-- Computations and the state they share. -/
structure Threads (σ ι : Type) where
  prog : ι → Locked σ Unit
  state : σ

def Threads.step (c : Threads σ ι) (i : ι) : Threads σ ι where
  prog := update c.prog i ((c.prog i).segment c.state).1
  state := ((c.prog i).segment c.state).2

def Threads.run (c : Threads σ ι) (schedule : List ι) : Threads σ ι := schedule.foldl step c

variable {P : Account σ M} {A : ι → Access σ}

/-- The account of a number of computations with what each has in its hands. -/
structure Threads.Balanced (P : Account σ M) (A : ι → Access σ) (total : M) (hand : ι → M)
    (c : Threads σ ι) : Prop where
  inv : P.inv c.state
  rests : ∀ i, Rests P (A i) (hand i) c.state (c.prog i)
  total_eq : P.total c.state + ∑ i, hand i = total

theorem Threads.Balanced.step {total : M} {hand : ι → M} {c : Threads σ ι}
    (hcompat : ∀ i j s t, i ≠ j → (A i).guar s t → (A j).rely s t)
    (h : c.Balanced P A total hand) (i : ι) : ∃ hand', (c.step i).Balanced P A total hand' := by
  obtain ⟨hguar, hinv, hrest⟩ := (h.rests i).segment h.inv
  refine ⟨update hand i
    (hand i + (P.total c.state - P.total (c.step i).state)), hinv, ?_, ?_⟩
  · intro j
    by_cases hj : j = i
    · subst hj
      simpa [Threads.step] using hrest
    · simp only [Threads.step, update_of_ne hj]
      exact (h.rests j).rely (hcompat i j _ _ (Ne.symm hj) hguar)
  · rw [sum_update_of_mem (mem_univ i), ← h.total_eq,
      sum_eq_add_sum_sdiff_singleton_of_mem (mem_univ i) hand]
    abel

/-- In every interleaving the total is the same again when all computations have returned. -/
theorem Threads.total_run {c : Threads σ ι} (hinv : P.inv c.state)
    (hcompat : ∀ i j s t, i ≠ j → (A i).guar s t → (A j).rely s t)
    (hspec : ∀ i t, (A i).rely c.state t → P.inv t → Spec P (A i) (c.prog i) (Settled P) 0 t)
    (schedule : List ι) :
    P.inv (c.run schedule).state ∧ ((∀ i, ((c.run schedule).prog i).Finished) →
        P.total (c.run schedule).state = P.total c.state) := by
  have hbalanced : ∀ (schedule : List ι) (c' : Threads σ ι),
      (∃ hand, c'.Balanced P A (P.total c.state) hand) →
      ∃ hand, (c'.run schedule).Balanced P A (P.total c.state) hand := by
    intro schedule
    induction schedule with
    | nil => exact fun c' h => h
    | cons i schedule ih =>
      rintro c' ⟨hand, h⟩
      exact ih _ (h.step hcompat i)
  obtain ⟨hand, h⟩ := hbalanced schedule c ⟨0, hinv, fun i => .of_forall hinv (hspec i), by simp⟩
  refine ⟨h.inv, ?_⟩
  intro hfinished
  have hzero : ∀ i, hand i = 0 := by
    intro i
    obtain ⟨a, ha⟩ := hfinished i
    have hrests := h.rests i
    rw [ha] at hrests
    exact hrests
  have htotal := h.total_eq
  rw [sum_eq_zero fun i _ => hzero i, add_zero] at htotal
  exact htotal

end Schedule

end Steel
