import Mathlib.Data.Finset.Basic

/-! # Worlds whose writes notify

A write changes one position of a world and runs callbacks: one for the position itself and one for
each of its neighbours, in any order.
-/

namespace Steel

open List Function

/-- What a callback does. -/
inductive Script (P V T : Type) where
  | done
  | read (next : (P → V) → Script P V T)
  | write (pos : P) (value : V) (next : Script P V T)
  | schedule (tick : T) (next : Script P V T)

def Script.andThen {P V T : Type} : Script P V T → Script P V T → Script P V T
  | done, last => last
  | read next, last => read fun world => (next world).andThen last
  | write pos value next, last => write pos value (next.andThen last)
  | schedule tick next, last => schedule tick (next.andThen last)

/-- A world with its pending ticks. -/
structure Ticking (P V T : Type) where
  world : P → V
  ticks : Finset T

inductive Callback (P V : Type) where
  | placed (pos : P) (value : V)
  | neighborChanged (pos : P)

/-- The callbacks of a world. -/
structure Callbacks (P V T : Type) where
  neighbors : P → List P
  canWrite : P → Bool
  onPlace : P → V → Script P V T
  onNeighborChanged : P → Script P V T
  onTick : T → Script P V T

inductive Activity (P V T : Type) where
  | script (script : Script P V T)
  | write (pos : P) (value : V)
  | callbacks (callbacks : List (Callback P V))

namespace Callbacks

variable {P V T : Type} [DecidableEq P] [DecidableEq T] (C : Callbacks P V T)

def script : Callback P V → Script P V T
  | .placed pos value => C.onPlace pos value
  | .neighborChanged pos => C.onNeighborChanged pos

def caused (pos : P) (value : V) : List (Callback P V) :=
  .placed pos value :: (C.neighbors pos).map .neighborChanged

inductive Runs : Activity P V T → Ticking P V T → Ticking P V T → Prop where
  | done {s} : Runs (.script .done) s s
  | read {next s s'} : Runs (.script (next s.world)) s s' → Runs (.script (.read next)) s s'
  | write {pos value next s m s'} : Runs (.write pos value) s m → Runs (.script next) m s' →
      Runs (.script (.write pos value next)) s s'
  | schedule {tick next s s'} : Runs (.script next) ⟨s.world, insert tick s.ticks⟩ s' →
      Runs (.script (.schedule tick next)) s s'
  | refused {pos value s} : ¬ C.canWrite pos ∨ s.world pos = value →
      Runs (.write pos value) s s
  | changed {pos value s s'} (order : List (Callback P V)) : C.canWrite pos →
      s.world pos ≠ value → order.Perm (C.caused pos value) →
      Runs (.callbacks order) ⟨update s.world pos value, s.ticks⟩ s' →
      Runs (.write pos value) s s'
  | nil {s} : Runs (.callbacks []) s s
  | cons {callback rest s m s'} : Runs (.script (C.script callback)) s m →
      Runs (.callbacks rest) m s' → Runs (.callbacks (callback :: rest)) s s'

/-- A write from outside, or the run of a pending tick. -/
inductive Step : Ticking P V T → Ticking P V T → Prop where
  | write {s s'} (pos : P) (value : V) : C.Runs (.write pos value) s s' → Step s s'
  | tick {s s'} (tick : T) : tick ∈ s.ticks →
      C.Runs (.script (C.onTick tick)) ⟨s.world, s.ticks.erase tick⟩ s' → Step s s'

variable (good : (P → V) → Finset T → P → Prop)

/-- The script writes the position, or schedules a tick that makes it good. -/
def Repairs : Script P V T → Ticking P V T → P → Prop
  | .done, _, _ => False
  | .read next, s, p => Repairs (next s.world) s p
  | .write pos value _, s, p => pos = p ∧ C.canWrite pos ∧ s.world pos ≠ value
  | .schedule tick next, s, p => good s.world (insert tick s.ticks) p ∨
      Repairs next ⟨s.world, insert tick s.ticks⟩ p

def Due (s : Ticking P V T) (p : P) : Callback P V → Prop
  | .placed pos value => pos = p ∧ s.world pos = value
  | .neighborChanged pos => pos = p

def Activity.Repairs (s : Ticking P V T) (p : P) : Activity P V T → Prop
  | .script script => C.Repairs good script s p
  | .write pos value => pos = p ∧ C.canWrite pos ∧ s.world pos ≠ value
  | .callbacks callbacks => ∃ callback ∈ callbacks, Due s p callback

/-- What callbacks and ticks owe to something that depends on a position and its neighbours. -/
structure Keeps : Prop where
  mono : ∀ {world ticks ticks' p}, ticks ⊆ ticks' → good world ticks p → good world ticks' p
  update : ∀ {world ticks p} pos value, p ≠ pos → p ∉ C.neighbors pos → good world ticks p →
    good (update world pos value) ticks p
  callback : ∀ (s : Ticking P V T) p callback, Due s p callback →
    good s.world s.ticks p ∨ C.Repairs good (C.script callback) s p
  tick : ∀ (s : Ticking P V T) p, ∀ tick ∈ s.ticks, good s.world s.ticks p →
    good s.world (s.ticks.erase tick) p ∨
      C.Repairs good (C.onTick tick) ⟨s.world, s.ticks.erase tick⟩ p

variable {C good}

variable {s s' : Ticking P V T}

theorem Keeps.runs (h : C.Keeps good) {task : Activity P V T} (hrun : C.Runs task s s') (p : P)
    (hp : good s.world s.ticks p ∨ Activity.Repairs C good s p task ∨ s'.world p ≠ s.world p) :
    good s'.world s'.ticks p := by
  induction hrun with
  | done =>
    rcases hp with hgood | hrepair | hne
    · exact hgood
    · exact hrepair.elim
    · exact absurd rfl hne
  | read _ ih => exact ih hp
  | @write pos value next s m s' _ _ ihwrite ihnext =>
    have hwritten : good m.world m.ticks p ∨ s'.world p ≠ m.world p := by
      by_cases hchange : m.world p = s.world p
      · rcases hp with hgood | hrepair | hne
        · exact .inl (ihwrite (.inl hgood))
        · exact .inl (ihwrite (.inr (.inl hrepair)))
        · rw [← hchange] at hne
          exact .inr hne
      · exact .inl (ihwrite (.inr (.inr hchange)))
    rcases hwritten with hgood | hne
    · exact ihnext (.inl hgood)
    · exact ihnext (.inr (.inr hne))
  | schedule _ ih =>
    rcases hp with hgood | hrepair | hne
    · exact ih (.inl (h.mono (Finset.subset_insert _ _) hgood))
    · rcases hrepair with hgood | hnext
      · exact ih (.inl hgood)
      · exact ih (.inr (.inl hnext))
    · exact ih (.inr (.inr hne))
  | refused hsame =>
    rcases hp with hgood | ⟨-, hcan, hdiff⟩ | hne
    · exact hgood
    · rcases hsame with hcannot | heq
      · exact absurd hcan hcannot
      · exact absurd heq hdiff
    · exact absurd rfl hne
  | @changed pos value s s' order _ _ hperm _ ih =>
    by_cases hpos : p = pos
    · subst hpos
      refine ih (.inr (.inl ⟨.placed p value, ?_, rfl, update_self _ _ _⟩))
      exact hperm.mem_iff.mpr mem_cons_self
    · by_cases hbeside : p ∈ C.neighbors pos
      · refine ih (.inr (.inl ⟨.neighborChanged p, ?_, rfl⟩))
        exact hperm.mem_iff.mpr (mem_cons_of_mem _ (mem_map_of_mem hbeside))
      · rcases hp with hgood | ⟨heq, -⟩ | hne
        · exact ih (.inl (h.update pos value hpos hbeside hgood))
        · exact absurd heq.symm hpos
        · refine ih (.inr (.inr ?_))
          dsimp only
          rwa [update_of_ne hpos]
  | nil =>
    rcases hp with hgood | ⟨_, hmem, -⟩ | hne
    · exact hgood
    · exact absurd hmem not_mem_nil
    · exact absurd rfl hne
  | @cons callback rest s m s' _ _ ihfirst ihrest =>
    by_cases hchange : m.world p = s.world p
    · rcases hp with hgood | ⟨due, hmem, hdue⟩ | hne
      · exact ihrest (.inl (ihfirst (.inl hgood)))
      · rcases mem_cons.mp hmem with rfl | hmem
        · rcases h.callback s p due hdue with hgood | hrepair
          · exact ihrest (.inl (ihfirst (.inl hgood)))
          · exact ihrest (.inl (ihfirst (.inr (.inl hrepair))))
        · refine ihrest (.inr (.inl ⟨due, hmem, ?_⟩))
          cases due with
          | placed pos value =>
            obtain ⟨rfl, hvalue⟩ := hdue
            exact ⟨rfl, hchange.trans hvalue⟩
          | neighborChanged pos => exact hdue
      · refine ihrest (.inr (.inr ?_))
        rwa [hchange]
    · exact ihrest (.inl (ihfirst (.inr (.inr hchange))))

theorem Keeps.step (h : C.Keeps good) (hstep : C.Step s s') (hgood : ∀ p, good s.world s.ticks p)
    (p : P) : good s'.world s'.ticks p := by
  cases hstep with
  | write pos value hrun => exact h.runs hrun p (.inl (hgood p))
  | tick tick hmem hrun =>
    rcases h.tick s p tick hmem (hgood p) with hstill | hrepair
    · exact h.runs hrun p (.inl hstill)
    · exact h.runs hrun p (.inr (.inl hrepair))

theorem Keeps.steps (h : C.Keeps good) (hsteps : Relation.ReflTransGen C.Step s s')
    (hgood : ∀ p, good s.world s.ticks p) (p : P) : good s'.world s'.ticks p := by
  induction hsteps generalizing p with
  | refl => exact hgood p
  | tail _ hstep ih => exact h.step hstep ih p

end Callbacks

end Steel
