import Steel.Chunk.TicketPropagation

/-! # The stream of level changes

A consumer that starts with empty maps and applies every reported change holds the levels of the
manager.
-/

namespace Steel

open List LevelChange Function

namespace ChunkTicketManager

/-- What a consumer knows. -/
@[ext]
structure LevelView where
  levels : ChunkPos → Option ChunkTicketLevel
  simulationLevels : ChunkPos → Option ChunkTicketLevel

namespace LevelView

def empty : LevelView := ⟨fun _ => none, fun _ => none⟩

def apply (view : LevelView) (change : LevelChange) : LevelView :=
  ⟨update view.levels change.pos change.newLevel,
    update view.simulationLevels change.pos change.newSimulationLevel⟩

end LevelView

def view (m : ChunkTicketManager) : LevelView := ⟨m.getLevel, m.getSimulationLevel⟩

/-- Every change sets its position to the new levels, and every changed position is set. -/
structure Diff (old new : LevelView) (changes : List LevelChange) : Prop where
  nodup : (changes.map pos).Nodup
  level : ∀ c ∈ changes, c.newLevel = new.levels c.pos
  simulation : ∀ c ∈ changes, c.newSimulationLevel = new.simulationLevels c.pos
  changed : ∀ c ∈ changes, old.levels c.pos ≠ new.levels c.pos ∨
    old.simulationLevels c.pos ≠ new.simulationLevels c.pos
  complete : ∀ p, p ∉ changes.map pos → old.levels p = new.levels p ∧
    old.simulationLevels p = new.simulationLevels p

theorem foldl_apply {new : LevelView} {changes : List LevelChange} {v : LevelView}
    (hlevel : ∀ c ∈ changes, c.newLevel = new.levels c.pos)
    (hsimulation : ∀ c ∈ changes, c.newSimulationLevel = new.simulationLevels c.pos)
    (hrest : ∀ p, p ∉ changes.map pos → v.levels p = new.levels p ∧
      v.simulationLevels p = new.simulationLevels p) :
    changes.foldl LevelView.apply v = new := by
  induction changes generalizing v with
  | nil =>
    ext1
    · funext p
      exact (hrest p not_mem_nil).1
    · funext p
      exact (hrest p not_mem_nil).2
  | cons c changes ih =>
    rw [foldl_cons]
    apply ih
    · exact fun c' hc' => hlevel c' (mem_cons_of_mem c hc')
    · exact fun c' hc' => hsimulation c' (mem_cons_of_mem c hc')
    · intro p hp
      simp only [LevelView.apply]
      by_cases hpc : p = c.pos
      · subst hpc
        rw [update_self, update_self]
        exact ⟨hlevel c mem_cons_self, hsimulation c mem_cons_self⟩
      · rw [update_of_ne hpc, update_of_ne hpc]
        apply hrest
        rw [map_cons, mem_cons, not_or]
        exact ⟨hpc, hp⟩

theorem Diff.apply {old new : LevelView} {changes : List LevelChange}
    (h : Diff old new changes) : changes.foldl LevelView.apply old = new :=
  foldl_apply h.level h.simulation h.complete

section Loops

variable {keys : List ChunkPos} {skip : ChunkPos → Prop} [DecidablePred skip]
variable {a b : ChunkPos → Option ChunkTicketLevel}

/-- A loop over the keys of a map that skips some of them. -/
def report (keys : List ChunkPos) (skip : ChunkPos → Prop) [DecidablePred skip]
    (a b : ChunkPos → Option ChunkTicketLevel) : List LevelChange :=
  keys.filterMap fun pos => if skip pos then none else some ⟨pos, a pos, b pos⟩

theorem mem_report {c : LevelChange} : c ∈ report keys skip a b ↔
    c.pos ∈ keys ∧ ¬ skip c.pos ∧ c.newLevel = a c.pos ∧ c.newSimulationLevel = b c.pos := by
  simp only [report, mem_filterMap, Option.ite_none_left_eq_some, Option.some.injEq]
  constructor
  · rintro ⟨pos, hpos, hskip, rfl⟩
    exact ⟨hpos, hskip, rfl, rfl⟩
  · rintro ⟨hpos, hskip, ha, hb⟩
    exact ⟨c.pos, hpos, hskip, by rw [← ha, ← hb]⟩

theorem map_pos_report : (report keys skip a b).map pos =
    keys.filter fun pos => ¬ skip pos := by
  unfold report
  induction keys with
  | nil => rfl
  | cons pos keys ih =>
    by_cases hskip : skip pos
    · simp [hskip, ih]
    · simp [hskip, ih]

theorem mem_map_pos_report {p : ChunkPos} :
    p ∈ (report keys skip a b).map pos ↔ p ∈ keys ∧ ¬ skip p := by
  simp [map_pos_report]

end Loops

section Changes

variable {oldLevels levels oldSimulation simulation : Levels} (order : Iteration ChunkPos)

theorem changedLevels_eq : changedLevels order oldLevels levels simulation =
      report (order.keys levels) (fun pos => oldLevels.lookup pos = levels.lookup pos)
        (fun pos => levels.lookup pos) fun pos => simulation.lookup pos := rfl

theorem removedLevels_eq : removedLevels order oldLevels levels =
      report (order.keys oldLevels) (fun pos => (levels.lookup pos).isSome = true)
        (fun _ => none) fun _ => none := rfl

theorem simulationOnlyChanges_eq (order oldOrder : Iteration ChunkPos) :
    simulationOnlyChanges order oldOrder oldLevels levels oldSimulation simulation =
      report (order.keys simulation) (fun pos => oldLevels.lookup pos ≠ levels.lookup pos ∨
          oldSimulation.lookup pos = simulation.lookup pos)
        (fun pos => levels.lookup pos) (fun pos => simulation.lookup pos) ++
      report (oldOrder.keys oldSimulation) (fun pos => oldLevels.lookup pos ≠ levels.lookup pos ∨
          (simulation.lookup pos).isSome = true)
        (fun pos => levels.lookup pos) fun _ => none := by
  unfold simulationOnlyChanges report
  congr 2
  funext pos
  by_cases hload : oldLevels.lookup pos = levels.lookup pos
  · simp [hload]
  · simp [hload]

/-- The loops report each changed position once, if all simulated chunks are loaded. -/
theorem diff_changes (order : UpdateOrder)
    (hcovered : ∀ p, levels.lookup p = none → simulation.lookup p = none) :
    Diff ⟨fun p => oldLevels.lookup p, fun p => oldSimulation.lookup p⟩
      ⟨fun p => levels.lookup p, fun p => simulation.lookup p⟩
      (changedLevels order.levels oldLevels levels simulation ++
        removedLevels order.oldLevels oldLevels levels ++
        simulationOnlyChanges order.simulationLevels order.oldSimulationLevels oldLevels levels
          oldSimulation simulation) := by
  rw [changedLevels_eq, removedLevels_eq, simulationOnlyChanges_eq]
  constructor
  case nodup =>
    simp only [map_append, nodup_append, mem_append, mem_map_pos_report, Iteration.mem_keys]
    refine ⟨⟨?_, ?_, ?_⟩, ⟨?_, ?_, ?_⟩, ?_⟩
    · rw [map_pos_report]
      exact (order.levels.nodup_keys levels).filter _
    · rw [map_pos_report]
      exact (order.oldLevels.nodup_keys oldLevels).filter _
    · rintro p ⟨hsome, -⟩ q ⟨-, hnone⟩ rfl
      exact hnone hsome
    · rw [map_pos_report]
      exact (order.simulationLevels.nodup_keys simulation).filter _
    · rw [map_pos_report]
      exact (order.oldSimulationLevels.nodup_keys oldSimulation).filter _
    · rintro p ⟨hsome, -⟩ q ⟨-, hskip⟩ rfl
      exact hskip (Or.inr hsome)
    · have hchanged : ∀ p, ((levels.lookup p).isSome = true ∧
            ¬ oldLevels.lookup p = levels.lookup p) ∨
          ((oldLevels.lookup p).isSome = true ∧ ¬ (levels.lookup p).isSome = true) →
          oldLevels.lookup p ≠ levels.lookup p := by
        rintro p (⟨-, hne⟩ | ⟨hsome, hnone⟩) heq
        · exact hne heq
        · exact hnone (heq ▸ hsome)
      rintro p hp q (⟨-, hskip⟩ | ⟨-, hskip⟩) rfl
      · exact hskip (Or.inl (hchanged p hp))
      · exact hskip (Or.inl (hchanged p hp))
  case level =>
    intro c hc
    simp only [mem_append, mem_report] at hc
    rcases hc with (⟨-, -, hlevel, -⟩ | ⟨-, hnone, hlevel, -⟩) | ⟨-, -, hlevel, -⟩ |
      ⟨-, -, hlevel, -⟩
    · exact hlevel
    · rw [hlevel, eq_comm, ← Option.not_isSome_iff_eq_none]
      exact hnone
    · exact hlevel
    · exact hlevel
  case simulation =>
    intro c hc
    simp only [mem_append, mem_report] at hc
    rcases hc with (⟨-, -, -, hsim⟩ | ⟨-, hnone, -, hsim⟩) | ⟨-, -, -, hsim⟩ | ⟨-, hskip, -, hsim⟩
    · exact hsim
    · exact hsim.trans (hcovered c.pos (Option.not_isSome_iff_eq_none.mp hnone)).symm
    · exact hsim
    · rw [hsim, eq_comm, ← Option.not_isSome_iff_eq_none]
      exact fun hsome => hskip (Or.inr hsome)
  case changed =>
    intro c hc
    simp only [mem_append, mem_report, Iteration.mem_keys] at hc ⊢
    rcases hc with (⟨-, hne, -⟩ | ⟨hsome, hnone, -⟩) | ⟨-, hskip, -⟩ | ⟨hsome, hskip, -⟩
    · exact Or.inl hne
    · exact Or.inl fun heq => hnone (heq ▸ hsome)
    · exact Or.inr fun heq => hskip (Or.inr heq)
    · exact Or.inr fun heq => hskip (Or.inr (heq ▸ hsome))
  case complete =>
    intro p hp
    simp only [map_append, mem_append, mem_map_pos_report, Iteration.mem_keys,
      not_or, not_and, not_not] at hp
    obtain ⟨⟨hfirst, hsecond⟩, hthird, hfourth⟩ := hp
    have hload : oldLevels.lookup p = levels.lookup p := by
      cases hl : levels.lookup p with
      | some l => rw [← hl, hfirst (by rw [hl]; rfl)]
      | none =>
        cases ho : oldLevels.lookup p with
        | none => rfl
        | some l =>
          have hsome := hsecond (by rw [ho]; rfl)
          rw [hl] at hsome
          cases hsome
    refine ⟨hload, ?_⟩
    simp only
    cases hs : simulation.lookup p with
    | some l =>
      rw [hthird (by rw [hs]; rfl) hload, hs]
    | none =>
      cases ho : oldSimulation.lookup p with
      | none => rfl
      | some l =>
        have hsome := hfourth (by rw [ho]; rfl) hload
        rw [hs] at hsome
        cases hsome

theorem exists_load_of_simulation {source p : ChunkPos} {l : ChunkTicketLevel}
    {tickets : List ChunkTicket} (h : (p, l) ∈ simulationCandidates source tickets) :
    ∃ l', (p, l') ∈ loadCandidates source tickets := by
  have hmax := maxLevelRaw_eq
  have hblock : ∀ level : ChunkTicketLevel, level.distanceToBlockTicking < 256 := by
    intro level
    exact Nat.lt_of_le_of_lt (Nat.sub_le ..) (by decide)
  have hload : ∀ level : ChunkTicketLevel, level.distanceToMax < 256 := by
    intro level
    unfold ChunkTicketLevel.distanceToMax
    omega
  unfold simulationCandidates at h
  cases hmin : (tickets.filterMap ChunkTicket.simulationLevel).min? with
  | none =>
    rw [hmin] at h
    cases h
  | some level =>
    simp only [hmin] at h
    obtain ⟨dx, dy, hdx, hdy, rfl, -⟩ := (mem_painted (hblock level)).mp h
    obtain ⟨t, ht, hsim⟩ := mem_filterMap.mp (List.min?_mem hmin)
    have hcovered := t.covered level hsim
    obtain ⟨level', hle, hleast⟩ : ∃ b ≤ t.loadLevel, IsLeastOf (some b)
        {a | ∃ t ∈ tickets, t.loadLevel = a} :=
      exists_isLeastOf (fun a => mem_map) ⟨t, ht, rfl⟩
    have hraw := ChunkTicketLevel.le_def.mp hle
    have hdistance : t.loadLevel.distanceToMax ≤ level'.distanceToMax := Nat.sub_le_sub_left hraw _
    have hmin' : (tickets.map ChunkTicket.loadLevel).min? = some level' := by
      apply (isLeastOf_min? _).unique
      simpa only [mem_map] using hleast
    have hlevel' := level'.le_max
    have hsum : level'.distanceToMax + level'.raw = maxLevelRaw := Nat.sub_add_cancel hlevel'
    refine ⟨⟨level'.raw + max dx.natAbs dy.natAbs, by omega⟩, ?_⟩
    simp only [loadCandidates, hmin']
    exact (mem_painted (hload level')).mpr ⟨dx, dy, by omega, by omega, rfl, rfl⟩

theorem propagateAll_covered {m : ChunkTicketManager} {order : Iteration ChunkPos} (p : ChunkPos)
    (h : (m.propagateAll order).1.lookup p = none) : (m.propagateAll order).2.lookup p = none := by
  have hload := @propagateAll_load m order p
  have hsimulation := @propagateAll_simulation m order p
  rw [h] at hload
  cases hs : (m.propagateAll order).2.lookup p with
  | none => rfl
  | some l =>
    rw [hs] at hsimulation
    obtain ⟨source, hl⟩ := hsimulation.1
    obtain ⟨l', hl'⟩ := exists_load_of_simulation hl
    exact absurd ⟨source, hl'⟩ (hload l')

theorem diff_runAllUpdates (m : ChunkTicketManager) (order : UpdateOrder) :
    Diff m.view (m.runAllUpdates order).view (m.runAllUpdates order).changes := by
  unfold runAllUpdates
  cases m.dirty with
  | false =>
    constructor
    · exact nodup_nil
    · intro c hc
      cases hc
    · intro c hc
      cases hc
    · intro c hc
      cases hc
    · intro p _
      exact ⟨rfl, rfl⟩
  | true => exact diff_changes order propagateAll_covered

end Changes

/-- The manager with a consumer that applies the changes of every propagation. -/
def observe (s : ChunkTicketManager × LevelView) (op : Op) : ChunkTicketManager × LevelView :=
  let m := s.1.step op
  match op with
  | .run _ => (m, m.changes.foldl LevelView.apply s.2)
  | _ => (m, s.2)

theorem view_step_of_not_run {m : ChunkTicketManager} {op : Op} (h : ∀ order, op ≠ .run order) :
    (m.step op).view = m.view := by
  cases op with
  | add pos ticket => rfl
  | remove pos ticket =>
    unfold step removeTicket
    simp only
    split
    · rfl
    · split <;> rfl
  | removeAllAt pos => rfl
  | run order => exact absurd rfl (h order)

theorem observe_view {s : ChunkTicketManager × LevelView} (h : s.2 = s.1.view) (op : Op) :
    (observe s op).2 = (observe s op).1.view := by
  cases op with
  | run order =>
    have hdiff := diff_runAllUpdates s.1 order
    simp only [observe, step, h]
    exact hdiff.apply
  | add pos ticket => exact h.trans (view_step_of_not_run (by simp)).symm
  | remove pos ticket => exact h.trans (view_step_of_not_run (by simp)).symm
  | removeAllAt pos => exact h.trans (view_step_of_not_run (by simp)).symm

theorem runSteps_observe_view (ops : List Op) :
    (runSteps observe (new, .empty) ops).2 = (runSteps observe (new, .empty) ops).1.view := by
  have hguard : Guarded observe (fun _ _ => True) (new, LevelView.empty) ops :=
    guarded_of_forall fun _ _ _ => trivial
  have hstep : ∀ s op, s.2 = s.1.view → True → (observe s op).2 = (observe s op).1.view :=
    fun _ op h _ => observe_view h op
  exact hguard.invariant hstep rfl

/-- After every propagation the consumer has the levels of the manager. The change list names a
position at most once, and only if one of its levels is new. -/
theorem changes_exact (ops : List Op) (order : UpdateOrder) :
    let before := runSteps observe (new, .empty) ops
    let after := runSteps observe (new, .empty) (ops ++ [.run order])
    after.2.levels = after.1.getLevel ∧ after.2.simulationLevels = after.1.getSimulationLevel ∧
      (after.1.changes.map pos).Nodup ∧
      ∀ c ∈ after.1.changes, before.1.getLevel c.pos ≠ after.1.getLevel c.pos ∨
        before.1.getSimulationLevel c.pos ≠ after.1.getSimulationLevel c.pos := by
  intro before after
  have hview : after.2 = after.1.view := runSteps_observe_view (ops ++ [.run order])
  have hobserve : after = observe before (.run order) := runSteps_append ..
  have hafter : after.1 = before.1.runAllUpdates order := by
    rw [hobserve]
    rfl
  have hdiff := diff_runAllUpdates before.1 order
  rw [← hafter] at hdiff
  rw [hview]
  exact ⟨rfl, rfl, hdiff.nodup, hdiff.changed⟩

end ChunkTicketManager

end Steel
