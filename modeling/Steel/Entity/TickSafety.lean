import Steel.Entity.RidingForest
import Steel.Lib.DepthFirst

/-! # The entity tick pass

A pass ticks the entities of the tick list that ride nothing, and each of them ticks its passengers.
While it goes down from a vehicle, none of the entities it is about can have become a passenger of
the last one.
-/

namespace Steel

open EntityWorld List

/-- What stops a pass. -/
inductive TickPanic where
  | cyclicPassengerRelationship (entity : EntityId)
  | endless
  deriving DecidableEq

/-- What the callbacks of an entity do in a world. -/
structure EntityCallbacks where
  checkDespawn : EntityWorld → EntityId → List EntityAction
  tick : EntityWorld → EntityId → List EntityAction
  rideTick : EntityWorld → EntityId → List EntityAction

/-- A pass with the entities whose callbacks have ticked them, in this order. -/
structure TickPass where
  world : EntityWorld
  tickedEntities : Finset EntityId
  log : List EntityId

def TickPass.start (world : EntityWorld) : TickPass := ⟨world, ∅, []⟩

namespace EntityWorld

/-- Walks along the vehicles until one of them meets the condition. An entity that comes up again
is a panic. -/
def checkVehicleChain (world : EntityWorld) (stop : EntityId → Bool) (entity : EntityId) :
    ℕ → List EntityId → Option EntityId → Except TickPanic Bool
  | 0, _, _ => .error .endless
  | _ + 1, _, none => .ok false
  | fuel + 1, visited, some current =>
    if current ∈ visited then .error (.cyclicPassengerRelationship entity)
    else if stop current then .ok true
    else world.checkVehicleChain stop entity fuel (current :: visited) (world.vehicle current)

variable (world : EntityWorld)

def hasPendingWorldChangeInVehicleChain (entity : EntityId) : Except TickPanic Bool :=
  if world.isWorldChangePending entity then .ok true
  else
    world.checkVehicleChain world.isWorldChangePending entity idFuel [entity]
      (world.vehicle entity)

def assertAcyclicVehicleChain (entity : EntityId) : Except TickPanic Unit :=
  (world.checkVehicleChain (fun _ => false) entity idFuel [entity] (world.vehicle entity)).map
    fun _ => ()

def canTickEntityNow (entity : EntityId) : Except TickPanic Bool :=
  match world.live entity with
  | none => .ok false
  | some ownership => do
    if ← world.hasPendingWorldChangeInVehicleChain entity then
      return false
    match ownership with
    | .external => return world.isPlayer entity || entity ∈ world.tickList
    | .managerOwned => return entity ∈ world.tickList

/-- The total of a traversal of the passengers that sees each of them once. -/
def countPlayerPassengers (entity : EntityId) : Option ℕ :=
  (DepthFirst.visitAll world.passengers
    (fun passenger total => if world.isPlayer passenger then total + 1 else total) idFuel
    (world.passengers entity) (0, [entity])).map Prod.fst

def isEntityFrozenByTickRate (entity : EntityId) (runsNormally : Bool) : Except TickPanic Bool :=
  if runsNormally || world.isPlayer entity then .ok false
  else
    match world.countPlayerPassengers entity with
    | none => .error .endless
    | some count => .ok (count = 0)

/-- Whether the entity is a passenger, and the world afterwards. -/
def isValidPassengerOrStopRiding (entity : EntityId) : Except TickPanic (EntityWorld × Bool) :=
  match world.vehicle entity with
  | none => .ok (world, false)
  | some vehicle =>
    if !world.isRemoved vehicle && entity ∈ world.passengers vehicle then
      (world.assertAcyclicVehicleChain entity).map fun _ => (world, true)
    else .ok (world.stopRidingRelationship entity, false)

end EntityWorld

namespace TickPass

def call (callback : EntityWorld → EntityId → List EntityAction) (entity : EntityId)
    (pass : TickPass) : Except TickPanic TickPass :=
  match pass.world.performAll (callback pass.world entity) with
  | none => .error .endless
  | some world => .ok { pass with world := world }

def runTick (callback : EntityWorld → EntityId → List EntityAction) (entity : EntityId)
    (pass : TickPass) : Except TickPanic TickPass :=
  call callback entity { pass with log := pass.log ++ [entity] }

def insertTicked (entity : EntityId) (pass : TickPass) : TickPass :=
  { pass with tickedEntities := insert entity pass.tickedEntities }

def stopRiding (entity : EntityId) (pass : TickPass) : TickPass :=
  { pass with world := pass.world.stopRidingRelationship entity }

/-- `tick_passenger`. Every call takes its entity out of the visited ones again when it returns, so
they are those that the calls around it are about. -/
def tickPassenger (callbacks : EntityCallbacks) :
    ℕ → EntityId → List EntityId → TickPass → EntityId → Except TickPanic TickPass
  | 0, _, _, _, _ => .error .endless
  | fuel + 1, vehicle, visited, pass, entity =>
    if entity ∈ visited then .error (.cyclicPassengerRelationship entity)
    else if pass.world.isRemoved entity || pass.world.vehicle entity ≠ some vehicle then
      .ok (pass.stopRiding entity)
    else do
      let canTick ← pass.world.canTickEntityNow entity
      if canTick && entity ∉ pass.tickedEntities then
        let pass ← (pass.insertTicked entity).runTick callbacks.rideTick entity
        (pass.world.passengers entity).foldlM
          (tickPassenger callbacks fuel entity (entity :: visited)) pass
      else return pass

/-- `tick_vehicle_passengers_with_ticked_if`. -/
def tickVehiclePassengersWithTicked (callbacks : EntityCallbacks) (vehicle : EntityId)
    (pass : TickPass) : Except TickPanic TickPass :=
  (pass.world.passengers vehicle).foldlM
    (tickPassenger callbacks idFuel vehicle [vehicle]) pass

def tickNonPassenger (callbacks : EntityCallbacks) (entity : EntityId) (pass : TickPass) :
    Except TickPanic TickPass := do
  let pass ← pass.runTick callbacks.tick entity
  pass.tickVehiclePassengersWithTicked callbacks entity

def tickCandidate (runsNormally : Bool) (callbacks : EntityCallbacks) (pass : TickPass)
    (entity : EntityId) : Except TickPanic TickPass := do
  if !(← pass.world.canTickEntityNow entity) then
    return pass
  if pass.world.isRemoved entity then
    return pass
  if ← pass.world.isEntityFrozenByTickRate entity runsNormally then
    return pass
  let pass ← pass.call callbacks.checkDespawn entity
  if pass.world.isRemoved entity then
    return pass
  let (world, valid) ← pass.world.isValidPassengerOrStopRiding entity
  let pass := { pass with world := world }
  if valid then
    return pass
  if entity ∈ pass.tickedEntities then
    return pass
  (pass.insertTicked entity).tickNonPassenger callbacks entity

end TickPass

/-- `WorldEntityManager::tick_entities`, without the chunks it marks dirty. -/
def EntityWorld.tickEntities (world : EntityWorld) (runsNormally : Bool)
    (callbacks : EntityCallbacks) : Except TickPanic TickPass :=
  world.tickList.foldlM (TickPass.tickCandidate runsNormally callbacks) (TickPass.start world)

/-- Every callback changes the riding state of its own entity only. -/
structure EntityCallbacks.Own (callbacks : EntityCallbacks) : Prop where
  checkDespawn : ∀ world entity, EntityWorld.Allows (ownRiding entity) world
    (callbacks.checkDespawn world entity)
  tick : ∀ world entity, EntityWorld.Allows (ownRiding entity) world
    (callbacks.tick world entity)
  rideTick : ∀ world entity, EntityWorld.Allows (ownRiding entity) world
    (callbacks.rideTick world entity)

open EntityWorld

section Checks

variable {world : EntityWorld} {entity : EntityId} (h : RidingForest world)
include h

theorem EntityWorld.RidingForest.checkVehicleChain (stop : EntityId → Bool) {fuel : ℕ}
    {visited : List EntityId} {start : Option EntityId} (hvisited : visited.Nodup)
    (hstart : ∀ v, start = some v → Walked world.vehicle visited v)
    (hfuel : Fintype.card EntityId < fuel + visited.length) :
    ∃ answer, world.checkVehicleChain stop entity fuel visited start = .ok answer ∧
      (answer = true ↔ ∃ v u, start = some v ∧ LeadsTo world.vehicle v u ∧ stop u = true) := by
  induction fuel generalizing visited start with
  | zero =>
    have := hvisited.length_le_card
    omega
  | succ fuel ih =>
    cases start with
    | none => exact ⟨false, rfl, by simp⟩
    | some v =>
      have hw := hstart v rfl
      rw [EntityWorld.checkVehicleChain, if_neg (hw.not_mem h.acyclic)]
      by_cases hstop : stop v = true
      · rw [if_pos hstop]
        exact ⟨true, rfl, fun _ => ⟨v, v, rfl, .refl, hstop⟩, fun _ => rfl⟩
      · rw [if_neg hstop]
        obtain ⟨answer, hanswer, hiff⟩ := ih (hw.nodup_cons h.acyclic)
          (fun u hu => hw.next h.acyclic hu) (by simp only [length_cons]; omega)
        refine ⟨answer, hanswer, hiff.trans ?_⟩
        constructor
        · rintro ⟨w, u, hw, hleads, hu⟩
          exact ⟨v, u, rfl, .head hw hleads, hu⟩
        · rintro ⟨w, u, hw, hleads, hu⟩
          obtain rfl := Option.some.inj hw
          rcases hleads.cases_parent with rfl | ⟨next, hnext, hrest⟩
          · exact absurd hu hstop
          · exact ⟨next, u, hnext, hrest, hu⟩

theorem EntityWorld.RidingForest.checkFrom (stop : EntityId → Bool) (entity : EntityId) :
    ∃ answer, world.checkVehicleChain stop entity idFuel [entity] (world.vehicle entity) =
        .ok answer ∧
      (answer = true ↔
        ∃ v u, world.vehicle entity = some v ∧ LeadsTo world.vehicle v u ∧ stop u = true) :=
  h.checkVehicleChain stop (nodup_singleton entity) (fun _ hv => .start hv)
    (Nat.lt_succ_of_lt card_lt_idFuel)

theorem EntityWorld.RidingForest.hasPendingWorldChange (entity : EntityId) :
    ∃ answer, world.hasPendingWorldChangeInVehicleChain entity = .ok answer ∧ (answer = true ↔
        ∃ u, LeadsTo world.vehicle entity u ∧ world.isWorldChangePending u = true) := by
  unfold EntityWorld.hasPendingWorldChangeInVehicleChain
  by_cases hpending : world.isWorldChangePending entity = true
  · rw [if_pos hpending]
    exact ⟨true, rfl, fun _ => ⟨entity, .refl, hpending⟩, fun _ => rfl⟩
  · rw [if_neg hpending]
    obtain ⟨answer, hanswer, hiff⟩ := h.checkFrom world.isWorldChangePending entity
    refine ⟨answer, hanswer, hiff.trans ?_⟩
    constructor
    · rintro ⟨v, u, hv, hleads, hu⟩
      exact ⟨u, .head hv hleads, hu⟩
    · rintro ⟨u, hleads, hu⟩
      rcases hleads.cases_parent with rfl | ⟨v, hv, hrest⟩
      · exact absurd hu hpending
      · exact ⟨v, u, hv, hrest, hu⟩

theorem EntityWorld.RidingForest.assertAcyclic (entity : EntityId) :
    world.assertAcyclicVehicleChain entity = .ok () := by
  obtain ⟨answer, hanswer, -⟩ := h.checkFrom (fun _ => false) entity
  rw [EntityWorld.assertAcyclicVehicleChain, hanswer]
  rfl

theorem EntityWorld.RidingForest.canTick (entity : EntityId) :
    ∃ answer, world.canTickEntityNow entity = .ok answer ∧
      ((world.live entity).isSome → entity ∈ world.tickList →
        (∀ u, LeadsTo world.vehicle entity u → world.isWorldChangePending u = false) →
        answer = true) := by
  obtain ⟨pending, hpending, hiff⟩ := h.hasPendingWorldChange entity
  unfold EntityWorld.canTickEntityNow
  cases world.live entity with
  | none => exact ⟨false, rfl, nofun⟩
  | some ownership =>
    dsimp only
    rw [hpending]
    cases pending with
    | true =>
      refine ⟨false, rfl, fun _ _ hnone => ?_⟩
      obtain ⟨u, hleads, hu⟩ := hiff.1 rfl
      exact absurd hu (by rw [hnone u hleads]; exact Bool.false_ne_true)
    | false =>
      cases ownership with
      | external => exact ⟨_, rfl, fun _ hmem _ => by simp [hmem]⟩
      | managerOwned => exact ⟨_, rfl, fun _ hmem _ => by simp [hmem]⟩

theorem EntityWorld.RidingForest.validPassenger (entity : EntityId) :
    ∃ result, world.isValidPassengerOrStopRiding entity = .ok result ∧
      (result.1 = world ∨ result = (world.stopRidingRelationship entity, false)) := by
  unfold EntityWorld.isValidPassengerOrStopRiding
  cases world.vehicle entity with
  | none => exact ⟨_, rfl, .inl rfl⟩
  | some vehicle =>
    dsimp only
    split
    · rw [h.assertAcyclic]
      exact ⟨_, rfl, .inl rfl⟩
    · exact ⟨_, rfl, .inr rfl⟩

end Checks

theorem EntityWorld.countPlayerPassengers_isSome (world : EntityWorld) (entity : EntityId) :
    ∃ count, world.countPlayerPassengers entity = some count := by
  have hfuel : (Finset.univ : Finset EntityId).toList.length < idFuel := by
    rw [Finset.length_toList]
    exact card_lt_idFuel
  obtain ⟨after, hafter⟩ := @DepthFirst.visitAll_some_of_visited _ _ world.passengers
    (fun passenger total => if world.isPlayer passenger then total + 1 else total) _ _
    (fun a _ => Finset.mem_toList.2 (Finset.mem_univ a)) _ hfuel (world.passengers entity) 0
    [entity]
  exact ⟨after.1, by rw [EntityWorld.countPlayerPassengers, hafter]; rfl⟩

theorem EntityWorld.isEntityFrozenByTickRate_ok (world : EntityWorld) (entity : EntityId)
    (runsNormally : Bool) :
    ∃ answer, world.isEntityFrozenByTickRate entity runsNormally = .ok answer := by
  unfold EntityWorld.isEntityFrozenByTickRate
  obtain ⟨count, hcount⟩ := world.countPlayerPassengers_isSome entity
  split
  · exact ⟨_, rfl⟩
  · rw [hcount]
    exact ⟨_, rfl⟩

namespace TickPass

variable {pass pass' pass'' : TickPass} {entity vehicle : EntityId}

/-- Each entity is in the log once, and it is ticked. -/
structure Sound (pass : TickPass) : Prop where
  consistent : Consistent pass.world
  nodup : pass.log.Nodup
  logged : ∀ x, x ∈ pass.log ↔ x ∈ pass.tickedEntities

theorem sound_start {world : EntityWorld} (h : Consistent world) : Sound (start world) :=
  ⟨h, .nil, fun x => by simp [start]⟩

/-- An entity gets no vehicle except while it is ticked for the first time. -/
structure Evolves (pass pass' : TickPass) : Prop where
  ticked : pass.tickedEntities ⊆ pass'.tickedEntities
  vehicle : ∀ x, x ∈ pass.tickedEntities ∨ x ∉ pass'.tickedEntities →
    pass'.world.vehicle x = none ∨ pass'.world.vehicle x = pass.world.vehicle x

theorem Evolves.refl : Evolves pass pass := ⟨fun _ hx => hx, fun _ _ => .inr rfl⟩

theorem Evolves.trans (h : Evolves pass pass') (h' : Evolves pass' pass'') :
    Evolves pass pass'' where
  ticked := h.ticked.trans h'.ticked
  vehicle x hx := by
    have hfirst : x ∈ pass.tickedEntities ∨ x ∉ pass'.tickedEntities :=
      hx.imp_right fun hout hin => hout (h'.ticked hin)
    have hsecond : x ∈ pass'.tickedEntities ∨ x ∉ pass''.tickedEntities :=
      hx.imp_left fun hin => h.ticked hin
    rcases h'.vehicle x hsecond with hnone | hsame
    · exact .inl hnone
    · rw [hsame]
      exact h.vehicle x hfirst

theorem Evolves.of_prunes (hprunes : Prunes pass.world.vehicle pass'.world.vehicle)
    (hticked : pass'.tickedEntities = pass.tickedEntities) : Evolves pass pass' :=
  ⟨hticked ▸ fun _ hx => hx, fun x _ => hprunes x⟩

theorem Sound.stopRiding (h : Sound pass) (entity : EntityId) :
    Sound (pass.stopRiding entity) ∧ Evolves pass (pass.stopRiding entity) :=
  ⟨⟨⟨h.consistent.riding.stopRiding, h.consistent.listed.same sameEntities_stopRidingRelationship⟩,
    h.nodup, h.logged⟩, .of_prunes prunes_stopRidingRelationship rfl⟩

/-- The vehicles as they were when the callback of the upper entity returned lead from the lower
entity to it. Since then no vehicle of the upper entity and of those not yet ticked is new. -/
structure Anchored (pass : TickPass) (lower upper : EntityId)
    (vehicles : EntityId → Option EntityId) : Prop where
  ticked : upper ∈ pass.tickedEntities
  acyclic : Acyclic vehicles
  leads : LeadsTo vehicles lower upper
  kept : ∀ x, x = upper ∨ x ∉ pass.tickedEntities →
    pass.world.vehicle x = none ∨ pass.world.vehicle x = vehicles x

/-- The pass goes down from all visited entities to the last of them. -/
def Visiting (pass : TickPass) (last : EntityId) (visited : List EntityId) : Prop :=
  ∀ upper ∈ visited, ∃ vehicles, Anchored pass last upper vehicles

theorem Anchored.evolve {lower upper : EntityId} {vehicles : EntityId → Option EntityId}
    (h : Anchored pass lower upper vehicles) (hevolves : Evolves pass pass') :
    Anchored pass' lower upper vehicles where
  ticked := hevolves.ticked h.ticked
  acyclic := h.acyclic
  leads := h.leads
  kept x hx := by
    have hold : x = upper ∨ x ∉ pass.tickedEntities :=
      hx.imp_right fun hout hin => hout (hevolves.ticked hin)
    have hevolved : x ∈ pass.tickedEntities ∨ x ∉ pass'.tickedEntities := by
      rcases hx with rfl | hx
      · exact .inl h.ticked
      · exact .inr hx
    rcases hevolves.vehicle x hevolved with hnone | hsame
    · exact .inl hnone
    · rw [hsame]
      exact h.kept x hold

variable {visited : List EntityId}

theorem Visiting.evolve (h : Visiting pass vehicle visited)
    (hevolves : Evolves pass pass') : Visiting pass' vehicle visited := by
  intro upper hupper
  obtain ⟨vehicles, hanchored⟩ := h upper hupper
  exact ⟨vehicles, hanchored.evolve hevolves⟩

theorem Visiting.not_mem (h : Visiting pass vehicle visited)
    (hrides : pass.world.vehicle entity = some vehicle) : entity ∉ visited := by
  intro hmem
  obtain ⟨vehicles, hanchored⟩ := h entity hmem
  rcases hanchored.kept entity (.inl rfl) with hnone | hsame
  · exact absurd (hnone.symm.trans hrides) nofun
  · exact hanchored.acyclic entity (.head' (hsame.symm.trans hrides) hanchored.leads)

theorem visiting_last (h : Sound pass) (hticked : entity ∈ pass.tickedEntities) :
    ∃ vehicles, Anchored pass entity entity vehicles :=
  ⟨pass.world.vehicle, hticked, h.consistent.riding.acyclic, .refl, fun _ _ => .inr rfl⟩

theorem Visiting.push (h : Visiting pass vehicle visited)
    (hrides : pass.world.vehicle entity = some vehicle) (hnew : entity ∉ pass.tickedEntities)
    (hsound : Sound pass') (hevolves : Evolves pass pass')
    (hticked : entity ∈ pass'.tickedEntities) : Visiting pass' entity (entity :: visited) := by
  intro upper hupper
  rcases mem_cons.1 hupper with rfl | hupper
  · exact visiting_last hsound hticked
  · obtain ⟨vehicles, hanchored⟩ := h upper hupper
    refine ⟨vehicles, (hanchored.evolve hevolves).ticked, hanchored.acyclic, ?_,
      (hanchored.evolve hevolves).kept⟩
    rcases hanchored.kept entity (.inr hnew) with hnone | hsame
    · exact absurd (hnone.symm.trans hrides) nofun
    · exact .head (hsame.symm.trans hrides) hanchored.leads

section

variable {callback : EntityWorld → EntityId → List EntityAction} (h : Sound pass)
  (hown : ∀ world, Allows (ownRiding entity) world (callback world entity))

include h hown

theorem call_ok :
    ∃ world, pass.call callback entity = .ok { pass with world := world } ∧ Consistent world := by
  obtain ⟨world, hworld, hconsistent, -⟩ := h.consistent.performOwn (hown pass.world)
  exact ⟨world, by rw [call, hworld], hconsistent⟩

theorem runTick_ok (hnew : entity ∉ pass.tickedEntities) :
    ∃ pass', (pass.insertTicked entity).runTick callback entity = .ok pass' ∧ Sound pass' ∧
      Evolves pass pass' ∧ pass'.tickedEntities = insert entity pass.tickedEntities ∧
      pass'.log = pass.log ++ [entity] := by
  obtain ⟨world, hworld, hconsistent, -, hrewires⟩ := h.consistent.performOwn (hown pass.world)
  refine ⟨⟨world, insert entity pass.tickedEntities, pass.log ++ [entity]⟩, ?_,
    ⟨hconsistent, ?_, ?_⟩, ⟨Finset.subset_insert _ _, ?_⟩, rfl, rfl⟩
  · simp only [runTick, call, insertTicked, hworld]
  · rw [(perm_append_singleton entity pass.log).nodup_iff, nodup_cons, h.logged]
    exact ⟨hnew, h.nodup⟩
  · intro x
    rw [mem_append, mem_singleton, h.logged, Finset.mem_insert, or_comm]
  · intro x hx
    apply hrewires x
    rintro rfl
    rcases hx with hin | hout
    · exact hnew hin
    · exact hout (Finset.mem_insert_self _ _)

end

theorem foldlM_ok {f : TickPass → EntityId → Except TickPanic TickPass} {P : TickPass → Prop}
    {entities : List EntityId}
    (hf : ∀ pass, ∀ entity ∈ entities, P pass → ∃ pass', f pass entity = .ok pass' ∧ P pass')
    (h : P pass) : ∃ pass', entities.foldlM f pass = .ok pass' ∧ P pass' := by
  induction entities generalizing pass with
  | nil => exact ⟨pass, rfl, h⟩
  | cons entity entities ih =>
    obtain ⟨next, hnext, hP⟩ := hf pass entity mem_cons_self h
    obtain ⟨last, hlast, hdone⟩ := ih (fun pass x hx => hf pass x (mem_cons_of_mem _ hx)) hP
    refine ⟨last, ?_, hdone⟩
    rw [foldlM_cons, hnext]
    exact hlast

/-- Passengers that are not on the way down to their vehicle are ticked without a panic. -/
def PassengerOk (callbacks : EntityCallbacks) (fuel : ℕ) : Prop :=
  ∀ pass vehicle visited entity, Sound pass →
    Fintype.card EntityId < fuel + pass.tickedEntities.card → Visiting pass vehicle visited →
    entity ∉ visited →
    ∃ pass', tickPassenger callbacks fuel vehicle visited pass entity = .ok pass' ∧ Sound pass' ∧
      Evolves pass pass'

variable {callbacks : EntityCallbacks}

/-- The entities of a snapshot are off the way down, whatever happens to them in the meantime. -/
theorem PassengerOk.foldlM {fuel : ℕ} {visited entities : List EntityId}
    (hok : PassengerOk callbacks fuel) (h : Sound pass)
    (hfuel : Fintype.card EntityId < fuel + pass.tickedEntities.card)
    (hvisiting : Visiting pass vehicle visited) (hentities : ∀ x ∈ entities, x ∉ visited) :
    ∃ pass', entities.foldlM (tickPassenger callbacks fuel vehicle visited) pass = .ok pass' ∧
      Sound pass' ∧ Evolves pass pass' := by
  apply foldlM_ok (P := fun last => Sound last ∧ Evolves pass last) _ ⟨h, .refl⟩
  rintro next x hx ⟨hsound, hevolves⟩
  have hcard := Finset.card_le_card hevolves.ticked
  obtain ⟨last, hlast, hdone, hlater⟩ := hok next vehicle visited x hsound (by omega)
    (hvisiting.evolve hevolves) (hentities x hx)
  exact ⟨last, hlast, hdone, hevolves.trans hlater⟩

section Passengers

variable (hown : callbacks.Own)
include hown

theorem passengerOk (fuel : ℕ) : PassengerOk callbacks fuel := by
  induction fuel with
  | zero =>
    intro pass vehicle visited entity _ hfuel
    have := pass.tickedEntities.card_le_univ
    omega
  | succ fuel ih =>
    intro pass vehicle visited entity h hfuel hvisiting hnew
    rw [tickPassenger, if_neg hnew]
    split
    · exact ⟨_, rfl, h.stopRiding entity⟩
    · rename_i hrides
      rw [Bool.or_eq_true, decide_eq_true_eq, not_or, not_not] at hrides
      obtain ⟨canTick, hcan, -⟩ := h.consistent.riding.canTick entity
      rw [hcan]
      by_cases hticks : (canTick && entity ∉ pass.tickedEntities) = true
      · obtain ⟨-, hfresh⟩ := Bool.and_eq_true_iff.1 hticks
        rw [decide_eq_true_eq] at hfresh
        obtain ⟨ticked, hticked, hsound, hevolves, hinsert, -⟩ :=
          runTick_ok h (fun world => hown.rideTick world entity) hfresh
        have hmem : entity ∈ ticked.tickedEntities := by
          rw [hinsert]
          exact Finset.mem_insert_self _ _
        have hcard : ticked.tickedEntities.card = pass.tickedEntities.card + 1 := by
          rw [hinsert, Finset.card_insert_of_notMem hfresh]
        have hdown := hvisiting.push hrides.2 hfresh hsound hevolves hmem
        obtain ⟨last, hlast, hdone, hlater⟩ := ih.foldlM hsound (by omega) hdown
          fun x hx => hdown.not_mem ((hsound.consistent.riding.mem x entity).2 hx)
        refine ⟨last, ?_, hdone, hevolves.trans hlater⟩
        simp only [hticks, if_true, bind, Except.bind, hticked, hlast]
      · refine ⟨pass, ?_, h, .refl⟩
        simp only [hticks, bind, Except.bind]
        rfl

theorem tickNonPassenger_ok (h : Sound pass) (hnew : entity ∉ pass.tickedEntities) :
    ∃ pass', (pass.insertTicked entity).tickNonPassenger callbacks entity = .ok pass' ∧
      Sound pass' := by
  obtain ⟨ticked, hticked, hsound, -, hinsert, -⟩ :=
    runTick_ok h (fun world => hown.tick world entity) hnew
  have hmem : entity ∈ ticked.tickedEntities := by
    rw [hinsert]
    exact Finset.mem_insert_self _ _
  have hdown : Visiting ticked entity [entity] := by
    intro upper hupper
    obtain rfl := mem_singleton.1 hupper
    exact visiting_last hsound hmem
  obtain ⟨last, hlast, hdone, -⟩ := (passengerOk hown idFuel).foldlM hsound
    (Nat.lt_add_right _ card_lt_idFuel) hdown
    fun x hx => hdown.not_mem ((hsound.consistent.riding.mem x entity).2 hx)
  refine ⟨last, ?_, hdone⟩
  rw [tickNonPassenger, hticked]
  exact hlast

theorem tickCandidate_ok (runsNormally : Bool) (h : Sound pass) :
    ∃ pass', tickCandidate runsNormally callbacks pass entity = .ok pass' ∧ Sound pass' := by
  obtain ⟨canTick, hcan, -⟩ := h.consistent.riding.canTick entity
  obtain ⟨frozen, hfrozen⟩ := pass.world.isEntityFrozenByTickRate_ok entity runsNormally
  obtain ⟨world, hworld, hconsistent⟩ := call_ok h fun world => hown.checkDespawn world entity
  obtain ⟨⟨rest, valid⟩, hrest, hchanged⟩ := hconsistent.riding.validPassenger entity
  have hcalled : Sound { pass with world := world } := ⟨hconsistent, h.nodup, h.logged⟩
  have hchecked : Sound { pass with world := rest } := by
    rcases hchanged with hsame | hstopped
    · obtain rfl : rest = world := hsame
      exact hcalled
    · obtain rfl : rest = world.stopRidingRelationship entity := congrArg Prod.fst hstopped
      exact (hcalled.stopRiding entity).1
  simp only [tickCandidate, hcan, hfrozen, hworld, hrest, bind, Except.bind]
  cases canTick with
  | false => exact ⟨pass, rfl, h⟩
  | true =>
    simp only [Bool.not_true, Bool.false_eq_true, if_false]
    split
    · exact ⟨pass, rfl, h⟩
    split
    · exact ⟨pass, rfl, h⟩
    split
    · exact ⟨_, rfl, hcalled⟩
    split
    · exact ⟨_, rfl, hchecked⟩
    split
    · exact ⟨_, rfl, hchecked⟩
    · rename_i hnew
      exact tickNonPassenger_ok hown hchecked hnew

theorem tickEntities_ok {world : EntityWorld} (runsNormally : Bool) (h : Consistent world) :
    ∃ pass, world.tickEntities runsNormally callbacks = .ok pass ∧ Sound pass :=
  foldlM_ok (fun _ _ _ hpass => tickCandidate_ok hown runsNormally hpass) (sound_start h)

end Passengers

end TickPass

end Steel
