import Mathlib.Data.Fintype.EquivFin
import Steel.Entity.EntityRelationships

/-! # Riding is a forest

Both ends of every riding relationship agree after every action, and no entity rides itself along
its vehicles.
-/

namespace Steel

open Function Fintype List Bool

def EntityId.equivFin : Fin (2 ^ 32) ≃ EntityId where
  toFun i := ⟨⟨⟨i⟩⟩⟩
  invFun id := id.toBitVec.toFin
  left_inv _ := rfl
  right_inv _ := rfl

instance : Fintype EntityId := .ofEquiv _ EntityId.equivFin

theorem card_entityId : card EntityId = 2 ^ 32 :=
  (ofEquiv_card EntityId.equivFin).trans (card_fin _)

namespace EntityWorld

variable {world world' : EntityWorld} {entity passenger vehicle : EntityId}

theorem card_lt_idFuel : card EntityId < idFuel := by
  rw [card_entityId]
  unfold idFuel
  exact Nat.lt_succ_self _

@[simp] theorem vehicle_setVehicle (vehicle : Option EntityId) :
    (world.setVehicle entity vehicle).vehicle = Function.update world.vehicle entity vehicle :=
  comp_update EntityRelationshipState.vehicle ..

@[simp] theorem passengers_setVehicle (vehicle : Option EntityId) :
    (world.setVehicle entity vehicle).passengers = world.passengers :=
  (comp_update EntityRelationshipState.passengers ..).trans (update_eq_self _ _)

variable (passengers : List EntityId)

@[simp] theorem vehicle_setPassengers :
    (world.setPassengers entity passengers).vehicle = world.vehicle :=
  (comp_update EntityRelationshipState.vehicle ..).trans (update_eq_self _ _)

@[simp] theorem passengers_setPassengers : (world.setPassengers entity passengers).passengers =
      Function.update world.passengers entity passengers :=
  comp_update EntityRelationshipState.passengers ..

@[simp] theorem vehicle_setBoardingCooldown (cooldown : ℤ) :
    (world.setBoardingCooldown entity cooldown).vehicle = world.vehicle :=
  (comp_update EntityRelationshipState.vehicle ..).trans (update_eq_self _ _)

@[simp] theorem passengers_setBoardingCooldown (cooldown : ℤ) :
    (world.setBoardingCooldown entity cooldown).passengers = world.passengers :=
  (comp_update EntityRelationshipState.passengers ..).trans (update_eq_self _ _)

/-- Only relationships differ. -/
structure SameEntities (world world' : EntityWorld) : Prop where
  isPlayer : world'.isPlayer = world.isPlayer
  lifecycle : world'.lifecycle = world.lifecycle
  live : world'.live = world.live
  tickList : world'.tickList = world.tickList

theorem SameEntities.refl : SameEntities world world := ⟨rfl, rfl, rfl, rfl⟩

variable {world'' : EntityWorld}

theorem SameEntities.trans (h : SameEntities world world')
    (h' : SameEntities world' world'') : SameEntities world world'' :=
  ⟨h'.isPlayer.trans h.isPlayer, h'.lifecycle.trans h.lifecycle, h'.live.trans h.live,
    h'.tickList.trans h.tickList⟩

theorem vehicle_stopRidingRelationship : (world.stopRidingRelationship passenger).vehicle =
      Function.update world.vehicle passenger none := by
  unfold stopRidingRelationship removePassengerId
  cases world.vehicle passenger with
  | none => exact vehicle_setVehicle none
  | some vehicle => simp

theorem prunes_stopRidingRelationship :
    Prunes world.vehicle (world.stopRidingRelationship passenger).vehicle := by
  rw [vehicle_stopRidingRelationship]
  exact prunes_update_none

theorem sameEntities_stopRidingRelationship :
    SameEntities world (world.stopRidingRelationship passenger) := by
  unfold stopRidingRelationship
  cases world.vehicle passenger with
  | none => exact ⟨rfl, rfl, rfl, rfl⟩
  | some vehicle => exact ⟨rfl, rfl, rfl, rfl⟩

theorem sameEntities_addPassengerRelationship :
    SameEntities world (world.addPassengerRelationship vehicle passenger) := by
  unfold addPassengerRelationship
  dsimp only
  split
  · exact .refl
  · split
    · exact ⟨rfl, rfl, rfl, rfl⟩
    · exact ⟨rfl, rfl, rfl, rfl⟩

theorem sameEntities_board : SameEntities world
    ((world.stopRidingRelationship passenger).addPassengerRelationship vehicle passenger) :=
  sameEntities_stopRidingRelationship.trans sameEntities_addPassengerRelationship

def RidingForest (world : EntityWorld) : Prop := LinkedForest world.vehicle world.passengers

variable (isPlayer : EntityId → Bool)

theorem ridingForest_new : RidingForest (new isPlayer) :=
  LinkedForest.empty

/-- All entities but one keep their vehicles or lose them. -/
def Rewires (entity : EntityId) (world world' : EntityWorld) : Prop :=
  ∀ x, x ≠ entity → world'.vehicle x = none ∨ world'.vehicle x = world.vehicle x

theorem Rewires.of_prunes (h : Prunes world.vehicle world'.vehicle) :
    Rewires entity world world' := fun x _ => h x

theorem Rewires.trans (h : Rewires entity world world')
    (h' : Rewires entity world' world'') : Rewires entity world world'' := by
  intro x hx
  rcases h' x hx with hnone | hsame
  · exact .inl hnone
  · rw [hsame]
    exact h x hx

theorem ejectPassenger_eq : ejectPassenger entity world passenger =
      if world.vehicle passenger = some entity then
        (world.setVehicle passenger none).setBoardingCooldown passenger 60
      else world := by
  unfold ejectPassenger clearVehicleIf
  cases world.vehicle passenger with
  | none => rfl
  | some current =>
    by_cases hne : current = entity
    · simp [hne]
    · simp [hne]

/-- The listed passengers of the entity lose their vehicle. -/
structure Ejects (entity : EntityId) (passengers : List EntityId) (world world' : EntityWorld) :
    Prop where
  vehicle : ∀ x, world'.vehicle x =
    if x ∈ passengers ∧ world.vehicle x = some entity then none else world.vehicle x
  passengers : world'.passengers = world.passengers
  entities : SameEntities world world'

theorem ejects_ejectPassenger :
    Ejects entity [passenger] world (ejectPassenger entity world passenger) := by
  rw [ejectPassenger_eq]
  split
  · rename_i hrides
    refine ⟨fun x => ?_, by simp, ⟨rfl, rfl, rfl, rfl⟩⟩
    rw [vehicle_setBoardingCooldown, vehicle_setVehicle]
    by_cases hx : x = passenger
    · subst hx
      simp [hrides]
    · simp [hx]
  · rename_i hother
    refine ⟨fun x => ?_, rfl, .refl⟩
    rw [if_neg]
    rintro ⟨hx, hrides⟩
    exact hother (mem_singleton.1 hx ▸ hrides)

theorem Ejects.cons {passengers : List EntityId}
    (h : Ejects entity [passenger] world world') (h' : Ejects entity passengers world' world'') :
    Ejects entity (passenger :: passengers) world world'' where
  vehicle x := by
    rw [h'.vehicle, h.vehicle]
    by_cases hx : x = passenger
    · subst hx
      by_cases hrides : world.vehicle x = some entity
      · simp [hrides]
      · simp [hrides]
    · simp [hx]
  passengers := h'.passengers.trans h.passengers
  entities := h.entities.trans h'.entities

theorem ejects_foldl :
    Ejects entity passengers world (passengers.foldl (ejectPassenger entity) world) := by
  induction passengers generalizing world with
  | nil => exact ⟨fun x => by simp, rfl, .refl⟩
  | cons passenger passengers ih => exact ejects_ejectPassenger.cons ih

section Forest

variable (h : RidingForest world)
include h

theorem RidingForest.stopRiding : RidingForest (world.stopRidingRelationship passenger) := by
  unfold stopRidingRelationship removePassengerId
  cases hvehicle : world.vehicle passenger with
  | none =>
    have hsame : Function.update world.vehicle passenger none = world.vehicle := by
      rw [← hvehicle]
      exact update_eq_self _ _
    simpa only [RidingForest, vehicle_setVehicle, passengers_setVehicle, hsame] using h
  | some vehicle =>
    simpa [RidingForest] using h.unlink hvehicle

theorem RidingForest.addPassenger (hnone : world.vehicle passenger = none)
    (hnot : ¬ LeadsTo world.vehicle vehicle passenger) :
    RidingForest (world.addPassengerRelationship vehicle passenger) ∧
      (world.addPassengerRelationship vehicle passenger).vehicle =
        Function.update world.vehicle passenger (some vehicle) := by
  have hnew : passenger ∉ world.passengers vehicle := by
    rw [← h.mem, hnone]
    exact nofun
  unfold addPassengerRelationship
  rw [if_neg hnew]
  dsimp only
  split
  · constructor
    · simpa [RidingForest] using h.link hnone hnot (.refl _)
    · simp
  · constructor
    · simpa [RidingForest] using h.link hnone hnot (perm_append_singleton _ _)
    · simp

/-- A rider that leaves its vehicle can board one that does not lead back to it. -/
theorem RidingForest.board (hnot : ¬ LeadsTo world.vehicle vehicle passenger) :
    RidingForest ((world.stopRidingRelationship passenger).addPassengerRelationship vehicle
        passenger) ∧
      Rewires passenger world
        ((world.stopRidingRelationship passenger).addPassengerRelationship vehicle passenger) := by
  have hprunes : Prunes world.vehicle (world.stopRidingRelationship passenger).vehicle :=
    prunes_stopRidingRelationship
  have hstopped : RidingForest (world.stopRidingRelationship passenger) := h.stopRiding
  have hnone : (world.stopRidingRelationship passenger).vehicle passenger = none := by
    rw [vehicle_stopRidingRelationship, update_self]
  obtain ⟨hforest, hvehicle⟩ :=
    hstopped.addPassenger hnone fun hleads => hnot (hprunes.leadsTo hleads)
  refine ⟨hforest, fun x hx => ?_⟩
  rw [hvehicle, update_of_ne hx]
  exact hprunes x

theorem RidingForest.restore (hne : vehicle ≠ passenger) (hnone : world.passengers passenger = []) :
    ¬ LeadsTo world.vehicle vehicle passenger := by
  intro hleads
  rcases hleads.cases_tail with heq | ⟨last, -, hlast⟩
  · exact hne heq.symm
  · have hmem := (h.mem last passenger).1 hlast
    rw [hnone] at hmem
    cases hmem

theorem RidingForest.vehicleChainHas (passenger : EntityId) {fuel : ℕ} {seen : List EntityId}
    {start : Option EntityId} (hseen : seen.Nodup)
    (hstart : ∀ v, start = some v → Walked world.vehicle seen v)
    (hfuel : card EntityId < fuel + seen.length) :
    ∃ answer, world.vehicleChainHas passenger fuel start = some answer ∧
      (answer = true ↔ ∃ v, start = some v ∧ LeadsTo world.vehicle v passenger) := by
  induction fuel generalizing seen start with
  | zero =>
    have := hseen.length_le_card
    omega
  | succ fuel ih =>
    cases start with
    | none => exact ⟨false, rfl, by simp⟩
    | some v =>
      unfold EntityWorld.vehicleChainHas
      by_cases hv : v = passenger
      · rw [if_pos hv]
        exact ⟨true, rfl, by simpa using hv ▸ .refl⟩
      · rw [if_neg hv]
        have hw := hstart v rfl
        obtain ⟨answer, hanswer, hiff⟩ := ih (hw.nodup_cons h.acyclic)
          (fun u hu => hw.next h.acyclic hu) (by simp only [length_cons]; omega)
        refine ⟨answer, hanswer, hiff.trans ?_⟩
        constructor
        · rintro ⟨u, hu, hleads⟩
          exact ⟨v, rfl, .head hu hleads⟩
        · rintro ⟨u, hu, hleads⟩
          obtain rfl := Option.some.inj hu
          rcases hleads.cases_parent with heq | hparent
          · exact absurd heq hv
          · exact hparent

theorem RidingForest.startRiding (passenger vehicle : EntityId) (answers : BoardingAnswers) :
    ∃ result, world.startRidingEntities passenger vehicle answers = some result ∧
      RidingForest result.1 ∧ SameEntities world result.1 ∧ Rewires passenger world result.1 := by
  have hrefused : RidingForest world ∧ SameEntities world world ∧ Rewires passenger world world :=
    ⟨h, .refl, fun _ _ => .inr rfl⟩
  unfold startRidingEntities
  split
  · exact ⟨_, rfl, hrefused⟩
  split
  · exact ⟨_, rfl, hrefused⟩
  split
  · exact ⟨_, rfl, hrefused⟩
  rename_i hself
  obtain ⟨answer, hanswer, hiff⟩ := h.vehicleChainHas passenger
    (nodup_singleton vehicle) (fun v hv => .start hv) (Nat.lt_succ_of_lt card_lt_idFuel)
  rw [hanswer]
  cases answer with
  | true => exact ⟨_, rfl, hrefused⟩
  | false =>
    have hnot : ¬ LeadsTo world.vehicle vehicle passenger := by
      intro hleads
      rcases hleads.cases_parent with heq | hparent
      · exact hself heq
      · exact Bool.false_ne_true (hiff.2 hparent)
    rw [Option.bind_eq_bind, Option.bind_some, if_neg Bool.false_ne_true]
    split
    · exact ⟨_, rfl, hrefused⟩
    · dsimp only
      have hleft : ∀ world₁, (if (world.vehicle passenger).isSome then
          world.stopRidingRelationship passenger else world) = world₁ → RidingForest world₁ ∧
          SameEntities world world₁ ∧ Prunes world.vehicle world₁.vehicle := by
        rintro world₁ rfl
        split
        · exact ⟨h.stopRiding, sameEntities_stopRidingRelationship, prunes_stopRidingRelationship⟩
        · exact ⟨h, .refl, fun _ => .inr rfl⟩
      generalize (if (world.vehicle passenger).isSome then world.stopRidingRelationship passenger
        else world) = world₁ at hleft ⊢
      obtain ⟨hforest, hentities, hprunes⟩ := hleft world₁ rfl
      obtain ⟨hboard, hrewires⟩ := hforest.board fun hleads => hnot (hprunes.leadsTo hleads)
      exact ⟨_, rfl, hboard, hentities.trans sameEntities_board,
        (Rewires.of_prunes hprunes).trans hrewires⟩

theorem RidingForest.ejectPassengers (entity : EntityId) :
    RidingForest (world.ejectPassengerRelationships entity) ∧
      SameEntities world (world.ejectPassengerRelationships entity) ∧
      Prunes world.vehicle (world.ejectPassengerRelationships entity).vehicle := by
  have hejects : Ejects entity (world.passengers entity) (world.setPassengers entity [])
      (world.ejectPassengerRelationships entity) := ejects_foldl _
  have hcleared : ∀ x, (world.ejectPassengerRelationships entity).vehicle x =
      if x ∈ world.passengers entity then none else world.vehicle x := by
    intro x
    rw [hejects.vehicle, vehicle_setPassengers]
    by_cases hx : x ∈ world.passengers entity
    · rw [if_pos ⟨hx, (h.mem _ _).2 hx⟩, if_pos hx]
    · rw [if_neg fun hboth => hx hboth.1, if_neg hx]
  have hlists : (world.ejectPassengerRelationships entity).passengers =
      Function.update world.passengers entity [] :=
    hejects.passengers.trans (passengers_setPassengers [])
  have hentities : SameEntities world (world.setPassengers entity []) := ⟨rfl, rfl, rfl, rfl⟩
  refine ⟨?_, hentities.trans hejects.entities, fun x => ?_⟩
  · rw [RidingForest, hlists]
    exact h.eject hcleared
  · rw [hcleared]
    by_cases hx : x ∈ world.passengers entity
    · exact .inl (if_pos hx)
    · exact .inr (if_neg hx)

theorem RidingForest.detach (entity : EntityId) (reason : RemovalReason) :
    RidingForest (world.detachFromRelationships entity reason) ∧
      SameEntities world (world.detachFromRelationships entity reason) ∧
      Prunes world.vehicle (world.detachFromRelationships entity reason).vehicle := by
  unfold detachFromRelationships
  cases reason.shouldDestroy with
  | false => exact h.ejectPassengers entity
  | true =>
    have hstopped : RidingForest (world.stopRidingRelationship entity) := h.stopRiding
    obtain ⟨hforest, hentities, hprunes⟩ := hstopped.ejectPassengers entity
    exact ⟨hforest, sameEntities_stopRidingRelationship.trans hentities,
      prunes_stopRidingRelationship.trans hprunes⟩

end Forest

/-- The tick list has live entities only, each of them once. -/
structure Listed (world : EntityWorld) : Prop where
  nodup : world.tickList.Nodup
  live : ∀ entity ∈ world.tickList, (world.live entity).isSome

theorem Listed.same (h : Listed world) (hsame : SameEntities world world') : Listed world' where
  nodup := hsame.tickList ▸ h.nodup
  live entity hmem := by
    rw [hsame.live]
    exact h.live entity (hsame.tickList ▸ hmem)

theorem Listed.removeLiveEntity (h : Listed world) : Listed (world.removeLiveEntity entity) where
  nodup := h.nodup.filter _
  live x hx := by
    obtain ⟨hmem, hne⟩ := mem_filter.1 hx
    have hne : x ≠ entity := of_decide_eq_true hne
    have hlive : (world.removeLiveEntity entity).live x = world.live x :=
      update_of_ne hne ..
    exact hlive ▸ h.live x hmem

structure Consistent (world : EntityWorld) : Prop where
  riding : RidingForest world
  listed : Listed world

theorem consistent_new : Consistent (new isPlayer) :=
  ⟨ridingForest_new isPlayer, .nil, nofun⟩

section

variable (h : Consistent world)

include h

theorem Consistent.onRemove (entity : EntityId) :
    Consistent (world.onRemove entity) ∧ (world.onRemove entity).vehicle = world.vehicle ∧
      (world.onRemove entity).isPlayer = world.isPlayer := by
  unfold EntityWorld.onRemove
  split
  · exact ⟨⟨h.riding, h.listed.removeLiveEntity⟩, rfl, rfl⟩
  · exact ⟨h, rfl, rfl⟩

theorem Consistent.setRemoved (entity : EntityId) (reason : RemovalReason) :
    Consistent (world.setRemoved entity reason) ∧
      Prunes world.vehicle (world.setRemoved entity reason).vehicle ∧
      (world.setRemoved entity reason).isPlayer = world.isPlayer := by
  unfold EntityWorld.setRemoved
  split
  · exact ⟨h, fun _ => .inr rfl, rfl⟩
  · have hmarked : Consistent (world.setLifecycle entity ⟨some reason, false⟩) :=
      ⟨h.riding, h.listed.nodup, h.listed.live⟩
    obtain ⟨hforest, hentities, hprunes⟩ := hmarked.riding.detach entity reason
    have hdetached : Consistent
        ((world.setLifecycle entity ⟨some reason, false⟩).detachFromRelationships entity reason) :=
      ⟨hforest, hmarked.listed.same hentities⟩
    obtain ⟨hremoved, hvehicle, hplayers⟩ := hdetached.onRemove entity
    refine ⟨hremoved, ?_, hplayers.trans hentities.isPlayer⟩
    rw [hvehicle]
    exact hprunes

theorem Consistent.addLiveEntity (ownership : EntityOwnership) :
    Consistent (world.addLiveEntity entity ownership) := by
  unfold EntityWorld.addLiveEntity
  split
  · exact h
  · refine ⟨h.riding, h.listed.nodup, fun x hx => ?_⟩
    dsimp only at hx ⊢
    by_cases hne : x = entity
    · subst hne
      rw [update_self]
      rfl
    · rw [update_of_ne hne]
      exact h.listed.live x hx

theorem Consistent.startTicking : Consistent (world.startTicking entity) := by
  unfold EntityWorld.startTicking
  split
  · rename_i hnew
    rw [and_eq_true, decide_eq_true_eq] at hnew
    refine ⟨h.riding, ?_, fun x hx => ?_⟩
    · exact (perm_append_singleton entity _).nodup_iff.2
        (nodup_cons.2 ⟨hnew.2, h.listed.nodup⟩)
    · rcases mem_append.1 hx with hold | hlast
      · exact h.listed.live x hold
      · exact mem_singleton.1 hlast ▸ hnew.1
  · exact h

theorem Consistent.stopTicking : Consistent (world.stopTicking entity) :=
  ⟨h.riding, h.listed.nodup.filter _, fun x hx => h.listed.live x (mem_filter.1 hx).1⟩

end

theorem Consistent.perform {action : EntityAction} (h : Consistent world)
    (hrestores : world.restores action) :
    ∃ world', world.perform action = some world' ∧ Consistent world' ∧
      world'.isPlayer = world.isPlayer ∧
      ∀ entity, action.rider.all (· = entity) → Rewires entity world world' := by
  have hsame : ∀ entity, Rewires entity world world := fun _ _ _ => .inr rfl
  cases action with
  | startRiding passenger entityToRide answers =>
    obtain ⟨result, hresult, hforest, hentities, hrewires⟩ :=
      h.riding.startRiding passenger entityToRide answers
    refine ⟨result.1, ?_, ⟨hforest, h.listed.same hentities⟩, hentities.isPlayer,
      fun entity hrider => ?_⟩
    · rw [EntityWorld.perform, hresult]
      rfl
    · obtain rfl : passenger = entity := of_decide_eq_true hrider
      exact hrewires
  | stopRiding passenger =>
    refine ⟨_, rfl, ⟨h.riding.stopRiding, h.listed.same sameEntities_stopRidingRelationship⟩,
      sameEntities_stopRidingRelationship.isPlayer,
      fun entity _ => .of_prunes prunes_stopRidingRelationship⟩
  | restorePassenger vehicle passenger =>
    simp only [restores, and_eq_true, decide_eq_true_eq, List.isEmpty_iff] at hrestores
    obtain ⟨hforest, hrewires⟩ := h.riding.board (h.riding.restore hrestores.1 hrestores.2)
    refine ⟨_, rfl, ⟨hforest, h.listed.same sameEntities_board⟩, sameEntities_board.isPlayer,
      fun entity hrider => ?_⟩
    obtain rfl : passenger = entity := of_decide_eq_true hrider
    exact hrewires
  | setRemoved entity reason =>
    obtain ⟨hremoved, hprunes, hplayers⟩ := h.setRemoved entity reason
    exact ⟨_, rfl, hremoved, hplayers, fun _ _ => .of_prunes hprunes⟩
  | clearRemoved entity =>
    exact ⟨_, rfl, ⟨h.riding, h.listed.nodup, h.listed.live⟩, rfl, fun x _ => hsame x⟩
  | setWorldChangePending entity pending =>
    exact ⟨_, rfl, ⟨h.riding, h.listed.nodup, h.listed.live⟩, rfl, fun x _ => hsame x⟩
  | addLiveEntity entity ownership =>
    refine ⟨_, rfl, h.addLiveEntity ownership, ?_⟩
    unfold EntityWorld.addLiveEntity
    split
    · exact ⟨rfl, fun x _ => hsame x⟩
    · exact ⟨rfl, fun x _ => hsame x⟩
  | removeLiveEntity entity =>
    exact ⟨_, rfl, ⟨h.riding, h.listed.removeLiveEntity⟩, rfl, fun x _ => hsame x⟩
  | startTicking entity =>
    refine ⟨_, rfl, h.startTicking, ?_⟩
    unfold EntityWorld.startTicking
    split
    · exact ⟨rfl, fun x _ => hsame x⟩
    · exact ⟨rfl, fun x _ => hsame x⟩
  | stopTicking entity => exact ⟨_, rfl, h.stopTicking, rfl, fun x _ => hsame x⟩

variable {actions : List EntityAction}

theorem Consistent.performAll (h : Consistent world) (hallowed : Allows restores world actions) :
    ∃ world', world.performAll actions = some world' ∧ Consistent world' := by
  induction actions generalizing world with
  | nil => exact ⟨world, rfl, h⟩
  | cons action actions ih =>
    rw [Allows, and_eq_true] at hallowed
    obtain ⟨next, hnext, hconsistent, -, -⟩ := h.perform hallowed.1
    rw [hnext] at hallowed
    obtain ⟨last, hlast, hdone⟩ := ih hconsistent hallowed.2
    refine ⟨last, ?_, hdone⟩
    rw [EntityWorld.performAll, foldlM_cons, hnext]
    exact hlast

/-- A run of actions of one rider changes no other vehicle, except that entities lose theirs. -/
theorem Consistent.performOwn (h : Consistent world)
    (hallowed : Allows (ownRiding entity) world actions) :
    ∃ world', world.performAll actions = some world' ∧ Consistent world' ∧
      world'.isPlayer = world.isPlayer ∧ Rewires entity world world' := by
  induction actions generalizing world with
  | nil => exact ⟨world, rfl, h, rfl, fun _ _ => .inr rfl⟩
  | cons action actions ih =>
    rw [Allows, and_eq_true, ownRiding, and_eq_true] at hallowed
    obtain ⟨⟨hrestores, hrider⟩, hrest⟩ := hallowed
    obtain ⟨next, hnext, hconsistent, hplayers, hrewires⟩ := h.perform hrestores
    rw [hnext] at hrest
    obtain ⟨last, hlast, hdone, hsame, hlater⟩ := ih hconsistent hrest
    refine ⟨last, ?_, hdone, hsame.trans hplayers, (hrewires entity hrider).trans hlater⟩
    rw [EntityWorld.performAll, foldlM_cons, hnext]
    exact hlast

end EntityWorld

end Steel
