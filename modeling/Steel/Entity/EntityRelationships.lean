import Mathlib.Algebra.Group.Nat.Defs
import Steel.Lib.ParentForest

/-! # Vehicles and passengers

Every entity stores its vehicle and its passengers, each behind a lock of its own. Boarding,
leaving and removal edit both ends one after the other.
-/

namespace Steel

open Function (update)

/-- The network id of an entity, an `i32`. -/
abbrev EntityId := Int32

/-- Why an entity was removed. -/
inductive RemovalReason where
  | killed
  | discarded
  | unloadedToChunk
  | changedWorld
  | storedWithPlayer
  deriving DecidableEq

def RemovalReason.shouldDestroy : RemovalReason → Bool
  | killed | discarded => true
  | unloadedToChunk | changedWorld | storedWithPlayer => false

/-- Who owns a live entity. -/
inductive EntityOwnership where
  | managerOwned
  | external
  deriving DecidableEq

structure EntityRelationshipState where
  vehicle : Option EntityId
  passengers : List EntityId
  boardingCooldown : ℤ

/-- The lifecycle of an entity. The token of a pending world change is left out. -/
structure EntityLifecycleState where
  removalReason : Option RemovalReason
  pendingWorldChange : Bool

/-- What entities store of one another, and which of them the entity manager knows and ticks. -/
structure EntityWorld where
  isPlayer : EntityId → Bool
  relationships : EntityId → EntityRelationshipState
  lifecycle : EntityId → EntityLifecycleState
  live : EntityId → Option EntityOwnership
  /-- The order of the tick list. -/
  tickList : List EntityId

/-- What the predicates of boarding answer. -/
structure BoardingAnswers where
  couldAcceptPassenger : Bool
  canSerialize : Bool
  canRide : Bool
  canAddPassenger : Bool

namespace EntityWorld

def new (isPlayer : EntityId → Bool) : EntityWorld where
  isPlayer := isPlayer
  relationships _ := ⟨none, [], 0⟩
  lifecycle _ := ⟨none, false⟩
  live _ := none
  tickList := []

def vehicle (world : EntityWorld) (entity : EntityId) : Option EntityId :=
  (world.relationships entity).vehicle

def passengers (world : EntityWorld) (entity : EntityId) : List EntityId :=
  (world.relationships entity).passengers

variable (world : EntityWorld) (entity : EntityId)

def isRemoved : Bool :=
  (world.lifecycle entity).removalReason.isSome

def isWorldChangePending : Bool :=
  (world.lifecycle entity).pendingWorldChange

def setVehicle (vehicle : Option EntityId) : EntityWorld :=
  { world with
    relationships := update world.relationships entity
      { world.relationships entity with vehicle := vehicle } }

def setPassengers (passengers : List EntityId) : EntityWorld :=
  { world with
    relationships := update world.relationships entity
      { world.relationships entity with passengers := passengers } }

def setBoardingCooldown (cooldown : ℤ) : EntityWorld :=
  { world with
    relationships := update world.relationships entity
      { world.relationships entity with boardingCooldown := cooldown } }

def setLifecycle (lifecycle : EntityLifecycleState) : EntityWorld :=
  { world with lifecycle := update world.lifecycle entity lifecycle }

def removePassengerId (vehicle passenger : EntityId) : EntityWorld :=
  world.setPassengers vehicle ((world.passengers vehicle).filter (· ≠ passenger))

def stopRidingRelationship (passenger : EntityId) : EntityWorld :=
  let vehicle := world.vehicle passenger
  let world := world.setVehicle passenger none
  match vehicle with
  | none => world
  | some vehicle => (world.removePassengerId vehicle passenger).setBoardingCooldown passenger 60

/-- A player goes to the front unless a player is there already. -/
def addPassengerRelationship (vehicle passenger : EntityId) : EntityWorld :=
  if passenger ∈ world.passengers vehicle then world
  else
    let world := world.setVehicle passenger (some vehicle)
    let firstPassengerIsPlayer := (world.passengers vehicle).head?.any world.isPlayer
    if world.isPlayer passenger && !firstPassengerIsPlayer then
      world.setPassengers vehicle (passenger :: world.passengers vehicle)
    else world.setPassengers vehicle (world.passengers vehicle ++ [passenger])

def restorePassengerRelationship (vehicle passenger : EntityId) : EntityWorld :=
  (world.stopRidingRelationship passenger).addPassengerRelationship vehicle passenger

def startRidingRelationship (vehicle passenger : EntityId) : EntityWorld :=
  (world.stopRidingRelationship passenger).addPassengerRelationship vehicle passenger

def idFuel : ℕ := 2 ^ 32 + 1

def vehicleChainHas (world : EntityWorld) (entity : EntityId) : ℕ → Option EntityId → Option Bool
  | 0, _ => none
  | _ + 1, none => some false
  | fuel + 1, some vehicle =>
    if vehicle = entity then some true
    else world.vehicleChainHas entity fuel (world.vehicle vehicle)

/-- `start_riding_entities`: nothing comes back if the walk along the vehicles does not end. -/
def startRidingEntities (passenger entityToRide : EntityId)
    (answers : BoardingAnswers) : Option (EntityWorld × Bool) :=
  if !answers.couldAcceptPassenger then some (world, false)
  else if !answers.canSerialize then some (world, false)
  else if entityToRide = passenger then some (world, false)
  else do
    if ← world.vehicleChainHas passenger idFuel (world.vehicle entityToRide) then
      return (world, false)
    if !answers.canRide || !answers.canAddPassenger then
      return (world, false)
    let world :=
      if (world.vehicle passenger).isSome then world.stopRidingRelationship passenger else world
    return (world.startRidingRelationship entityToRide passenger, true)

/-- `clear_vehicle_if`: the second look finds what the first one found, as refreshing the position
in between leaves the relationships alone. -/
def clearVehicleIf (passenger vehicle : EntityId) : EntityWorld × Bool :=
  match world.vehicle passenger with
  | none => (world, false)
  | some current =>
    if current ≠ vehicle then (world, false) else (world.setVehicle passenger none, true)

def ejectPassenger (vehicle : EntityId) (world : EntityWorld) (passenger : EntityId) :
    EntityWorld :=
  let (world, cleared) := world.clearVehicleIf passenger vehicle
  if cleared then world.setBoardingCooldown passenger 60 else world

def ejectPassengerRelationships : EntityWorld :=
  let passengers := world.passengers entity
  let world := world.setPassengers entity []
  passengers.foldl (ejectPassenger entity) world

def detachFromRelationships (reason : RemovalReason) : EntityWorld :=
  let world := if reason.shouldDestroy then world.stopRidingRelationship entity else world
  world.ejectPassengerRelationships entity

def removeLiveEntity : EntityWorld :=
  { world with
    live := update world.live entity none
    tickList := world.tickList.filter (· ≠ entity) }

/-- The callback of an entity of the manager takes it out of the manager. The callbacks of players
and of entities that are not live do nothing. -/
def onRemove : EntityWorld :=
  if world.live entity = some .managerOwned then world.removeLiveEntity entity else world

def setRemoved (reason : RemovalReason) : EntityWorld :=
  if world.isRemoved entity then world
  else
    let world := world.setLifecycle entity ⟨some reason, false⟩
    (world.detachFromRelationships entity reason).onRemove entity

def clearRemoved : EntityWorld :=
  world.setLifecycle entity ⟨none, false⟩

def setWorldChangePending (pending : Bool) : EntityWorld :=
  world.setLifecycle entity { world.lifecycle entity with pendingWorldChange := pending }

def addLiveEntity (ownership : EntityOwnership) : EntityWorld :=
  if world.isRemoved entity then world
  else { world with live := update world.live entity (some ownership) }

/-- `EntityTickList::add`, which is called for live entities. -/
def startTicking : EntityWorld :=
  if (world.live entity).isSome && entity ∉ world.tickList then
    { world with tickList := world.tickList ++ [entity] }
  else world

/-- `EntityTickList::remove`. -/
def stopTicking : EntityWorld :=
  { world with tickList := world.tickList.filter (· ≠ entity) }

end EntityWorld

inductive EntityAction where
  | startRiding (passenger entityToRide : EntityId) (answers : BoardingAnswers)
  | stopRiding (passenger : EntityId)
  | restorePassenger (vehicle passenger : EntityId)
  | setRemoved (entity : EntityId) (reason : RemovalReason)
  | clearRemoved (entity : EntityId)
  | setWorldChangePending (entity : EntityId) (pending : Bool)
  | addLiveEntity (entity : EntityId) (ownership : EntityOwnership)
  | removeLiveEntity (entity : EntityId)
  | startTicking (entity : EntityId)
  | stopTicking (entity : EntityId)

def EntityAction.rider : EntityAction → Option EntityId
  | startRiding passenger _ _ | stopRiding passenger | restorePassenger _ passenger =>
    some passenger
  | _ => none

namespace EntityWorld

variable (world : EntityWorld)

def perform : EntityAction → Option EntityWorld
  | .startRiding passenger entityToRide answers =>
    (world.startRidingEntities passenger entityToRide answers).map Prod.fst
  | .stopRiding passenger => some (world.stopRidingRelationship passenger)
  | .restorePassenger vehicle passenger =>
    some (world.restorePassengerRelationship vehicle passenger)
  | .setRemoved entity reason => some (world.setRemoved entity reason)
  | .clearRemoved entity => some (world.clearRemoved entity)
  | .setWorldChangePending entity pending => some (world.setWorldChangePending entity pending)
  | .addLiveEntity entity ownership => some (world.addLiveEntity entity ownership)
  | .removeLiveEntity entity => some (world.removeLiveEntity entity)
  | .startTicking entity => some (world.startTicking entity)
  | .stopTicking entity => some (world.stopTicking entity)

def performAll (actions : List EntityAction) : Option EntityWorld :=
  actions.foldlM perform world

/-- Every action of the run is allowed in the world it is performed in. -/
def Allows (guard : EntityWorld → EntityAction → Bool) : EntityWorld → List EntityAction → Bool
  | _, [] => true
  | world, action :: actions =>
    guard world action && match world.perform action with
      | none => true
      | some world => Allows guard world actions

/-- An entity is restored onto another one while it has no passengers. -/
def restores : EntityAction → Bool
  | .restorePassenger vehicle passenger =>
    vehicle ≠ passenger && (world.passengers passenger).isEmpty
  | _ => true

/-- The riding state that an action changes is that of the entity. -/
def ownRiding (entity : EntityId) (world : EntityWorld) (action : EntityAction) : Bool :=
  world.restores action && action.rider.all (· = entity)

end EntityWorld

end Steel
