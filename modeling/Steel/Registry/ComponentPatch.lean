import Mathlib.Data.List.FinRange
import Mathlib.Data.List.NodupEquivFin
import Steel.Lib.Fallible
import Steel.Lib.HashMap
import Steel.Utils.Identifier
import Steel.Utils.VarInt

/-! # Component patches

A stack has the components of its item, its prototype, overridden by a patch.
-/

namespace Steel

namespace DataComponents

variable {V : Type}

inductive ComponentPatchEntry (V : Type) where
  | set (data : V)
  | removed

namespace ComponentPatchEntry

def beq [BEq V] : ComponentPatchEntry V → ComponentPatchEntry V → Bool
  | removed, removed => true
  | set a, set b => a == b
  | _, _ => false

instance [BEq V] : BEq (ComponentPatchEntry V) := ⟨beq⟩

end ComponentPatchEntry

abbrev DataComponentMap (V : Type) := HashMap Identifier V

abbrev DataComponentPatch (V : Type) := HashMap Identifier (ComponentPatchEntry V)

namespace DataComponentPatch

variable (patch : DataComponentPatch V)

def isRemoved (key : Identifier) : Bool :=
  match patch.lookup key with
  | some .removed => true
  | _ => false

def isSet (key : Identifier) : Bool :=
  match patch.lookup key with
  | some (.set _) => true
  | _ => false

/-- The condition of `sanitize_against` for an entry to be retained. -/
def retains [BEq V] (prototype : DataComponentMap V) (key : Identifier) :
    ComponentPatchEntry V → Bool
  | .set value => prototype.lookup key != some value
  | .removed => (prototype.lookup key).isSome

def sanitizeAgainst [BEq V] (patch : DataComponentPatch V) (prototype : DataComponentMap V) :
    DataComponentPatch V :=
  ⟨patch.entries.filter fun entry => retains prototype entry.1 entry.2,
    patch.nodupKeys.sublist List.filter_sublist⟩

def Same [BEq V] (patch patch' : DataComponentPatch V) : Prop :=
  ∀ key, (patch.lookup key == patch'.lookup key) = true

end DataComponentPatch

structure Item (V : Type) where
  key : Identifier
  components : DataComponentMap V

/-- A component type with its network codec. -/
structure ComponentEntry (V : Type) where
  key : Identifier
  writeNetwork : V → Option (List UInt8)
  readNetwork : List UInt8 → Option (V × List UInt8)

/-- The entries of a registry by their ids. A later entry takes the key of an earlier one. -/
structure RegistryOf (α : Type) where
  size : ℕ
  entry : Fin size → α
  size_le : size ≤ 2 ^ 31

namespace RegistryOf

variable {α : Type} (registry : RegistryOf α)

def byId (id : ℕ) : Option (Fin registry.size) :=
  if h : id < registry.size then some ⟨id, h⟩ else none

def byKey (key : α → Identifier) (name : Identifier) : Option (Fin registry.size) :=
  (List.finRange registry.size).reverse.find? fun id => key (registry.entry id) = name

theorem key_of_byKey {registry : RegistryOf α} {key : α → Identifier} {name : Identifier}
    {id : Fin registry.size} (h : registry.byKey key name = some id) :
    key (registry.entry id) = name :=
  of_decide_eq_true (List.find?_some (p := fun id => decide (key (registry.entry id) = name)) h)

end RegistryOf

/-- The registries that stacks refer to. -/
structure Registries (V : Type) where
  items : RegistryOf (Item V)
  air : Fin items.size
  dataComponents : RegistryOf (ComponentEntry V)

/-- A stack refers to its item by its id. -/
structure ItemStack (registries : Registries V) where
  item : Fin registries.items.size
  count : Int32
  patch : DataComponentPatch V

variable {registries : Registries V}

namespace ItemStack

section Components

variable (stack : ItemStack registries)

def empty : ItemStack registries := ⟨registries.air, 0, ∅⟩

def withCount (item : Fin registries.items.size) (count : Int32) : ItemStack registries :=
  ⟨item, count, ∅⟩

def new (item : Fin registries.items.size) : ItemStack registries := withCount item 1

def itemKey (item : Fin registries.items.size) : Identifier := (registries.items.entry item).key

def prototype : DataComponentMap V := (registries.items.entry stack.item).components

def isEmpty : Bool :=
  decide (itemKey stack.item = itemKey registries.air) || decide (stack.count ≤ 0)

def effectiveItem : Fin registries.items.size :=
  if stack.isEmpty then registries.air else stack.item

def effectiveCount : Int32 := if stack.isEmpty then 0 else stack.count

def getEffectiveValueRaw (key : Identifier) : Option V :=
  match stack.patch.lookup key with
  | some (.set data) => some data
  | some .removed => none
  | none => stack.prototype.lookup key

/-- `ItemStack::get`, with the downcast of the component type. -/
def get {T : Type} (key : Identifier) (downcast : V → Option T) : Option T :=
  (stack.getEffectiveValueRaw key).bind downcast

def hasComponent (key : Identifier) : Bool :=
  match stack.patch.lookup key with
  | some (.set _) => true
  | some .removed => false
  | none => (stack.prototype.lookup key).isSome

/-- The keys that `components_equal` collects from one of the stacks. -/
def visibleKeys : List Identifier :=
  stack.prototype.keys.filter (fun key => !stack.patch.isRemoved key) ++
    stack.patch.keys.filter stack.patch.isSet

end Components

section Operations

variable [BEq V] (stack : ItemStack registries)

def withCountAndPatch (item : Fin registries.items.size) (count : Int32)
    (patch : DataComponentPatch V) : ItemStack registries :=
  ⟨item, count, patch.sanitizeAgainst (registries.items.entry item).components⟩

def set (key : Identifier) (value : V) : ItemStack registries :=
  if stack.prototype.lookup key == some value then { stack with patch := stack.patch.erase key }
  else { stack with patch := stack.patch.insert key (.set value) }

def remove (key : Identifier) : ItemStack registries :=
  if (stack.prototype.lookup key).isSome then
    { stack with patch := stack.patch.insert key .removed }
  else { stack with patch := stack.patch.erase key }

def clear (key : Identifier) : ItemStack registries :=
  { stack with patch := stack.patch.erase key }

def setItem (newItem : Identifier) : ItemStack registries :=
  match registries.items.byKey Item.key newItem with
  | some item => { stack with
      item := item
      patch := stack.patch.sanitizeAgainst (registries.items.entry item).components }
  | none => stack

/-- The part that is split off, and what is left of the stack. -/
def split (amount : Int32) : ItemStack registries × ItemStack registries :=
  let take := min amount stack.count
  ({ stack with count := take }, { stack with count := stack.count - take })

def copyWithCount (count : Int32) : ItemStack registries :=
  if stack.isEmpty then empty else { stack with count := count }

def componentsEqual (a b : ItemStack registries) : Bool :=
  (a.visibleKeys ++ b.visibleKeys).all fun key =>
    match a.getEffectiveValueRaw key, b.getEffectiveValueRaw key with
    | some x, some y => x == y
    | none, none => true
    | _, _ => false

def isSameItem (a b : ItemStack registries) : Bool :=
  decide (itemKey a.effectiveItem = itemKey b.effectiveItem)

def isSameItemSameComponents (a b : ItemStack registries) : Bool :=
  if !isSameItem a b then false
  else if a.isEmpty && b.isEmpty then true
  else componentsEqual a b

/-- `ItemStack::matches` -/
def matchesStack (a b : ItemStack registries) : Bool :=
  decide (a.effectiveCount = b.effectiveCount) && isSameItemSameComponents a b

end Operations

end ItemStack

inductive ComponentError where
  | varInt (error : VarInt.ReadError)
  | negative (name : String) (value : Int32)
  | tooMany (kind : String)
  | unknownComponentKey (key : Identifier)
  | unknownComponentTypeId (id : ℕ)
  | unknownItemId (id : ℕ)
  | codec (key : Identifier)

def readNonNegativeVarint (name : String) (bytes : List UInt8) :
    Except ComponentError (ℕ × List UInt8) :=
  match VarInt.read bytes with
  | .error error => .error (.varInt error)
  | .ok (value, rest) =>
    if value < 0 then .error (.negative name value) else .ok (value.toInt.toNat, rest)

def idOfKey (registries : Registries V) (key : Identifier) :
    Except ComponentError (Fin registries.dataComponents.size) :=
  match registries.dataComponents.byKey ComponentEntry.key key with
  | some id => .ok id
  | none => .error (.unknownComponentKey key)

def entryOfId (registries : Registries V) (id : ℕ) : Except ComponentError (ComponentEntry V) :=
  match registries.dataComponents.byId id with
  | some id => .ok (registries.dataComponents.entry id)
  | none => .error (.unknownComponentTypeId id)

def writeAdded (registries : Registries V) (added : Identifier × V) :
    Except ComponentError (List UInt8) := do
  let id ← idOfKey registries added.1
  match (registries.dataComponents.entry id).writeNetwork added.2 with
  | some bytes => .ok (VarInt.write (Int32.ofNat id) ++ bytes)
  | none => .error (.codec added.1)

def writeRemoved (registries : Registries V) (key : Identifier) :
    Except ComponentError (List UInt8) := do
  let id ← idOfKey registries key
  .ok (VarInt.write (Int32.ofNat id))

namespace DataComponentPatch

def added (iteration : Iteration Identifier) (patch : DataComponentPatch V) :
    List (Identifier × V) :=
  (iteration.keys patch).filterMap fun key =>
    match patch.lookup key with
    | some (.set data) => some (key, data)
    | _ => none

def removed (iteration : Iteration Identifier) (patch : DataComponentPatch V) : List Identifier :=
  (iteration.keys patch).filter patch.isRemoved

def write (registries : Registries V) (iteration : Iteration Identifier)
    (patch : DataComponentPatch V) : Except ComponentError (List UInt8) := do
  let added := patch.added iteration
  let removed := patch.removed iteration
  if 2 ^ 31 ≤ added.length then .error (.tooMany "added")
  else if 2 ^ 31 ≤ removed.length then .error (.tooMany "removed")
  else
    let addedBytes ← added.mapM (writeAdded registries)
    let removedBytes ← removed.mapM (writeRemoved registries)
    .ok (VarInt.write (Int32.ofNat added.length) ++ VarInt.write (Int32.ofNat removed.length) ++
      addedBytes.flatten ++ removedBytes.flatten)

def readAdded (registries : Registries V) : ℕ → DataComponentPatch V → List UInt8 →
      Except ComponentError (DataComponentPatch V × List UInt8)
  | 0, patch, bytes => .ok (patch, bytes)
  | n + 1, patch, bytes => do
    let (id, bytes) ← readNonNegativeVarint "component type id" bytes
    let entry ← entryOfId registries id
    match entry.readNetwork bytes with
    | some (data, bytes) => readAdded registries n (patch.insert entry.key (.set data)) bytes
    | none => .error (.codec entry.key)

def readRemoved (registries : Registries V) : ℕ → DataComponentPatch V → List UInt8 →
      Except ComponentError (DataComponentPatch V × List UInt8)
  | 0, patch, bytes => .ok (patch, bytes)
  | n + 1, patch, bytes => do
    let (id, bytes) ← readNonNegativeVarint "component type id" bytes
    let entry ← entryOfId registries id
    readRemoved registries n (patch.insert entry.key .removed) bytes

def read (registries : Registries V) (bytes : List UInt8) :
    Except ComponentError (DataComponentPatch V × List UInt8) := do
  let (addedCount, bytes) ← readNonNegativeVarint "added component count" bytes
  let (removedCount, bytes) ← readNonNegativeVarint "removed component count" bytes
  let (patch, bytes) ← readAdded registries addedCount ∅ bytes
  readRemoved registries removedCount patch bytes

end DataComponentPatch

namespace ItemStack

def write (iteration : Iteration Identifier) (stack : ItemStack registries) :
    Except ComponentError (List UInt8) :=
  if stack.isEmpty then .ok (VarInt.write 0)
  else do
    let patch ← stack.patch.write registries iteration
    .ok (VarInt.write stack.count ++ VarInt.write (Int32.ofNat stack.item) ++ patch)

def read [BEq V] (registries : Registries V) (bytes : List UInt8) :
    Except ComponentError (ItemStack registries × List UInt8) :=
  match VarInt.read bytes with
  | .error error => .error (.varInt error)
  | .ok (count, bytes) =>
    if count ≤ 0 then .ok (empty, bytes)
    else do
      let (id, bytes) ← readNonNegativeVarint "item id" bytes
      match registries.items.byId id with
      | none => .error (.unknownItemId id)
      | some item =>
        let (patch, bytes) ← DataComponentPatch.read registries bytes
        .ok (withCountAndPatch item count patch, bytes)

end ItemStack

end DataComponents

end Steel
