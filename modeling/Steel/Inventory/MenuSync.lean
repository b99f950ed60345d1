import Mathlib.Algebra.Group.Nat.Defs
import Mathlib.Data.Fintype.Basic
import Steel.Lib.Run

/-! # Keeping the client's view of a menu

The server sends what differs from its belief about the client. The client applies the packets, and
shows changes of its own that it reports by hash.
-/

namespace Steel

open List Option

section

inductive PatchEntry (V : Type) where
  | set (value : V)
  | removed
  deriving DecidableEq

def PatchEntry.isSet {V : Type} : Option (PatchEntry V) → Bool
  | some (.set _) => true
  | _ => false

def PatchEntry.isRemoved {V : Type} : Option (PatchEntry V) → Bool
  | some .removed => true
  | _ => false

open PatchEntry (isSet isRemoved)

/-- The registered components with their numbers, and those that items have by themselves. -/
structure ComponentRegistry (C V : Type) where
  id : C → ℤ
  getKeyById : ℤ → Option C
  getKeyById_eq_some : ∀ {i c}, getKeyById i = some c ↔ id c = i
  prototype : ℕ → C → Option V

/-- Item 0 is air. -/
structure PatchedStack (C V : Type) where
  item : ℕ
  count : ℤ
  patch : C → Option (PatchEntry V)

variable {C V H : Type}

namespace PatchedStack

def empty : PatchedStack C V := ⟨0, 0, fun _ => none⟩

def IsEmpty (s : PatchedStack C V) : Prop := s.item = 0 ∨ s.count ≤ 0

instance (s : PatchedStack C V) : Decidable s.IsEmpty :=
  inferInstanceAs (Decidable (s.item = 0 ∨ s.count ≤ 0))

def shownItem (s : PatchedStack C V) : ℕ := if s.IsEmpty then 0 else s.item

def shownCount (s : PatchedStack C V) : ℤ := if s.IsEmpty then 0 else s.count

section Components

variable (registry : ComponentRegistry C V) (a b s : PatchedStack C V)

def getEffectiveValueRaw (key : C) : Option V :=
  match s.patch key with
  | some (.set value) => some value
  | some .removed => none
  | none => registry.prototype s.item key

/-- The keys that `components_equal` collects from one of the stacks. -/
def hasKey (key : C) : Bool :=
  (registry.prototype s.item key).isSome && !isRemoved (s.patch key) ||
    isSet (s.patch key)

def ComponentsEqual : Prop :=
  ∀ key, (a.hasKey registry key || b.hasKey registry key) = true →
    a.getEffectiveValueRaw registry key = b.getEffectiveValueRaw registry key

def IsSameItem : Prop := a.shownItem = b.shownItem

def IsSameItemSameComponents : Prop :=
  a.IsSameItem b ∧ (a.IsEmpty ∧ b.IsEmpty ∨ a.ComponentsEqual registry b)

def Matches : Prop := a.shownCount = b.shownCount ∧ a.IsSameItemSameComponents registry b

section Decidable

variable [Fintype C] [DecidableEq V]

instance : Decidable (a.ComponentsEqual registry b) :=
  inferInstanceAs (Decidable (∀ key, (a.hasKey registry key || b.hasKey registry key) = true →
    a.getEffectiveValueRaw registry key = b.getEffectiveValueRaw registry key))

instance : Decidable (a.IsSameItemSameComponents registry b) :=
  inferInstanceAs (Decidable (a.shownItem = b.shownItem ∧
    (a.IsEmpty ∧ b.IsEmpty ∨ a.ComponentsEqual registry b)))

instance : Decidable (a.Matches registry b) :=
  inferInstanceAs (Decidable (a.shownCount = b.shownCount ∧
    a.IsSameItemSameComponents registry b))

end Decidable

variable {registry a b s}

theorem hasKey_eq (key : C) :
    s.hasKey registry key = (s.getEffectiveValueRaw registry key).isSome := by
  unfold hasKey getEffectiveValueRaw isSet isRemoved
  rcases s.patch key with _ | ⟨value⟩ | _ <;> simp

theorem componentsEqual_iff : a.ComponentsEqual registry b ↔
    ∀ key, a.getEffectiveValueRaw registry key = b.getEffectiveValueRaw registry key := by
  constructor
  · intro h key
    by_cases hkey : (a.hasKey registry key || b.hasKey registry key) = true
    · exact h key hkey
    · rw [hasKey_eq, hasKey_eq, Bool.or_eq_true, not_or, not_isSome_iff_eq_none,
        not_isSome_iff_eq_none] at hkey
      rw [hkey.1, hkey.2]
  · exact fun h key _ => h key

theorem shownItem_eq_zero : s.shownItem = 0 ↔ s.IsEmpty := by
  unfold shownItem
  split_ifs with h
  · exact iff_of_true rfl h
  · exact iff_of_false (fun h0 => h (.inl h0)) h

/-- Stacks match if both are empty, or if the item, the count and all components agree. -/
theorem matches_iff : a.Matches registry b ↔ a.IsEmpty ∧ b.IsEmpty ∨
    (¬ a.IsEmpty ∧ ¬ b.IsEmpty ∧ a.item = b.item ∧ a.count = b.count ∧
      ∀ key, a.getEffectiveValueRaw registry key = b.getEffectiveValueRaw registry key) := by
  rw [← componentsEqual_iff]
  unfold Matches IsSameItemSameComponents IsSameItem
  by_cases ha : a.IsEmpty
  · by_cases hb : b.IsEmpty
    · simp [shownCount, shownItem, ha, hb]
    · have hitem : 0 ≠ b.shownItem := fun h => hb (shownItem_eq_zero.mp h.symm)
      simp [shownItem_eq_zero.mpr ha, ha, hb, hitem]
  · by_cases hb : b.IsEmpty
    · have hitem : a.shownItem ≠ 0 := fun h => ha (shownItem_eq_zero.mp h)
      simp [shownItem_eq_zero.mpr hb, ha, hb, hitem]
    · simp only [shownCount, shownItem, ha, hb, if_false, false_and, false_or, not_false_eq_true,
        true_and]
      exact and_left_comm

theorem Matches.refl (s : PatchedStack C V) : s.Matches registry s := by
  rw [matches_iff]
  by_cases hs : s.IsEmpty
  · exact .inl ⟨hs, hs⟩
  · exact .inr ⟨hs, hs, rfl, rfl, fun _ => rfl⟩

theorem Matches.trans (h : a.Matches registry b) (h' : b.Matches registry s) :
    a.Matches registry s := by
  rw [matches_iff] at h h' ⊢
  rcases h with ⟨ha, hb⟩ | ⟨ha, hb, hitem, hcount, hvalues⟩
  · rcases h' with ⟨-, hs⟩ | ⟨hb', -⟩
    · exact .inl ⟨ha, hs⟩
    · exact absurd hb hb'
  · rcases h' with ⟨hb', -⟩ | ⟨-, hs, hitem', hcount', hvalues'⟩
    · exact absurd hb' hb
    · exact .inr ⟨ha, hs, hitem.trans hitem', hcount.trans hcount',
        fun key => (hvalues key).trans (hvalues' key)⟩

end Components

end PatchedStack

/-- `HashedPatchMap`: hashes of the components that are set, and those that are removed. -/
structure HashedPatchMap (H : Type) where
  addedComponents : List (ℤ × H)
  removedComponents : List ℤ

inductive HashedStack (H : Type) where
  | empty
  | item (itemId : ℕ) (count : ℤ) (components : HashedPatchMap H)

/-- The hash of a component value as the client reports it, and as the server computes it where
it can. Values of a component have different hashes. -/
structure ComponentHashing (C V H : Type) where
  hash : C → V → H
  computeHash : C → V → Option H
  hash_of_computeHash : ∀ {c v h}, computeHash c v = some h → hash c v = h
  hash_injective : ∀ c, Function.Injective (hash c)

inductive RemoteSlot (C V H : Type) where
  | unknown
  | known (stack : PatchedStack C V)
  | hashed (hash : HashedStack H)

section Hashes

variable [Fintype C] [DecidableEq H]
  (registry : ComponentRegistry C V) (hashing : ComponentHashing C V H)

/-- A component that is set must carry the hash of its value. -/
def carriesHash (hashed : HashedPatchMap H) (key : C) : Option (PatchEntry V) → Bool
  | some (.set value) =>
    match hashed.addedComponents.lookup (registry.id key) with
    | none => false
    | some expectedHash => decide (hashing.computeHash key value = some expectedHash)
  | _ => true

/-- `validate_component_hashes`. The client must not report components that are not set. -/
def validateComponentHashes (hashed : HashedPatchMap H)
    (patch : C → Option (PatchEntry V)) : Bool :=
  decide ((Finset.univ.filter fun key => isRemoved (patch key)).image registry.id =
      hashed.removedComponents.toFinset) &&
    decide (∀ key, carriesHash registry hashing hashed key (patch key) = true) &&
    hashed.addedComponents.all fun entry =>
      match registry.getKeyById entry.1 with
      | none => false
      | some key => isSet (patch key)

def hashedStackMatches (hash : HashedStack H) (stack : PatchedStack C V) : Bool :=
  match hash with
  | .empty => decide stack.IsEmpty
  | .item itemId count components =>
    !decide stack.IsEmpty && decide (stack.item = itemId) && decide (stack.count = count) &&
      validateComponentHashes registry hashing components stack.patch

/-- `RemoteSlot::matches`. -/
def RemoteSlot.Matches (remote : RemoteSlot C V H) (stack : PatchedStack C V) : Prop :=
  match remote with
  | .unknown => False
  | .known shown => shown.Matches registry stack
  | .hashed hash => hashedStackMatches registry hashing hash stack = true

instance [DecidableEq V] (remote : RemoteSlot C V H) (stack : PatchedStack C V) :
    Decidable (remote.Matches registry hashing stack) :=
  match remote with
  | .unknown => inferInstanceAs (Decidable False)
  | .known shown => inferInstanceAs (Decidable (shown.Matches registry stack))
  | .hashed hash =>
    inferInstanceAs (Decidable (hashedStackMatches registry hashing hash stack = true))

end Hashes

section Reports

variable (registry : ComponentRegistry C V) (hashing : ComponentHashing C V H)

/-- The hashes of a patch, in whatever order the client lists them. -/
structure HashedPatchMap.IsHashOf (hashed : HashedPatchMap H)
    (patch : C → Option (PatchEntry V)) : Prop where
  added : ∀ key value, patch key = some (.set value) →
    hashed.addedComponents.lookup (registry.id key) = some (hashing.hash key value)
  set_of_added : ∀ entry ∈ hashed.addedComponents,
    ∃ key value, registry.id key = entry.1 ∧ patch key = some (.set value)
  removed : ∀ i, i ∈ hashed.removedComponents ↔
    ∃ key, registry.id key = i ∧ patch key = some .removed

def HashedStack.IsHashOf (hash : HashedStack H) (stack : PatchedStack C V) : Prop :=
  match hash with
  | .empty => stack.IsEmpty
  | .item itemId count components => ¬ stack.IsEmpty ∧ itemId = stack.item ∧ count = stack.count ∧
    components.IsHashOf registry hashing stack.patch

variable {registry hashing}

theorem ComponentRegistry.id_injective (registry : ComponentRegistry C V) :
    Function.Injective registry.id := by
  intro key key' h
  have hkey := registry.getKeyById_eq_some.mpr h
  rw [registry.getKeyById_eq_some.mpr rfl] at hkey
  exact (some_inj.mp hkey).symm

theorem mem_of_lookup_eq_some {entries : List (ℤ × H)} {i : ℤ} {hash : H}
    (h : entries.lookup i = some hash) : (i, hash) ∈ entries := by
  obtain ⟨before, after, rfl, -⟩ := lookup_eq_some_iff.mp h
  exact mem_append_right _ mem_cons_self

variable [Fintype C] [DecidableEq H]

/-- A patch that passes the test against the hashes of another patch is that patch. -/
theorem HashedPatchMap.IsHashOf.eq_of_validate {hashed : HashedPatchMap H}
    {patch patch' : C → Option (PatchEntry V)} (h : hashed.IsHashOf registry hashing patch)
    (hvalid : validateComponentHashes registry hashing hashed patch' = true) : patch = patch' := by
  unfold validateComponentHashes at hvalid
  rw [Bool.and_eq_true, Bool.and_eq_true, decide_eq_true_iff, decide_eq_true_iff] at hvalid
  obtain ⟨⟨hremoved, hcarries⟩, hall⟩ := hvalid
  have hset : ∀ key hash, hashed.addedComponents.lookup (registry.id key) = some hash →
      (∃ value, patch key = some (.set value)) ∧ isSet (patch' key) = true := by
    intro key hash hlookup
    have hmem := mem_of_lookup_eq_some hlookup
    constructor
    · obtain ⟨key', value, hid, hvalue⟩ := h.set_of_added _ hmem
      exact ⟨value, registry.id_injective hid ▸ hvalue⟩
    · have hset := all_eq_true.mp hall _ hmem
      rwa [registry.getKeyById_eq_some.mpr rfl] at hset
  have hgone : ∀ key, patch key = some .removed ↔ isRemoved (patch' key) = true := by
    intro key
    have hmem := Finset.ext_iff.mp hremoved (registry.id key)
    rw [List.mem_toFinset, h.removed, Finset.mem_image] at hmem
    simp only [registry.id_injective.eq_iff, exists_eq_left, exists_eq_right, Finset.mem_filter,
      Finset.mem_univ, true_and] at hmem
    exact hmem.symm
  funext key
  have hcarry := hcarries key
  rcases hpatch : patch key with _ | ⟨value⟩ | _
  · rcases hpatch' : patch' key with _ | ⟨value'⟩ | _
    · rfl
    · rw [hpatch', carriesHash] at hcarry
      split at hcarry
      · cases hcarry
      · rename_i hash hlookup
        obtain ⟨value, hvalue⟩ := (hset key hash hlookup).1
        rw [hpatch] at hvalue
        cases hvalue
    · have hnone := (hgone key).mpr (by rw [hpatch']; rfl)
      rw [hpatch] at hnone
      cases hnone
  · have hlookup := h.added key value hpatch
    have hisSet := (hset key _ hlookup).2
    rcases hpatch' : patch' key with _ | ⟨value'⟩ | _
    · rw [hpatch'] at hisSet
      cases hisSet
    · rw [hpatch', carriesHash, hlookup] at hcarry
      have hhash := hashing.hash_of_computeHash (of_decide_eq_true hcarry)
      rw [hashing.hash_injective key hhash]
    · rw [hpatch'] at hisSet
      cases hisSet
  · have hisRemoved := (hgone key).mp hpatch
    rcases hpatch' : patch' key with _ | ⟨value'⟩ | _
    · rw [hpatch'] at hisRemoved
      cases hisRemoved
    · rw [hpatch'] at hisRemoved
      cases hisRemoved
    · rfl

theorem HashedStack.IsHashOf.matches_of_hashed {hash : HashedStack H}
    {shown stack : PatchedStack C V}
    (h : hash.IsHashOf registry hashing shown)
    (hmatches : hashedStackMatches registry hashing hash stack = true) :
    shown.Matches registry stack := by
  rw [PatchedStack.matches_iff]
  cases hash with
  | empty => exact .inl ⟨h, of_decide_eq_true hmatches⟩
  | item itemId count components =>
    obtain ⟨hshown, rfl, rfl, hpatch⟩ := h
    simp only [hashedStackMatches, Bool.and_eq_true, Bool.not_eq_true', decide_eq_false_iff_not,
      decide_eq_true_iff] at hmatches
    obtain ⟨⟨⟨hstack, hitem⟩, hcount⟩, hvalid⟩ := hmatches
    have heq := hpatch.eq_of_validate hvalid
    refine .inr ⟨hshown, hstack, hitem.symm, hcount.symm, fun key => ?_⟩
    simp only [PatchedStack.getEffectiveValueRaw, heq, hitem]

end Reports

end

variable {C V H : Type} {n m : ℕ}

/-- The packets of a menu. Slots and data slots have numbers of 16 bits. -/
inductive MenuPacket (C V : Type) where
  | containerSetContent (containerId stateId : ℤ) (items : List (PatchedStack C V))
      (carriedItem : PatchedStack C V)
  | containerSetSlot (containerId stateId : ℤ) (slot : Int16) (itemStack : PatchedStack C V)
  | setCursorItem (itemStack : PatchedStack C V)
  | containerSetData (containerId : ℤ) (id value : Int16)

/-- What the client shows of a menu. -/
structure ClientMenu (C V : Type) (n m : ℕ) where
  containerId : ℤ
  stateId : ℤ
  slots : Fin n → PatchedStack C V
  carried : PatchedStack C V
  data : Fin m → Int16

def ClientMenu.receive (client : ClientMenu C V n m) : MenuPacket C V → ClientMenu C V n m
  | .containerSetContent containerId stateId items carriedItem =>
    if containerId = client.containerId then
      { client with
        stateId := stateId
        slots := fun i => items.getD i (client.slots i)
        carried := carriedItem }
    else client
  | .containerSetSlot containerId stateId slot itemStack =>
    if containerId = client.containerId then
      { client with
        stateId := stateId
        slots := fun i => if slot.toInt = i then itemStack else client.slots i }
    else client
  | .setCursorItem itemStack => { client with carried := itemStack }
  | .containerSetData containerId id value =>
    if containerId = client.containerId then
      { client with data := fun i => if id.toInt = i then value else client.data i }
    else client

/-- The part of a menu that keeps the client up to date. Its slots and data slots can be
numbered. -/
structure MenuBehavior (C V H : Type) (n m : ℕ) where
  items : Fin n → PatchedStack C V
  remoteSlots : Fin n → RemoteSlot C V H
  carried : PatchedStack C V
  remoteCarried : RemoteSlot C V H
  containerId : UInt8
  stateId : UInt32
  suppressRemoteUpdates : Bool
  dataSlots : Fin m → Int16
  remoteDataSlots : Fin m → Int16
  slots_le : n ≤ 2 ^ 15
  data_le : m ≤ 2 ^ 15

/-- A menu and its client. Packets arrive in the order in which they are sent. -/
structure MenuSession (C V H : Type) (n m : ℕ) where
  menu : MenuBehavior C V H n m
  client : ClientMenu C V n m

namespace MenuSession

variable (t : MenuSession C V H n m)

def packetId : ℤ := t.menu.containerId.toNat

def sendPacket (packet : MenuPacket C V) : MenuSession C V H n m :=
  { t with client := t.client.receive packet }

def incrementStateId : MenuSession C V H n m :=
  { t with menu := { t.menu with stateId := (t.menu.stateId + 1) &&& 0x7FFF } }

def setRemoteSlot (slot : Fin n) (remote : RemoteSlot C V H) : MenuSession C V H n m :=
  { t with menu := { t.menu with
      remoteSlots := Function.update t.menu.remoteSlots slot remote } }

def setRemoteCarried (remote : RemoteSlot C V H) : MenuSession C V H n m :=
  { t with menu := { t.menu with remoteCarried := remote } }

def setRemoteData (index : Fin m) (value : Int16) : MenuSession C V H n m :=
  { t with menu := { t.menu with
      remoteDataSlots := Function.update t.menu.remoteDataSlots index value } }

/-- A data slot is sent with its value, which the client then has. -/
def sendData (index : Fin m) : MenuSession C V H n m :=
  let current := t.menu.dataSlots index
  let t := t.setRemoteData index current
  t.sendPacket (.containerSetData t.packetId (Int16.ofNat index) current)

/-- The first part of `send_all_data_to_remote`: all slots and the carried stack. -/
def sendContent : MenuSession C V H n m :=
  let items := List.ofFn t.menu.items
  let t := t.incrementStateId
  let t := (List.finRange n).foldl (fun t i => t.setRemoteSlot i (.known (t.menu.items i))) t
  let t := t.setRemoteCarried (.known t.menu.carried)
  t.sendPacket (.containerSetContent t.packetId t.menu.stateId.toNat items t.menu.carried)

def sendAllDataToRemote : MenuSession C V H n m :=
  (List.finRange m).foldl sendData t.sendContent

def synchronizeDataSlotToRemote (index : Fin m) : MenuSession C V H n m :=
  if t.menu.suppressRemoteUpdates then t
  else if t.menu.dataSlots index ≠ t.menu.remoteDataSlots index then t.sendData index
  else t

def synchronizeSlotToRemote (slot : Fin n) (item : PatchedStack C V) : MenuSession C V H n m :=
  if t.menu.suppressRemoteUpdates then t
  else
    let t := t.incrementStateId
    let t := t.sendPacket
      (.containerSetSlot t.packetId t.menu.stateId.toNat (Int16.ofNat slot) item)
    t.setRemoteSlot slot (.known item)

def synchronizeCarriedToRemote : MenuSession C V H n m :=
  if t.menu.suppressRemoteUpdates then t
  else
    let t := t.sendPacket (.setCursorItem t.menu.carried)
    t.setRemoteCarried (.known t.menu.carried)

section Broadcast

variable [Fintype C] [DecidableEq V] [DecidableEq H]
  (registry : ComponentRegistry C V) (hashing : ComponentHashing C V H)

def noticeSlot (index : Fin n) : MenuSession C V H n m :=
  match t.menu.remoteSlots index with
  | .hashed _ => t.setRemoteSlot index (.known (t.menu.items index))
  | _ => t

/-- The first loop of `broadcast_changes`: the slots that differ from the belief. -/
def collectChanged : List (Fin n) → MenuSession C V H n m →
    MenuSession C V H n m × List (Fin n × PatchedStack C V)
  | [], t => (t, [])
  | index :: rest, t =>
    if (t.menu.remoteSlots index).Matches registry hashing (t.menu.items index) then
      collectChanged rest (t.noticeSlot index)
    else
      let (t', changed) := collectChanged rest t
      (t', (index, t.menu.items index) :: changed)

def broadcastCarried : MenuSession C V H n m :=
  if t.menu.remoteCarried.Matches registry hashing t.menu.carried then
    match t.menu.remoteCarried with
    | .hashed _ => t.setRemoteCarried (.known t.menu.carried)
    | _ => t
  else t.synchronizeCarriedToRemote

def broadcastChanges : MenuSession C V H n m :=
  let (t, changed) := collectChanged registry hashing (List.finRange n) t
  let t := changed.foldl (fun t entry => t.synchronizeSlotToRemote entry.1 entry.2) t
  let t := t.broadcastCarried registry hashing
  (List.finRange m).foldl synchronizeDataSlotToRemote t

end Broadcast

end MenuSession

end Steel
