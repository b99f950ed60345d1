import Mathlib.Algebra.BigOperators.Group.List.Lemmas
import Mathlib.Algebra.Order.BigOperators.GroupWithZero.List
import Mathlib.Data.Nat.Notation
import Mathlib.Logic.Function.Basic
import Steel.Lib.MixedRadix
import Steel.Utils.Identifier

/-! # The registry of blocks

Each block gets a range of state ids. The id of a state and the values of its properties are
translated into each other in numbers of sixteen bits, with a panic where they overflow: a mixed
radix number whose digits are the indices of the values.
-/

namespace Steel

/-- Why a call on the registry panics. -/
inductive BlockPanic where
  | overflow
  | divisionByZero
  | indexOutOfBounds
  | frozen
  | conflictingId
  | invalidStateId
  | propertyNotFound (property : String) (block : Identifier)
  | valueNotFound (value property : String) (block : Identifier)
  | unknownValue
  deriving DecidableEq

section U16

def asU16 (n : ℕ) : ℕ := n % 65536

def addU16 (a b : ℕ) : Except BlockPanic ℕ :=
  if a + b < 65536 then .ok (a + b) else .error .overflow

def subU16 (a b : ℕ) : Except BlockPanic ℕ := if b ≤ a then .ok (a - b) else .error .overflow

def mulU16 (a b : ℕ) : Except BlockPanic ℕ :=
  if a * b < 65536 then .ok (a * b) else .error .overflow

def divU16 (a b : ℕ) : Except BlockPanic ℕ := if b = 0 then .error .divisionByZero else .ok (a / b)

def remU16 (a b : ℕ) : Except BlockPanic ℕ := if b = 0 then .error .divisionByZero else .ok (a % b)

def checkedAddU16 (a b : ℕ) : Option ℕ := if a + b < 65536 then some (a + b) else none

def checkedSubU16 (a b : ℕ) : Option ℕ := if b ≤ a then some (a - b) else none

def productU16 (factors : List ℕ) : Except BlockPanic ℕ := factors.foldlM mulU16 1

def indexed {α : Type*} (l : List α) (i : ℕ) : Except BlockPanic α :=
  match l[i]? with
  | none => .error .indexOutOfBounds
  | some a => .ok a

end U16

structure Property where
  name : String
  valueNames : List String
  deriving DecidableEq

def Property.valueCount (property : Property) : ℕ := property.valueNames.length

def Property.valueNameFromIndex (property : Property) (index : ℕ) : Except BlockPanic String :=
  indexed property.valueNames index

def Property.valueIndex (property : Property) (value : String) : Option ℕ :=
  property.valueNames.findIdx? (· == value)

/-- A property whose values have a type of their own. -/
structure TypedProperty (V : Type) extends Property where
  getValue : String → Option V
  getInternalIndex : V → Except BlockPanic ℕ

/-- The cached id is set when the block is registered. -/
structure Block where
  key : Identifier
  properties : List Property
  id : Option ℕ
  deriving DecidableEq

def Block.stateCount (block : Block) : Except BlockPanic ℕ :=
  productU16 (block.properties.map fun property => asU16 property.valueCount)

def Block.propertyIndex (block : Block) (name : String) : Option ℕ :=
  block.properties.findIdx? (·.name == name)

structure BlockRegistry where
  blocksById : List Block
  blocksByKey : Identifier → Option ℕ
  allowsRegistering : Bool
  stateToBlockLookup : List Block
  stateToBlockId : List ℕ
  blockToBaseState : List ℕ
  nextStateId : ℕ

namespace BlockRegistry

def new : BlockRegistry := ⟨[], fun _ => none, true, [], [], [], 0⟩

variable (registry : BlockRegistry)

def register (block : Block) : Except BlockPanic (BlockRegistry × ℕ) :=
  if !registry.allowsRegistering then .error .frozen
  else
    let id := registry.blocksById.length
    let cached := block.id.getD id
    if cached ≠ id then .error .conflictingId
    else do
      let block := { block with id := some cached }
      let stateCount ← block.stateCount
      let nextStateId ← addU16 registry.nextStateId stateCount
      pure ({ registry with
        blocksById := registry.blocksById ++ [block]
        blocksByKey := Function.update registry.blocksByKey block.key (some id)
        stateToBlockLookup := registry.stateToBlockLookup ++ List.replicate stateCount block
        stateToBlockId := registry.stateToBlockId ++ List.replicate stateCount id
        blockToBaseState := registry.blockToBaseState ++ [registry.nextStateId]
        nextStateId := nextStateId }, id)

def registerAll (blocks : List Block) : Except BlockPanic BlockRegistry :=
  blocks.foldlM (fun registry block => (registry.register block).map Prod.fst) registry

def tryBlockIndex (block : Block) : Option ℕ :=
  let byKey := registry.blocksByKey block.key
  match block.id with
  | none => byKey
  | some id =>
    if registry.blocksById[id]?.any fun registered => registered.key == block.key then some id
    else byKey

def byStateId (stateId : ℕ) : Option Block :=
  registry.stateToBlockLookup[stateId]?

def expectBlock (stateId : ℕ) : Except BlockPanic Block :=
  match registry.byStateId stateId with
  | none => .error .invalidStateId
  | some block => .ok block

/-- The loop of `decode_property_indices` starts with the last property. -/
def decodeLoop : List Property → ℕ → Except BlockPanic (List ℕ × ℕ)
  | [], offset => pure ([], offset)
  | property :: properties, offset => do
    let (indices, offset) ← decodeLoop properties offset
    let count := asU16 property.valueCount
    let index ← remU16 offset count
    let offset ← divU16 offset count
    pure (index :: indices, offset)

def decodePropertyIndices (block : Block) (offset : ℕ) : Except BlockPanic (List ℕ) := do
  let (indices, _) ← decodeLoop block.properties offset
  pure indices

/-- The loop of `encode_property_indices` starts with the last property too. -/
def encodeLoop : List (ℕ × Property) → Except BlockPanic (ℕ × ℕ)
  | [] => pure (0, 1)
  | (index, property) :: rest => do
    let (offset, multiplier) ← encodeLoop rest
    let summand ← mulU16 (asU16 index) multiplier
    let offset ← addU16 offset summand
    let multiplier ← mulU16 multiplier (asU16 property.valueCount)
    pure (offset, multiplier)

def encodePropertyIndices (block : Block) (propertyIndices : List ℕ) : Except BlockPanic ℕ := do
  let (offset, _) ← encodeLoop (propertyIndices.zip block.properties)
  pure offset

def propertyStride (block : Block) (propertyIndex : ℕ) : Except BlockPanic ℕ :=
  productU16 ((block.properties.drop (propertyIndex + 1)).map fun property =>
    asU16 property.valueCount)

def applyPropertyOverrides (block : Block) (propertyIndices : List ℕ)
    (properties : List (String × String)) : Option (List ℕ) :=
  properties.foldlM (fun propertyIndices (name, value) => do
    let propertyIndex ← block.propertyIndex name
    let property ← block.properties[propertyIndex]?
    let valueIndex ← property.valueIndex value
    pure (propertyIndices.set propertyIndex valueIndex)) propertyIndices

def getProperties (id : ℕ) : Except BlockPanic (List (String × String)) := do
  let block ← registry.expectBlock id
  if block.properties.isEmpty then pure []
  else
    let blockId ← indexed registry.stateToBlockId id
    let baseStateId ← indexed registry.blockToBaseState blockId
    let relativeIndex ← subU16 id baseStateId
    let indices ← decodePropertyIndices block relativeIndex
    (indices.zip block.properties).mapM fun (valueIndex, property) => do
      let value ← property.valueNameFromIndex valueIndex
      pure (property.name, value)

def stateIdFromBlockProperties (block : Block)
    (properties : List (String × String)) : Except BlockPanic (Option ℕ) :=
  match registry.tryBlockIndex block with
  | none => pure none
  | some blockId => do
    let baseStateId ← indexed registry.blockToBaseState blockId
    match applyPropertyOverrides block (List.replicate block.properties.length 0) properties with
    | none => pure none
    | some propertyIndices =>
      let offset ← encodePropertyIndices block propertyIndices
      let stateId ← addU16 baseStateId offset
      pure (some stateId)

/-- The relative index after the value at one property has changed. -/
def trySetPropertyByName (id : ℕ) (name value : String) : Except BlockPanic (Option ℕ) :=
  match registry.byStateId id with
  | none => pure none
  | some block =>
    match registry.stateToBlockId[id]? with
    | none => pure none
    | some blockId =>
      match registry.blockToBaseState[blockId]? with
      | none => pure none
      | some baseStateId =>
        match block.propertyIndex name with
        | none => pure none
        | some propertyIndex => do
          let property ← indexed block.properties propertyIndex
          match property.valueIndex value with
          | none => pure none
          | some newValueIndex =>
            match checkedSubU16 id baseStateId with
            | none => pure none
            | some relativeIndex =>
              let stride ← propertyStride block propertyIndex
              let quotient ← divU16 relativeIndex stride
              let oldValueIndex ← remU16 quotient (asU16 property.valueCount)
              let newRelativeIndex ←
                if oldValueIndex ≤ newValueIndex then do
                  let difference ← mulU16 (asU16 (newValueIndex - oldValueIndex)) stride
                  pure (checkedAddU16 relativeIndex difference)
                else do
                  let difference ← mulU16 (asU16 (oldValueIndex - newValueIndex)) stride
                  pure (checkedSubU16 relativeIndex difference)
              match newRelativeIndex with
              | none => pure none
              | some newRelativeIndex =>
                let stateId ← addU16 baseStateId newRelativeIndex
                pure (some stateId)

section Typed

variable {V : Type}

def tryGetProperty (id : ℕ) (property : TypedProperty V) : Except BlockPanic (Option V) := do
  let block ← registry.expectBlock id
  match block.propertyIndex property.name with
  | none => pure none
  | some propertyIndex =>
    let blockId ← indexed registry.stateToBlockId id
    let baseStateId ← indexed registry.blockToBaseState blockId
    let relativeIndex ← subU16 id baseStateId
    let blockProperty ← indexed block.properties propertyIndex
    let stride ← propertyStride block propertyIndex
    let quotient ← divU16 relativeIndex stride
    let valueIndex ← remU16 quotient (asU16 blockProperty.valueCount)
    let blockValue ← blockProperty.valueNameFromIndex valueIndex
    pure (property.getValue blockValue)

def setProperty (id : ℕ) (property : TypedProperty V) (value : V) : Except BlockPanic ℕ := do
  let block ← registry.expectBlock id
  match block.propertyIndex property.name with
  | none => .error (.propertyNotFound property.name block.key)
  | some propertyIndex =>
    let blockId ← indexed registry.stateToBlockId id
    let baseStateId ← indexed registry.blockToBaseState blockId
    let relativeIndex ← subU16 id baseStateId
    let callerValueIndex ← property.getInternalIndex value
    let valueName ← property.valueNameFromIndex callerValueIndex
    let blockProperty ← indexed block.properties propertyIndex
    match blockProperty.valueIndex valueName with
    | none => .error (.valueNotFound valueName property.name block.key)
    | some newValueIndex =>
      let stride ← propertyStride block propertyIndex
      let quotient ← divU16 relativeIndex stride
      let oldValueIndex ← remU16 quotient (asU16 blockProperty.valueCount)
      let newRelativeIndex ←
        if oldValueIndex ≤ newValueIndex then do
          let difference ← mulU16 (asU16 (newValueIndex - oldValueIndex)) stride
          addU16 relativeIndex difference
        else do
          let difference ← mulU16 (asU16 (oldValueIndex - newValueIndex)) stride
          subU16 relativeIndex difference
      addU16 baseStateId newRelativeIndex

end Typed

end BlockRegistry

open MixedRadix List Block Function Nat

def radicesOf (properties : List Property) : List ℕ := properties.map Property.valueCount

theorem productU16_eq {factors : List ℕ} (hpos : ∀ factor ∈ factors, 0 < factor)
    (hlt : factors.prod < 65536) : productU16 factors = .ok factors.prod := by
  have hfold : ∀ (factors : List ℕ) (start : ℕ), (∀ factor ∈ factors, 0 < factor) →
      start * factors.prod < 65536 →
      factors.foldlM mulU16 start = .ok (start * factors.prod) := by
    intro factors
    induction factors with
    | nil =>
      intro start _ _
      rw [prod_nil, mul_one]
      rfl
    | cons factor factors ih =>
      intro start hpos hlt
      have hrest : ∀ f ∈ factors, 0 < f := fun f hf => hpos f (mem_cons_of_mem factor hf)
      rw [prod_cons, ← mul_assoc] at hlt ⊢
      have hstep : start * factor < 65536 :=
        Nat.lt_of_le_of_lt (Nat.le_mul_of_pos_right _ (prod_pos hrest)) hlt
      rw [foldlM_cons, mulU16, if_pos hstep]
      exact ih _ hrest hlt
  rw [productU16, hfold factors 1 hpos (by rwa [one_mul]), one_mul]

section Loops

variable {properties : List Property}

section

variable (hpos : ∀ radix ∈ radicesOf properties, 0 < radix)
  (hlt : (radicesOf properties).prod < 65536)

include hpos hlt

theorem asU16_valueCount {property : Property} (h : property ∈ properties) :
    asU16 property.valueCount = property.valueCount := by
  have hmem : property.valueCount ∈ radicesOf properties := mem_map_of_mem h
  have hle : property.valueCount ≤ (radicesOf properties).prod :=
    le_of_dvd (prod_pos hpos) (dvd_prod hmem)
  exact mod_eq_of_lt (lt_of_le_of_lt hle hlt)

theorem map_asU16 :
    (properties.map fun property => asU16 property.valueCount) = radicesOf properties :=
  map_congr_left fun _ h => asU16_valueCount hpos hlt h

end

theorem prod_tail_lt {property : Property}
    (hpos : ∀ radix ∈ radicesOf (property :: properties), 0 < radix)
    (hlt : (radicesOf (property :: properties)).prod < 65536) :
    0 < property.valueCount ∧ (∀ radix ∈ radicesOf properties, 0 < radix) ∧
      (radicesOf properties).prod < 65536 := by
  have hradix := hpos property.valueCount mem_cons_self
  refine ⟨hradix, fun radix h => hpos radix (mem_cons_of_mem _ h), ?_⟩
  rw [radicesOf, map_cons, prod_cons] at hlt
  exact Nat.lt_of_le_of_lt (Nat.le_mul_of_pos_left _ hradix) hlt

section

variable (hpos : ∀ radix ∈ radicesOf properties, 0 < radix)
  (hlt : (radicesOf properties).prod < 65536)

include hpos hlt

theorem decodeLoop_eq (offset : ℕ) :
    BlockRegistry.decodeLoop properties offset =
      .ok (digits (radicesOf properties) offset, offset / (radicesOf properties).prod) := by
  induction properties with
  | nil =>
    rw [radicesOf, map_nil, prod_nil, Nat.div_one]
    rfl
  | cons property properties ih =>
    have hcount := asU16_valueCount hpos hlt mem_cons_self
    obtain ⟨hradix, hpos', hlt'⟩ := prod_tail_lt hpos hlt
    have hne : property.valueCount ≠ 0 := ne_of_gt hradix
    simp only [BlockRegistry.decodeLoop, ih hpos' hlt', hcount, remU16, divU16, if_neg hne, bind,
      Except.bind, pure, Except.pure]
    rw [Nat.div_div_eq_div_mul, Nat.mul_comm]
    rfl

theorem encodeLoop_eq {indices : List ℕ} (h : List.Forall₂ (· < ·) indices (radicesOf properties)) :
    BlockRegistry.encodeLoop (indices.zip properties) =
      .ok (value (radicesOf properties) indices, (radicesOf properties).prod) := by
  induction properties generalizing indices with
  | nil =>
    obtain rfl := forall₂_nil_right_iff.1 h
    rfl
  | cons property properties ih =>
    cases h with
    | @cons index radix indices radices hindex hrest =>
      have hcount := asU16_valueCount hpos hlt mem_cons_self
      obtain ⟨_, hpos', hlt'⟩ := prod_tail_lt hpos hlt
      have hvalue : value (radicesOf (property :: properties)) (index :: indices) <
          (radicesOf (property :: properties)).prod := value_lt (.cons hindex hrest)
      have hprod : (radicesOf (property :: properties)).prod =
          property.valueCount * (radicesOf properties).prod := prod_cons
      have hsum : value (radicesOf (property :: properties)) (index :: indices) =
          index * (radicesOf properties).prod + value (radicesOf properties) indices := rfl
      have hindex' : asU16 index = index := by
        refine mod_eq_of_lt (hindex.trans ?_)
        rw [← hcount]
        exact mod_lt _ (by decide)
      have hsummand : index * (radicesOf properties).prod < 65536 := by
        omega
      have hoffset : value (radicesOf properties) indices + index * (radicesOf properties).prod <
          65536 := by
        omega
      have hmultiplier : (radicesOf properties).prod * property.valueCount < 65536 := by
        rw [mul_comm]
        exact hprod ▸ hlt
      simp only [zip_cons_cons, BlockRegistry.encodeLoop, ih hpos' hlt' hrest, hcount, hindex',
        mulU16, addU16, if_pos hsummand, if_pos hoffset, if_pos hmultiplier, bind, Except.bind,
        pure, Except.pure]
      rw [hsum, hprod, add_comm, mul_comm property.valueCount]

end

end Loops

/-- Each property has values, no two properties of the block have the same name, and no two values
of a property have. -/
structure Block.WellFormed (block : Block) : Prop where
  count_pos : ∀ property ∈ block.properties, 0 < property.valueCount
  names : (block.properties.map Property.name).Nodup
  values : ∀ property ∈ block.properties, property.valueNames.Nodup

def Block.count (block : Block) : ℕ := (radicesOf block.properties).prod

section

variable {block : Block} (h : block.WellFormed)

include h

theorem Block.WellFormed.radices_pos :
    ∀ radix ∈ radicesOf block.properties, 0 < radix := by
  intro radix hradix
  obtain ⟨property, hproperty, rfl⟩ := mem_map.1 hradix
  exact h.count_pos property hproperty

theorem Block.WellFormed.one_le_count : 0 < block.count :=
  prod_pos h.radices_pos

theorem Block.stateCount_eq (hlt : block.count < 65536) :
    block.stateCount = .ok block.count := by
  rw [stateCount, map_asU16 h.radices_pos hlt]
  exact productU16_eq h.radices_pos hlt

end

namespace BlockRegistry

/-- A state lies in the range of the block with this index. -/
structure Located (registry : BlockRegistry) (stateId i : ℕ) (block : Block) (base : ℕ) : Prop where
  block_eq : registry.blocksById[i]? = some block
  base_eq : registry.blockToBaseState[i]? = some base
  base_le : base ≤ stateId
  lt : stateId < base + block.count

/-- The ranges of the blocks cover the state ids, and the tables lead back to the blocks. -/
structure Layout (registry : BlockRegistry) : Prop where
  open_ : registry.allowsRegistering = true
  length_base : registry.blockToBaseState.length = registry.blocksById.length
  length_lookup : registry.stateToBlockLookup.length = registry.nextStateId
  length_ids : registry.stateToBlockId.length = registry.nextStateId
  next_lt : registry.nextStateId < 65536
  located : ∀ stateId < registry.nextStateId, ∃ i block base, registry.Located stateId i block base
  lookup : ∀ stateId i block base, registry.Located stateId i block base →
    registry.stateToBlockLookup[stateId]? = some block ∧ registry.stateToBlockId[stateId]? = some i
  index : ∀ i block, registry.blocksById[i]? = some block →
    block.id = some i ∧ registry.blocksByKey block.key = some i ∧ block.WellFormed

theorem layout_new : new.Layout where
  open_ := rfl
  length_base := rfl
  length_lookup := rfl
  length_ids := rfl
  next_lt := by decide
  located _ h := absurd h (not_lt_zero _)
  lookup _ _ _ _ h := by cases h.block_eq
  index _ _ h := by cases h

variable {registry : BlockRegistry} {stateId i base : ℕ} {block : Block}

theorem Layout.lt_next (h : registry.Layout) (hlocated : registry.Located stateId i block base) :
    stateId < registry.nextStateId := by
  rw [← h.length_lookup]
  exact (List.getElem?_eq_some_iff.1 (h.lookup _ _ _ _ hlocated).1).1

theorem Layout.located_unique (h : registry.Layout)
    (hlocated : registry.Located stateId i block base) {j base' : ℕ} {block' : Block}
    (hlocated' : registry.Located stateId j block' base') :
    i = j ∧ block = block' ∧ base = base' := by
  have hi := (h.lookup _ _ _ _ hlocated).2
  rw [(h.lookup _ _ _ _ hlocated').2] at hi
  obtain rfl := Option.some.inj hi
  exact ⟨rfl, Option.some.inj (hlocated.block_eq.symm.trans hlocated'.block_eq),
    Option.some.inj (hlocated.base_eq.symm.trans hlocated'.base_eq)⟩

theorem located_append {registry' : BlockRegistry} {block' : Block} {next : ℕ}
    (hlength : registry.blockToBaseState.length = registry.blocksById.length)
    (hblocks : registry'.blocksById = registry.blocksById ++ [block'])
    (hbases : registry'.blockToBaseState = registry.blockToBaseState ++ [next]) :
    registry'.Located stateId i block base ↔ registry.Located stateId i block base ∨
      i = registry.blocksById.length ∧ block = block' ∧ base = next ∧ base ≤ stateId ∧
        stateId < base + block.count := by
  constructor
  · rintro ⟨hblock, hbase, hle, hlt⟩
    rw [hblocks] at hblock
    rw [hbases] at hbase
    rcases lt_trichotomy i registry.blocksById.length with hi | rfl | hi
    · rw [List.getElem?_append_left hi] at hblock
      rw [List.getElem?_append_left (hlength ▸ hi)] at hbase
      exact .inl ⟨hblock, hbase, hle, hlt⟩
    · rw [List.getElem?_concat_length] at hblock
      rw [← hlength, List.getElem?_concat_length] at hbase
      exact .inr ⟨rfl, (Option.some.inj hblock).symm, (Option.some.inj hbase).symm, hle, hlt⟩
    · rw [List.getElem?_eq_none (by
        rw [length_append, length_singleton]
        omega)] at hblock
      cases hblock
  · rintro (⟨hblock, hbase, hle, hlt⟩ | ⟨rfl, rfl, rfl, hle, hlt⟩)
    · refine ⟨?_, ?_, hle, hlt⟩
      · rw [hblocks, List.getElem?_append_left (List.getElem?_eq_some_iff.1 hblock).1, hblock]
      · rw [hbases, List.getElem?_append_left (List.getElem?_eq_some_iff.1 hbase).1, hbase]
    · refine ⟨?_, ?_, hle, hlt⟩
      · rw [hblocks, List.getElem?_concat_length]
      · rw [hbases, ← hlength, List.getElem?_concat_length]

theorem getElem?_append_replicate {α : Type*} {l : List α} {next count : ℕ} {a : α}
    (hlength : l.length = next) (hle : next ≤ stateId) (hlt : stateId < next + count) :
    (l ++ List.replicate count a)[stateId]? = some a := by
  rw [List.getElem?_append_right (hlength ▸ hle), List.getElem?_replicate, if_pos]
  omega

theorem Layout.register (h : registry.Layout) (hblock : block.WellFormed)
    (hid : block.id.getD registry.blocksById.length = registry.blocksById.length)
    (hkey : block.key ∉ registry.blocksById.map key)
    (hlt : registry.nextStateId + block.count < 65536) :
    ∃ registry', registry.register block = .ok (registry', registry.blocksById.length) ∧
      registry'.Layout ∧
      registry'.blocksById =
        registry.blocksById ++ [{ block with id := some registry.blocksById.length }] ∧
      registry'.nextStateId = registry.nextStateId + block.count := by
  let block' : Block := { block with id := some registry.blocksById.length }
  have hblock' : block'.WellFormed := ⟨hblock.count_pos, hblock.names, hblock.values⟩
  have hcount : block'.stateCount = .ok block.count := stateCount_eq hblock' (by
    show block.count < 65536
    omega)
  let registry' : BlockRegistry := { registry with
    blocksById := registry.blocksById ++ [block']
    blocksByKey := update registry.blocksByKey block.key (some registry.blocksById.length)
    allowsRegistering := true
    stateToBlockLookup := registry.stateToBlockLookup ++ List.replicate block.count block'
    stateToBlockId :=
      registry.stateToBlockId ++ List.replicate block.count registry.blocksById.length
    blockToBaseState := registry.blockToBaseState ++ [registry.nextStateId]
    nextStateId := registry.nextStateId + block.count }
  refine ⟨registry', ?_, ?_, rfl, rfl⟩
  · unfold BlockRegistry.register
    simp only [h.open_, Bool.not_true, Bool.false_eq_true, if_false, hid, ne_eq, not_true_eq_false]
    rw [show ({ block with id := some registry.blocksById.length } : Block).stateCount =
      .ok block.count from hcount]
    simp only [bind, Except.bind, addU16, if_pos hlt, pure, Except.pure]
    rfl
  · constructor
    · rfl
    · simp [registry', h.length_base]
    · simp [registry', h.length_lookup]
    · simp [registry', h.length_ids]
    · exact hlt
    · intro stateId hstate
      by_cases hold : stateId < registry.nextStateId
      · obtain ⟨i, b, base, hlocated⟩ := h.located stateId hold
        exact ⟨i, b, base, (located_append h.length_base rfl rfl).2 (.inl hlocated)⟩
      · refine ⟨_, block', _, (located_append h.length_base rfl rfl).2
          (.inr ⟨rfl, rfl, rfl, not_lt.1 hold, hstate⟩)⟩
    · intro stateId i b base hlocated
      rcases (located_append h.length_base rfl rfl).1 hlocated with
        hold | ⟨rfl, rfl, rfl, hle, hstate⟩
      · obtain ⟨hlookup, hids⟩ := h.lookup _ _ _ _ hold
        have hstate := h.lt_next hold
        rw [List.getElem?_append_left (h.length_lookup ▸ hstate),
          List.getElem?_append_left (h.length_ids ▸ hstate)]
        exact ⟨hlookup, hids⟩
      · exact ⟨getElem?_append_replicate h.length_lookup hle hstate,
          getElem?_append_replicate h.length_ids hle hstate⟩
    · intro i b hb
      by_cases hi : i < registry.blocksById.length
      · rw [List.getElem?_append_left hi] at hb
        obtain ⟨hbid, hbkey, hwell⟩ := h.index i b hb
        refine ⟨hbid, ?_, hwell⟩
        have hne : b.key ≠ block.key := fun heq =>
          hkey (heq ▸ mem_map_of_mem (mem_of_getElem? hb))
        exact (update_of_ne hne _ _).trans hbkey
      · have hlast : i = registry.blocksById.length := by
          have hlen := (List.getElem?_eq_some_iff.1 hb).1
          rw [length_append, length_singleton] at hlen
          omega
        subst hlast
        rw [List.getElem?_concat_length] at hb
        obtain rfl := Option.some.inj hb
        exact ⟨rfl, update_self _ _ _, hblock.count_pos, hblock.names, hblock.values⟩

/-- Blocks whose cached ids, if any, are the places where they are registered. -/
def Fresh (blocks : List Block) (start : ℕ) : Prop :=
  ∀ i block, blocks[i]? = some block → block.id.getD (start + i) = start + i

theorem Layout.registerAll (h : registry.Layout) {blocks : List Block}
    (hwell : ∀ block ∈ blocks, block.WellFormed)
    (hfresh : Fresh blocks registry.blocksById.length)
    (hkeys : (registry.blocksById.map key ++ blocks.map key).Nodup)
    (hlt : registry.nextStateId + (blocks.map count).sum < 65536) :
    ∃ registry', registry.registerAll blocks = .ok registry' ∧ registry'.Layout ∧
      registry'.blocksById.map (fun block => (block.key, block.properties)) =
        (registry.blocksById ++ blocks).map (fun block => (block.key, block.properties)) ∧
      registry'.nextStateId = registry.nextStateId + (blocks.map count).sum := by
  induction blocks generalizing registry with
  | nil => exact ⟨registry, rfl, h, by rw [append_nil], rfl⟩
  | cons block blocks ih =>
    rw [map_cons, sum_cons, ← add_assoc] at hlt
    have hkey : block.key ∉ registry.blocksById.map key := fun hmem =>
      (disjoint_of_nodup_append hkeys) hmem mem_cons_self
    obtain ⟨next, hregister, hlayout, hblocks, hnext⟩ := h.register
      (hwell block mem_cons_self) (hfresh 0 block rfl) hkey (by omega)
    have hkeys' : next.blocksById.map key =
        registry.blocksById.map key ++ [block.key] := by
      rw [hblocks, map_append]
      rfl
    obtain ⟨final, hall, hlayout', hblocks', hnext'⟩ := ih hlayout
      (fun b hb => hwell b (mem_cons_of_mem block hb))
      (fun i b hb => by
        have hcached := hfresh (i + 1) b hb
        rw [hblocks, length_append, length_singleton]
        rwa [show registry.blocksById.length + 1 + i = registry.blocksById.length + (i + 1) by
          omega])
      (by rwa [hkeys', append_assoc]) (by rw [hnext]; exact hlt)
    refine ⟨final, ?_, hlayout', ?_, ?_⟩
    · rw [BlockRegistry.registerAll, foldlM_cons, hregister]
      exact hall
    · rw [hblocks', hblocks]
      simp
    · rw [hnext', hnext, map_cons, sum_cons, add_assoc]

end BlockRegistry

end Steel
