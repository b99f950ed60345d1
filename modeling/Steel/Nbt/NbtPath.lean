import Mathlib.Order.Lattice.Nat
import Steel.Nbt.NbtTag

/-! # Setting values through NBT paths

A path is a sequence of nodes that select parts of a value. Setting a value descends through all
nodes but the last one and creates what is missing; the last node is set in every part that has
been reached.
-/

namespace Steel

open NbtCompound

/-- What the bits of a floating-point number stand for. -/
inductive FloatValue where
  | nan
  | infinite (negative : Bool)
  | finite (significand exponent : ℤ)

namespace FloatValue

def ofBits (fractionBits exponentBits bits : ℕ) : FloatValue :=
  let fraction := bits % 2 ^ fractionBits
  let exponent := bits / 2 ^ fractionBits % 2 ^ exponentBits
  let negative := bits / 2 ^ (fractionBits + exponentBits) % 2 = 1
  if exponent = 2 ^ exponentBits - 1 then
    if fraction ≠ 0 then .nan else .infinite negative
  else
    let significand := if exponent = 0 then fraction else 2 ^ fractionBits + fraction
    let bias := 2 ^ (exponentBits - 1) - 1
    .finite (if negative then -(significand : ℤ) else significand)
      ((max exponent 1 : ℕ) - (bias : ℕ) - (fractionBits : ℤ))

/-- The conversion to a signed integer, which rounds by the given division and saturates. -/
def toInt (divide : ℤ → ℤ → ℤ) (width : ℕ) : FloatValue → ℤ
  | nan => 0
  | infinite negative => if negative then -2 ^ (width - 1) else 2 ^ (width - 1) - 1
  | finite significand exponent =>
    let value :=
      if 0 ≤ exponent then significand * 2 ^ exponent.toNat
      else divide significand (2 ^ (-exponent).toNat)
    max (-2 ^ (width - 1)) (min (2 ^ (width - 1) - 1) value)

end FloatValue

namespace NbtTag

def byteValue : NbtTag → Option Int8
  | .byte value => some value
  | .short value => some value.toInt8
  | .int value => some value.toInt8
  | .long value => some value.toInt8
  | .float bits => some (.ofInt ((FloatValue.ofBits 23 8 bits.toNat).toInt Int.fdiv 32))
  | .double bits => some (.ofInt ((FloatValue.ofBits 52 11 bits.toNat).toInt Int.fdiv 32))
  | _ => none

def intValue : NbtTag → Option Int32
  | .byte value => some value.toInt32
  | .short value => some value.toInt32
  | .int value => some value
  | .long value => some value.toInt32
  | .float bits => some (.ofInt ((FloatValue.ofBits 23 8 bits.toNat).toInt Int.fdiv 32))
  | .double bits => some (.ofInt ((FloatValue.ofBits 52 11 bits.toNat).toInt Int.fdiv 32))
  | _ => none

/-- A `float` is truncated here and a `double` is rounded down. -/
def longValue : NbtTag → Option Int64
  | .byte value => some value.toInt64
  | .short value => some value.toInt64
  | .int value => some value.toInt64
  | .long value => some value
  | .float bits => some (.ofInt ((FloatValue.ofBits 23 8 bits.toNat).toInt Int.tdiv 64))
  | .double bits => some (.ofInt ((FloatValue.ofBits 52 11 bits.toNat).toInt Int.fdiv 64))
  | _ => none

def collectionLen : NbtTag → Option ℕ
  | .list _ values => some values.length
  | .byteArray values => some values.length
  | .intArray values => some values.length
  | .longArray values => some values.length
  | _ => none

def collectionElements : NbtTag → Option (List NbtTag)
  | .list _ values => some (listValues values)
  | .byteArray values => some (values.map fun value => .byte value.toInt8)
  | .intArray values => some (values.map .int)
  | .longArray values => some (values.map .long)
  | _ => none

variable (parent : NbtTag)

def replaceCollection (elements : List NbtTag) : NbtTag :=
  match parent with
  | .list _ _ => listOf elements
  | .byteArray values =>
    .byteArray
      ((elements.mapM fun element : NbtTag => element.byteValue.map (·.toUInt8)).getD values)
  | .intArray values => .intArray ((elements.mapM intValue).getD values)
  | .longArray values => .longArray ((elements.mapM longValue).getD values)
  | parent => parent

def replaceCollectionWithRepeated (len : ℕ) (value : NbtTag) : Option NbtTag :=
  match parent with
  | .list _ _ => some (listOf (.replicate len value))
  | .byteArray _ => value.byteValue.map fun value => .byteArray (.replicate len value.toUInt8)
  | .intArray _ => value.intValue.map fun value => .intArray (.replicate len value)
  | .longArray _ => value.longValue.map fun value => .longArray (.replicate len value)
  | _ => none

def clearCollection : NbtTag → NbtTag
  | .list kind _ => .list kind []
  | .byteArray _ => .byteArray []
  | .intArray _ => .intArray []
  | .longArray _ => .longArray []
  | parent => parent

/-- Adds an element at the end, unless an array cannot take it. -/
def addCollectionElement (parent value : NbtTag) : NbtTag :=
  match parent with
  | .list _ values => listOf (listValues values ++ [value])
  | .byteArray values =>
    .byteArray (values ++ (value.byteValue.map (·.toUInt8)).toList)
  | .intArray values => .intArray (values ++ value.intValue.toList)
  | .longArray values => .longArray (values ++ value.longValue.toList)
  | parent => parent

def setCollectionElement (index : ℕ) (value : NbtTag) : Option NbtTag :=
  match parent with
  | .list _ values =>
    if index < values.length then some (listOf ((listValues values).set index value)) else none
  | .byteArray values => do
    let value ← value.byteValue
    if index < values.length then some (.byteArray (values.set index value.toUInt8)) else none
  | .intArray values => do
    let value ← value.intValue
    if index < values.length then some (.intArray (values.set index value)) else none
  | .longArray values => do
    let value ← value.longValue
    if index < values.length then some (.longArray (values.set index value)) else none
  | _ => none

def actualCollectionIndex (len : ℕ) (index : Int32) : Option ℕ :=
  let actualIndex := if index < 0 then len + index.toInt else index.toInt
  if 0 ≤ actualIndex ∧ actualIndex < len then some actualIndex.toNat else none

/-- Whether values are nested deeper than the format allows. -/
def isTooDeep (tag : NbtTag) (depth : ℕ) : Bool :=
  depth ≥ 512 ||
    match tag with
    | .compound entries => entries.attach.any fun entry => isTooDeep entry.1.2 (depth + 1)
    | .list _ values => (listValues values).attach.any fun value => isTooDeep value.1 (depth + 1)
    | _ => false
termination_by sizeOf tag
decreasing_by
  · exact sizeOf_entries entry.2
  · exact sizeOf_listValues value.2

end NbtTag

inductive NbtPathNode where
  | compoundChild (name : List Char)
  | matchObject (name : List Char) (pattern : NbtCompound)
  | matchRootObject (pattern : NbtCompound)
  | allElements
  | indexedElement (index : Int32)
  | matchElement (pattern : NbtCompound)

inductive NbtPathMutationError where
  | nothingFound (path : List Char)
  | tooDeep
  deriving DecidableEq

def compoundPatternMatches (pattern : NbtCompound) (tag : NbtTag) : Bool :=
  (NbtTag.compound pattern).matchesPartially tag

/-- What is done with a selected part: whether something has been found below it, the part
afterwards, and the state of the visitor. -/
abbrev NbtVisitor (σ : Type) := σ → NbtTag → Except NbtPathMutationError (Bool × NbtTag × σ)

variable {σ : Type}

/-- Visits the selected elements: whether something has been found, and whether an element has
changed. -/
def visitElements (selected : NbtTag → Bool) (visitor : NbtVisitor σ) : σ → List NbtTag →
    Except NbtPathMutationError (Bool × Bool × List NbtTag × σ)
  | state, [] => pure (false, false, [], state)
  | state, element :: elements =>
    if selected element then do
      let (found, after, state) ← visitor state element
      let (foundLater, changedLater, elements, state) ←
        visitElements selected visitor state elements
      pure (found || foundLater, !after.same element || changedLater, after :: elements, state)
    else do
      let (found, changed, elements, state) ← visitElements selected visitor state elements
      pure (found, changed, element :: elements, state)

def ensureCompoundChild (compound : NbtCompound) (name : List Char) (child : NbtTag) :
    NbtCompound :=
  if compound.contains name then compound else compound.insert name child

def ensureNonEmptyCollection (parent child : NbtTag) : NbtTag :=
  if parent.collectionLen = some 0 then parent.addCollectionElement child else parent

def ensureMatchingListElement (kind : NbtKind) (values : List NbtTag) (pattern : NbtCompound) :
    NbtTag :=
  if (NbtTag.listValues values).any (compoundPatternMatches pattern) then .list kind values
  else .listOf (NbtTag.listValues values ++ [.compound pattern])

def visitAllCollectionElements (parent child : NbtTag) (visitor : NbtVisitor σ) (state : σ) :
    Except NbtPathMutationError (Bool × NbtTag × σ) := do
  let parent := ensureNonEmptyCollection parent child
  match parent.collectionElements with
  | none => pure (false, parent, state)
  | some elements =>
    if elements.isEmpty then pure (false, parent, state)
    else do
      let (found, changed, elements, state) ← visitElements (fun _ => true) visitor state elements
      pure (found, if changed then parent.replaceCollection elements else parent, state)

def visitIndexedCollectionElement (parent : NbtTag) (index : Int32) (visitor : NbtVisitor σ)
    (state : σ) : Except NbtPathMutationError (Bool × NbtTag × σ) :=
  match parent.collectionElements with
  | none => pure (false, parent, state)
  | some elements =>
    match NbtTag.actualCollectionIndex elements.length index with
    | none => pure (false, parent, state)
    | some actualIndex =>
      match elements[actualIndex]? with
      | none => pure (false, parent, state)
      | some before => do
        let (found, after, state) ← visitor state before
        pure (found, if !after.same before then
          parent.replaceCollection (elements.set actualIndex after) else parent, state)

def visitMatchingListElements (parent : NbtTag) (pattern : NbtCompound) (visitor : NbtVisitor σ)
    (state : σ) : Except NbtPathMutationError (Bool × NbtTag × σ) :=
  match parent with
  | .list kind values => do
    let parent := ensureMatchingListElement kind values pattern
    let (found, changed, elements, state) ←
      visitElements (compoundPatternMatches pattern) visitor state
        (parent.collectionElements.getD [])
    pure (found, if changed then .listOf elements else parent, state)
  | parent => pure (false, parent, state)

namespace NbtPathNode

/-- Visits the parts that a node selects, and creates one where it can. -/
def getOrCreateTag (node : NbtPathNode) (parent child : NbtTag) (visitor : NbtVisitor σ)
    (state : σ) : Except NbtPathMutationError (Bool × NbtTag × σ) :=
  match node with
  | compoundChild name =>
    match parent with
    | .compound compound =>
      let compound := ensureCompoundChild compound name child
      match get compound name with
      | none => pure (false, .compound compound, state)
      | some tag => do
        let (found, tag, state) ← visitor state tag
        pure (found, .compound (set compound name tag), state)
    | parent => pure (false, parent, state)
  | matchObject name pattern =>
    match parent with
    | .compound compound =>
      let compound := ensureCompoundChild compound name (.compound pattern)
      match get compound name with
      | none => pure (false, .compound compound, state)
      | some tag =>
        if compoundPatternMatches pattern tag then do
          let (found, tag, state) ← visitor state tag
          pure (found, .compound (set compound name tag), state)
        else pure (false, .compound compound, state)
    | parent => pure (false, parent, state)
  | matchRootObject pattern =>
    if compoundPatternMatches pattern parent then visitor state parent
    else pure (false, parent, state)
  | allElements => visitAllCollectionElements parent child visitor state
  | indexedElement index => visitIndexedCollectionElement parent index visitor state
  | matchElement pattern => visitMatchingListElements parent pattern visitor state

def createPreferredParentTag : NbtPathNode → NbtTag
  | compoundChild _ => .compound []
  | matchObject _ _ => .compound []
  | matchRootObject _ => .compound []
  | allElements => .list .empty []
  | indexedElement _ => .list .empty []
  | matchElement _ => .list .empty []

def setCompoundChild (parent : NbtTag) (name : List Char) (value : NbtTag) : ℕ × NbtTag :=
  match parent with
  | .compound compound =>
    match get compound name with
    | some current =>
      if current.same value then (0, parent)
      else (1, .compound (set compound name value))
    | none => (1, .compound (insert compound name value))
  | parent => (0, parent)

def setMatchingCompoundChild (parent : NbtTag) (name : List Char) (pattern : NbtCompound)
    (value : NbtTag) : ℕ × NbtTag :=
  match parent with
  | .compound compound =>
    match get compound name with
    | some current =>
      if !compoundPatternMatches pattern current || current.same value then (0, parent)
      else (1, .compound (set compound name value))
    | none => (0, parent)
  | parent => (0, parent)

def setAllCollectionElements (parent value : NbtTag) : ℕ × NbtTag :=
  match parent.collectionElements with
  | none => (0, parent)
  | some [] => (1, parent.addCollectionElement value)
  | some elements =>
    let changedCount := elements.countP fun element => !element.same value
    if changedCount = 0 then (0, parent)
    else
      match parent.replaceCollectionWithRepeated elements.length value with
      | some parent => (changedCount, parent)
      | none => (0, parent.clearCollection)

def setIndexedCollectionElement (parent : NbtTag) (index : Int32) (value : NbtTag) : ℕ × NbtTag :=
  match parent.collectionElements with
  | none => (0, parent)
  | some elements =>
    match NbtTag.actualCollectionIndex elements.length index with
    | none => (0, parent)
    | some actualIndex =>
      if elements[actualIndex]?.any fun current => current.same value then (0, parent)
      else
        match parent.setCollectionElement actualIndex value with
        | some parent => (1, parent)
        | none => (0, parent)

def setMatchingListElements (parent : NbtTag) (pattern : NbtCompound) (value : NbtTag) :
    ℕ × NbtTag :=
  match parent with
  | .list _ values =>
    let elements := NbtTag.listValues values
    if elements.isEmpty then (1, parent.addCollectionElement value)
    else
      let isChanged := fun element : NbtTag =>
        compoundPatternMatches pattern element && !element.same value
      let changed := elements.countP isChanged
      (changed,
        if changed > 0 then
          .listOf (elements.map fun element => if isChanged element then value else element)
        else parent)
  | parent => (0, parent)

/-- Sets what the node selects, and counts what has changed. -/
def setTag (node : NbtPathNode) (parent value : NbtTag) : ℕ × NbtTag :=
  match node with
  | compoundChild name => setCompoundChild parent name value
  | matchObject name pattern => setMatchingCompoundChild parent name pattern value
  | matchRootObject _ => (0, parent)
  | allElements => setAllCollectionElements parent value
  | indexedElement index => setIndexedCollectionElement parent index value
  | matchElement pattern => setMatchingListElements parent pattern value

end NbtPathNode

/-- A node, and how much of the text of the path it ends. -/
structure NbtPathNodeEntry where
  node : NbtPathNode
  originalEnd : ℕ

/-- A parsed path. Every node takes some of its text, and no name is empty (`read_object_node`). -/
structure NbtPath where
  original : List Char
  nodes : List NbtPathNodeEntry
  ends : (nodes.map (·.originalEnd)).Pairwise (· < ·)
  ends_le : ∀ entry ∈ nodes, entry.originalEnd ≤ original.length
  named : ∀ entry ∈ nodes, entry.node ≠ .compoundChild []

structure SetOutcome where
  found : Bool
  modified : ℕ

/-- Sets the value below a part that has been reached, depth first. The mutation of the part is
lost when there is an error. -/
def NbtPath.setAt (original : List Char) (value : NbtTag) : List NbtPathNodeEntry → NbtTag →
    Except NbtPathMutationError (SetOutcome × NbtTag)
  | [], tag => pure (⟨true, 0⟩, tag)
  | [last], tag =>
    let (modified, tag) := last.node.setTag tag value
    pure (⟨true, modified⟩, tag)
  | entry :: next :: rest, tag => do
    let preferredChild := next.node.createPreferredParentTag
    let (found, tag, modified, deeperFound) ←
      entry.node.getOrCreateTag tag preferredChild
        (fun (modified, deeperFound) child => do
          let (outcome, child) ← setAt original value (next :: rest) child
          pure (outcome.found, child, modified + outcome.modified, deeperFound || outcome.found))
        (0, false)
    if !found then throw (.nothingFound (original.take entry.originalEnd))
    pure (⟨deeperFound, modified⟩, tag)

/-- Sets every tag that the path selects: the number of changed tags, and the tag afterwards. -/
def NbtPath.set (path : NbtPath) (tag value : NbtTag) : Except NbtPathMutationError (ℕ × NbtTag) :=
  if value.isTooDeep path.nodes.length then throw .tooDeep
  else
    match path.nodes with
    | [] => pure (0, tag)
    | [last] => pure (last.node.setTag tag value)
    | nodes => do
      let (outcome, tag) ← NbtPath.setAt path.original value nodes tag
      pure (outcome.modified, tag)

end Steel
