import Mathlib.Algebra.Group.Nat.Defs
import Mathlib.Data.List.Basic

/-! # NBT values

Values of the NBT format as they are held in memory. A compound is a list of entries, and a
list has one kind of values: a list with values of several kinds holds each of them in a
compound with one entry under the empty key.
-/

namespace Steel

/-- A string in modified UTF-8: text, or malformed bytes with the text that is shown for them. -/
inductive Mutf8String where
  | text (chars : List Char)
  | malformed (bytes : List UInt8) (shown : List Char)
  deriving DecidableEq

namespace Mutf8String

/-- `to_str` -/
def shownText : Mutf8String → List Char
  | text chars => chars
  | malformed _ shown => shown

end Mutf8String

/-- The kinds of values a list can have, and that of an empty list that never had a value. -/
inductive NbtKind where
  | empty
  | byte
  | short
  | int
  | long
  | float
  | double
  | byteArray
  | string
  | list
  | compound
  | intArray
  | longArray
  deriving DecidableEq

/-- An NBT value. Floating-point numbers are given by their bits. -/
inductive NbtTag where
  | byte (value : Int8)
  | short (value : Int16)
  | int (value : Int32)
  | long (value : Int64)
  | float (bits : UInt32)
  | double (bits : UInt64)
  | byteArray (values : List UInt8)
  | string (value : Mutf8String)
  | list (kind : NbtKind) (values : List NbtTag)
  | compound (entries : List (Mutf8String × NbtTag))
  | intArray (values : List Int32)
  | longArray (values : List Int64)

abbrev NbtCompound := List (Mutf8String × NbtTag)

def NbtTag.kind : NbtTag → NbtKind
  | byte _ => .byte
  | short _ => .short
  | int _ => .int
  | long _ => .long
  | float _ => .float
  | double _ => .double
  | byteArray _ => .byteArray
  | string _ => .string
  | list _ _ => .list
  | compound _ => .compound
  | intArray _ => .intArray
  | longArray _ => .longArray

namespace NbtCompound

variable (compound : NbtCompound)

def get (name : List Char) : Option NbtTag :=
  (compound.find? fun entry => entry.1 = .text name).map Prod.snd

def contains (name : List Char) : Bool :=
  compound.any fun entry => entry.1 = .text name

/-- A new entry comes last, also when there is one with the same key. -/
def insert (name : List Char) (tag : NbtTag) : NbtCompound :=
  compound ++ [(.text name, tag)]

def set : NbtCompound → List Char → NbtTag → NbtCompound
  | [], _, _ => []
  | entry :: entries, name, tag =>
    if entry.1 = .text name then (entry.1, tag) :: entries else entry :: set entries name tag

end NbtCompound

namespace NbtTag

/-- A compound with one entry under the empty key stands for its value in a list. -/
def unwrapListWrapper : NbtTag → NbtTag
  | .compound [(.text [], value)] => value
  | tag => tag

def listValues (values : List NbtTag) : List NbtTag := values.map unwrapListWrapper

/-- A list with the given values, which are wrapped when their kinds differ. -/
def listOf : List NbtTag → NbtTag
  | [] => .list .empty []
  | tag :: tags =>
    if tags.all fun other => other.kind = tag.kind then .list tag.kind (tag :: tags)
    else .list .compound ((tag :: tags).map fun tag => .compound [(.text [], tag)])

end NbtTag

/-- Whether bits of a floating-point number with the given fraction and exponent fields are no
number. -/
def floatIsNan (fractionBits exponentBits bits : ℕ) : Bool :=
  bits / 2 ^ fractionBits % 2 ^ exponentBits = 2 ^ exponentBits - 1 &&
    bits % 2 ^ fractionBits ≠ 0

/-- Equal numbers; the zeros are equal, and no number equals something that is none. -/
def floatEq (fractionBits exponentBits left right : ℕ) : Bool :=
  !floatIsNan fractionBits exponentBits left && !floatIsNan fractionBits exponentBits right &&
    (left = right || (left % 2 ^ (fractionBits + exponentBits) = 0 &&
      right % 2 ^ (fractionBits + exponentBits) = 0))

namespace NbtTag

mutual

def same : NbtTag → NbtTag → Bool
  | .byte left, .byte right => left = right
  | .short left, .short right => left = right
  | .int left, .int right => left = right
  | .long left, .long right => left = right
  | .float left, .float right => floatEq 23 8 left.toNat right.toNat
  | .double left, .double right => floatEq 52 11 left.toNat right.toNat
  | .byteArray left, .byteArray right => left = right
  | .string left, .string right => left = right
  | .list kind left, .list kind' right => kind = kind' && sameAll left right
  | .compound left, .compound right => sameEntries left right
  | .intArray left, .intArray right => left = right
  | .longArray left, .longArray right => left = right
  | _, _ => false

def sameAll : List NbtTag → List NbtTag → Bool
  | [], [] => true
  | left :: lefts, right :: rights => same left right && sameAll lefts rights
  | _, _ => false

def sameEntries : List (Mutf8String × NbtTag) → List (Mutf8String × NbtTag) → Bool
  | [], [] => true
  | (key, left) :: lefts, (key', right) :: rights =>
    key = key' && same left right && sameEntries lefts rights
  | _, _ => false

end

end NbtTag

namespace NbtTag

theorem sizeOf_unwrapListWrapper_le (tag : NbtTag) : sizeOf tag.unwrapListWrapper ≤ sizeOf tag := by
  unfold unwrapListWrapper
  split
  · simp
    omega
  · exact Nat.le_refl _

theorem sizeOf_listValues {tag : NbtTag} {kind : NbtKind} {values : List NbtTag}
    (h : tag ∈ listValues values) : sizeOf tag < sizeOf (NbtTag.list kind values) := by
  obtain ⟨value, hvalue, rfl⟩ := List.mem_map.1 h
  have hmem := List.sizeOf_lt_of_mem hvalue
  have hle := value.sizeOf_unwrapListWrapper_le
  simp
  omega

theorem sizeOf_entries {entry : Mutf8String × NbtTag} {entries : List (Mutf8String × NbtTag)}
    (h : entry ∈ entries) : sizeOf entry.2 < sizeOf (NbtTag.compound entries) := by
  have hmem := List.sizeOf_lt_of_mem h
  obtain ⟨key, value⟩ := entry
  simp at hmem ⊢
  omega

/-- `nbt_tags_equal`: compounds are maps, and lists are sequences of their values. -/
def equal (left right : NbtTag) : Bool :=
  match left, right with
  | .byte left, .byte right => left = right
  | .short left, .short right => left = right
  | .int left, .int right => left = right
  | .long left, .long right => left = right
  | .float left, .float right =>
    (floatIsNan 23 8 left.toNat && floatIsNan 23 8 right.toNat) || left = right
  | .double left, .double right =>
    (floatIsNan 52 11 left.toNat && floatIsNan 52 11 right.toNat) || left = right
  | .byteArray left, .byteArray right => left = right
  | .string left, .string right => left = right
  | .list _ left, .list _ right =>
    (listValues left).length = (listValues right).length &&
      ((listValues left).attach.zip (listValues right)).all fun pair => equal pair.1.1 pair.2
  | .compound left, .compound right =>
    left.length = right.length && left.attach.all fun entry =>
      match NbtCompound.get right entry.1.1.shownText with
      | some value => equal entry.1.2 value
      | none => false
  | .intArray left, .intArray right => left = right
  | .longArray left, .longArray right => left = right
  | _, _ => false
termination_by sizeOf left
decreasing_by
  · exact sizeOf_listValues pair.1.2
  · exact sizeOf_entries entry.2

/-- `compare_nbt` with partial lists: a compound may have more entries than expected, and a
list more values. -/
def matchesPartially (expected actual : NbtTag) : Bool :=
  match expected, actual with
  | .compound expected, .compound actual =>
    !(actual.length < expected.length) && expected.attach.all fun entry =>
      match NbtCompound.get actual entry.1.1.shownText with
      | some value => matchesPartially entry.1.2 value
      | none => false
  | .list _ expected, .list _ actual =>
    if (listValues expected).isEmpty then (listValues actual).isEmpty
    else if (listValues actual).length < (listValues expected).length then false
    else (listValues expected).attach.all fun value =>
      (listValues actual).any fun other => matchesPartially value.1 other
  | expected, actual => equal expected actual
termination_by sizeOf expected
decreasing_by
  · exact sizeOf_entries entry.2
  · exact sizeOf_listValues value.2

end NbtTag

end Steel
