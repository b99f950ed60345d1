import Mathlib.Data.List.Perm.Subperm
import Steel.Lib.LittleEndian
import Steel.Lib.StableSort
import Steel.Nbt.NbtCompare

/-! # Component hashes

A value is hashed as a sequence of bytes, in which the entries of a compound are sorted by their
hashes.
-/

namespace Steel

open List

inductive HashTag where
  | empty
  | mapStart
  | mapEnd
  | listStart
  | listEnd
  | byte
  | short
  | int
  | long
  | float
  | double
  | string
  | boolean
  | byteArrayStart
  | byteArrayEnd
  | intArrayStart
  | intArrayEnd
  | longArrayStart
  | longArrayEnd

def HashTag.toByte : HashTag → UInt8
  | empty => 1
  | mapStart => 2
  | mapEnd => 3
  | listStart => 4
  | listEnd => 5
  | byte => 6
  | short => 7
  | int => 8
  | long => 9
  | float => 10
  | double => 11
  | string => 12
  | boolean => 13
  | byteArrayStart => 14
  | byteArrayEnd => 15
  | intArrayStart => 16
  | intArrayEnd => 17
  | longArrayStart => 18
  | longArrayEnd => 19

namespace ComponentHasher

open LittleEndian

def putByte (value : Int8) : List UInt8 := [HashTag.byte.toByte, value.toUInt8]

def putShort (value : Int16) : List UInt8 :=
  HashTag.short.toByte :: encode 2 value.toUInt16.toNat

def putInt (value : Int32) : List UInt8 := HashTag.int.toByte :: encode 4 value.toUInt32.toNat

def putLong (value : Int64) : List UInt8 := HashTag.long.toByte :: encode 8 value.toUInt64.toNat

def putFloat (bits : UInt32) : List UInt8 := HashTag.float.toByte :: encode 4 bits.toNat

def putDouble (bits : UInt64) : List UInt8 := HashTag.double.toByte :: encode 8 bits.toNat

def encodeUtf16 (c : Char) : List ℕ :=
  if c.toNat < 0x10000 then [c.toNat]
  else [0xd800 + (c.toNat - 0x10000) / 0x400, 0xdc00 + (c.toNat - 0x10000) % 0x400]

def putString (value : List Char) : List UInt8 :=
  let codeUnits := value.flatMap encodeUtf16
  HashTag.string.toByte :: encode 4 codeUnits.length ++ codeUnits.flatMap (encode 2)

def putByteArray (values : List UInt8) : List UInt8 :=
  HashTag.byteArrayStart.toByte :: values ++ [HashTag.byteArrayEnd.toByte]

def putIntArray (values : List Int32) : List UInt8 :=
  HashTag.intArrayStart.toByte :: values.flatMap (fun value => encode 4 value.toUInt32.toNat) ++
    [HashTag.intArrayEnd.toByte]

def putLongArray (values : List Int64) : List UInt8 :=
  HashTag.longArrayStart.toByte :: values.flatMap (fun value => encode 8 value.toUInt64.toNat) ++
    [HashTag.longArrayEnd.toByte]

end ComponentHasher

/-- The hashes of the key and the value of an entry, and their bytes. -/
structure HashEntry where
  keyHash : ℤ
  valueHash : ℤ
  keyBytes : List UInt8
  valueBytes : List UInt8

def HashEntry.fromHashes (keyHash valueHash : UInt32) : HashEntry where
  keyHash := keyHash.toNat
  valueHash := valueHash.toNat
  keyBytes := LittleEndian.encode 4 keyHash.toNat
  valueBytes := LittleEndian.encode 4 valueHash.toNat

def sortMapEntries (entries : List HashEntry) : List HashEntry :=
  sortStable (fun entry => toLex (entry.keyHash, entry.valueHash)) entries

namespace NbtTag

open ComponentHasher

variable (crc32c : List UInt8 → UInt32)

/-- The bytes that `hash_component` puts. -/
def hashComponent (tag : NbtTag) : List UInt8 :=
  match tag with
  | .byte value => putByte value
  | .short value => putShort value
  | .int value => putInt value
  | .long value => putLong value
  | .float bits => putFloat bits
  | .double bits => putDouble bits
  | .byteArray values => putByteArray values
  | .string value => putString value.shownText
  | .list _ values =>
    HashTag.listStart.toByte ::
      (listValues values).attach.flatMap (fun value =>
        LittleEndian.encode 4 (crc32c (hashComponent value.1)).toNat) ++
      [HashTag.listEnd.toByte]
  | .compound entries =>
    let hashEntries := entries.attach.map fun entry =>
      HashEntry.fromHashes (crc32c (putString entry.1.1.shownText))
        (crc32c (hashComponent entry.1.2))
    HashTag.mapStart.toByte ::
      (sortMapEntries hashEntries).flatMap (fun entry => entry.keyBytes ++ entry.valueBytes) ++
      [HashTag.mapEnd.toByte]
  | .intArray values => putIntArray values
  | .longArray values => putLongArray values
termination_by sizeOf tag
decreasing_by
  · exact sizeOf_listValues value.2
  · exact sizeOf_entries entry.2

def computeHash (tag : NbtTag) : Int32 := (crc32c (tag.hashComponent crc32c)).toInt32

/-- All compounds in a value have keys that are shown as distinct texts. -/
def DistinctTexts (tag : NbtTag) : Prop :=
  ∀ entries, Part (.compound entries) tag → (entries.map fun entry => entry.1.shownText).Nodup

def FloatFree (tag : NbtTag) : Prop :=
  ∀ part, Part part tag → (∀ bits, part ≠ .float bits) ∧ ∀ bits, part ≠ .double bits

theorem HashEntry.eq_of_key {keyHash valueHash keyHash' valueHash' : UInt32}
    (hkey : (HashEntry.fromHashes keyHash valueHash).keyHash =
      (HashEntry.fromHashes keyHash' valueHash').keyHash)
    (hvalue : (HashEntry.fromHashes keyHash valueHash).valueHash =
      (HashEntry.fromHashes keyHash' valueHash').valueHash) :
    HashEntry.fromHashes keyHash valueHash = HashEntry.fromHashes keyHash' valueHash' := by
  have hkey' : keyHash = keyHash' := UInt32.toNat_inj.1 (Int.ofNat_inj.1 hkey)
  have hvalue' : valueHash = valueHash' := UInt32.toNat_inj.1 (Int.ofNat_inj.1 hvalue)
  rw [hkey', hvalue']

def hashEntry (entry : Mutf8String × NbtTag) : HashEntry :=
  HashEntry.fromHashes (crc32c (putString entry.1.shownText))
    (crc32c (entry.2.hashComponent crc32c))

variable {crc32c}

theorem hashComponent_list {kind : NbtKind} {values : List NbtTag} :
    hashComponent crc32c (.list kind values) = HashTag.listStart.toByte ::
      (listValues values).flatMap (fun value =>
        LittleEndian.encode 4 (crc32c (hashComponent crc32c value)).toNat) ++
      [HashTag.listEnd.toByte] := by
  rw [hashComponent]
  conv_rhs => rw [← attach_map_subtype_val (listValues values), flatMap_map]

theorem hashComponent_compound {entries : NbtCompound} :
    hashComponent crc32c (.compound entries) = HashTag.mapStart.toByte ::
      (sortMapEntries (entries.map (hashEntry crc32c))).flatMap
        (fun entry => entry.keyBytes ++ entry.valueBytes) ++ [HashTag.mapEnd.toByte] := by
  rw [hashComponent]
  conv_rhs => rw [← attach_map_subtype_val entries, map_map]
  rfl

variable {entries entries' : NbtCompound}

theorem sortMapEntries_congr
    (hperm : (entries.map (hashEntry crc32c)).Perm (entries'.map (hashEntry crc32c))) :
    sortMapEntries (entries.map (hashEntry crc32c)) =
      sortMapEntries (entries'.map (hashEntry crc32c)) := by
  refine sortStable_eq_of_perm hperm ?_
  intro a ha b hb hkey
  obtain ⟨entry, _, rfl⟩ := mem_map.1 ha
  obtain ⟨entry', _, rfl⟩ := mem_map.1 hb
  obtain ⟨hkey, hvalue⟩ := Prod.mk.inj (toLex.injective hkey)
  exact HashEntry.eq_of_key hkey hvalue

/-- Equal compounds have the same entries in some order, up to the hashes of their values. -/
theorem map_hashEntry_perm (hdistinct : (entries.map fun entry => entry.1.shownText).Nodup)
    (hlength : entries.length = entries'.length)
    (hget : ∀ entry ∈ entries, ∃ value, NbtCompound.get entries' entry.1.shownText = some value ∧
      hashComponent crc32c entry.2 = hashComponent crc32c value) :
    (entries.map (hashEntry crc32c)).Perm (entries'.map (hashEntry crc32c)) := by
  let partner : Mutf8String × NbtTag → Mutf8String × NbtTag := fun entry =>
    (.text entry.1.shownText, (NbtCompound.get entries' entry.1.shownText).getD entry.2)
  have hsub : entries.map partner ⊆ entries' := by
    intro entry' hentry'
    obtain ⟨entry, hentry, rfl⟩ := mem_map.1 hentry'
    obtain ⟨value, hvalue, _⟩ := hget entry hentry
    have hpartner : partner entry = (.text entry.1.shownText, value) := by
      simp [partner, hvalue]
    rw [hpartner]
    exact mem_of_get hvalue
  have hnodup : (entries.map partner).Nodup := by
    refine Nodup.of_map (fun entry => entry.1.shownText) ?_
    rw [map_map]
    exact hdistinct
  have hperm : (entries.map partner).Perm entries' :=
    (subperm_of_subset hnodup hsub).perm_of_length_le (by simp [hlength])
  have hmap : entries.map (hashEntry crc32c) = (entries.map partner).map (hashEntry crc32c) := by
    rw [map_map]
    refine map_congr_left fun entry hentry => ?_
    obtain ⟨value, hvalue, hhash⟩ := hget entry hentry
    have hpartner : partner entry = (.text entry.1.shownText, value) := by
      simp [partner, hvalue]
    rw [Function.comp, hpartner, hashEntry, hhash]
    rfl
  rw [hmap]
  exact hperm.map _

theorem flatMap_congr_forall₂ {α β : Type} {R : α → α → Prop} {f : α → List β} {l l' : List α}
    (h : List.Forall₂ R l l') (hf : ∀ a ∈ l, ∀ b, R a b → f a = f b) :
    l.flatMap f = l'.flatMap f := by
  induction h with
  | nil => rfl
  | cons hab _ ih =>
    obtain ⟨hfirst, hrest⟩ := forall_mem_cons.1 hf
    rw [flatMap_cons, flatMap_cons, hfirst _ hab, ih hrest]

theorem hashComponent_eq_of_equal (a : NbtTag) : ∀ {b : NbtTag}, DistinctTexts a → FloatFree a →
    equal a b = true → hashComponent crc32c a = hashComponent crc32c b := by
  induction a using inductionOnValues with
  | leaf a hleaf =>
    intro b _ hfloat hequal
    cases a with
    | list kind values => exact absurd rfl (hleaf.1 kind values)
    | compound entries => exact absurd rfl (hleaf.2 entries)
    | float bits => exact absurd rfl ((hfloat _ (.refl _)).1 bits)
    | double bits => exact absurd rfl ((hfloat _ (.refl _)).2 bits)
    | _ => cases b <;> simp_all [equal]
  | list kind values ih =>
    intro b hdistinct hfloat hequal
    cases b with
    | list kind' values' =>
      rw [equal_list] at hequal
      rw [hashComponent_list, hashComponent_list]
      congr 2
      refine flatMap_congr_forall₂ hequal fun value hvalue other hother => ?_
      rw [ih value hvalue ?_ ?_ hother]
      · exact fun entries hpart => hdistinct entries (hpart.of_mem_listValues hvalue)
      · exact fun part hpart => hfloat part (hpart.of_mem_listValues hvalue)
    | _ => simp [equal] at hequal
  | compound entries ih =>
    intro b hdistinct hfloat hequal
    cases b with
    | compound entries' =>
      rw [equal_compound] at hequal
      obtain ⟨hlength, hall⟩ := hequal
      have hperm := @map_hashEntry_perm crc32c _ _ (hdistinct entries (.refl _)) hlength
        fun entry hentry => by
          obtain ⟨value, hget, hequal⟩ := hall entry hentry
          refine ⟨value, hget, ih entry hentry ?_ ?_ hequal⟩
          · exact fun entries' hpart => hdistinct entries' (.compound hentry hpart)
          · exact fun part hpart => hfloat part (.compound hentry hpart)
      rw [hashComponent_compound, hashComponent_compound, sortMapEntries_congr hperm]
    | _ => simp [equal] at hequal

/-- Equal values have equal hashes, if their keys are told apart by their texts. -/
theorem computeHash_eq_of_equal (crc32c : List UInt8 → UInt32) (a b : NbtTag)
    (hdistinct : DistinctTexts a) (hfloat : FloatFree a) (hequal : equal a b = true) :
    a.computeHash crc32c = b.computeHash crc32c := by
  rw [computeHash, computeHash, hashComponent_eq_of_equal a hdistinct hfloat hequal]

def castagnoliStep (crc : UInt32) : UInt32 :=
  if crc &&& 1 = 1 then (crc >>> 1) ^^^ 0x82f63b78 else crc >>> 1

def castagnoli (data : List UInt8) : UInt32 :=
  data.foldl (fun crc byte => castagnoliStep^[8] (crc ^^^ byte.toUInt32)) 0xffffffff ^^^ 0xffffffff

def entryOrder : NbtTag :=
  .compound
    [(.text ['b'], .list .compound [.compound [(.text [], .byte 7)]]), (.text ['a'], .int 1)]

/-- The entries in the other order, and the list without its wrapper. -/
def entryOrderReversed : NbtTag :=
  .compound [(.text ['a'], .int 1), (.text ['b'], .list .byte [.byte 7])]

theorem isLeaf_byte (value : Int8) : IsLeaf (.byte value) := ⟨nofun, nofun⟩

theorem isLeaf_int (value : Int32) : IsLeaf (.int value) := ⟨nofun, nofun⟩

theorem computeHash_entryOrder :
    entryOrder.computeHash castagnoli = entryOrderReversed.computeHash castagnoli := by
  refine computeHash_eq_of_equal castagnoli entryOrder entryOrderReversed ?_ ?_ ?_
  · intro entries hpart
    simp [entryOrder, part_compound_iff, part_list_iff, part_iff_of_isLeaf (isLeaf_byte _),
      part_iff_of_isLeaf (isLeaf_int _)] at hpart
    rcases hpart with rfl | rfl <;> simp [Mutf8String.shownText]
  · intro part hpart
    simp [entryOrder, part_compound_iff, part_list_iff, part_iff_of_isLeaf (isLeaf_byte _),
      part_iff_of_isLeaf (isLeaf_int _)] at hpart
    rcases hpart with rfl | (rfl | rfl | rfl) | rfl <;> exact ⟨nofun, nofun⟩
  · rw [entryOrder, entryOrderReversed, equal_compound]
    simp [NbtCompound.get, Mutf8String.shownText, equal_list, listValues, unwrapListWrapper,
      equal_refl_of_isLeaf (isLeaf_byte _), equal_refl_of_isLeaf (isLeaf_int _)]

/-- A malformed key shows the empty text. -/
def shownAlike : NbtTag := .compound [(.malformed [0xff] [], .byte 1), (.text [], .byte 1)]

def shownApart : NbtTag := .compound [(.text [], .byte 1), (.text ['a'], .byte 2)]

theorem computeHash_ne_shownAlike :
    (DistinctKeys shownAlike ∧ DistinctKeys shownApart ∧ FloatFree shownAlike ∧
      FloatFree shownApart ∧ equal shownAlike shownApart = true) ∧
    shownAlike.computeHash castagnoli ≠ shownApart.computeHash castagnoli := by
  refine ⟨⟨?_, ?_, ?_, ?_, ?_⟩, ?_⟩
  · intro entries hpart
    simp [shownAlike, part_compound_iff, part_iff_of_isLeaf (isLeaf_byte _)] at hpart
    simp [hpart]
  · intro entries hpart
    simp [shownApart, part_compound_iff, part_iff_of_isLeaf (isLeaf_byte _)] at hpart
    simp [hpart]
  · intro part hpart
    simp [shownAlike, part_compound_iff, part_iff_of_isLeaf (isLeaf_byte _)] at hpart
    rcases hpart with rfl | rfl <;> exact ⟨nofun, nofun⟩
  · intro part hpart
    simp [shownApart, part_compound_iff, part_iff_of_isLeaf (isLeaf_byte _)] at hpart
    rcases hpart with rfl | rfl | rfl <;> exact ⟨nofun, nofun⟩
  · simp [shownAlike, shownApart, NbtCompound.get, Mutf8String.shownText, equal]
  · rw [computeHash, computeHash, shownAlike, shownApart, hashComponent_compound,
      hashComponent_compound]
    simp only [map_cons, map_nil, hashEntry, hashComponent]
    decide +kernel

end NbtTag

end Steel
