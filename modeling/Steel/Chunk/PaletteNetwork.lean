import Steel.Lib.BitPack
import Steel.Lib.LittleEndian
import Steel.Utils.VarInt
import Steel.Chunk.PaletteInvariant

/-! # Paletted containers on the wire

The bytes a container is sent as, and a reader that follows the protocol: the number of bits of an
entry, then a single id, a list of ids or nothing, then the entries in 64-bit words.
-/

namespace Steel

open List BitPack LittleEndian Steel.Cube Nat
open UInt32 (ofNat)

class ToGlobalId (V : Type) where
  toGlobalId : V → UInt32

instance : ToGlobalId UInt16 := ⟨fun v => v.toUInt32⟩

open ToGlobalId

inductive PaletteMode where
  | linear
  | hash
  | global
  deriving DecidableEq

/-- `u64::to_be_bytes`. -/
def longBytes (word : BitVec 64) : List UInt8 := (encode 8 word.toNat).reverse

def packBits (indices : List UInt32) (bits : ℕ) : List (BitVec 64) :=
  scatter bits (indices.map UInt32.toNat).zipIdx
    (List.replicate (indices.length ⌈/⌉ perWord bits) 0)

namespace PalettedContainer

/-- The width of an entry and the kind of palette; counts below two do not occur. -/
def calculateStrategy (d count : ℕ) : Option (UInt8 × PaletteMode) :=
  if d = 16 then
    if count ≤ 1 then none
    else if count ≤ 16 then some (4, .linear)
    else if count ≤ 32 then some (5, .hash)
    else if count ≤ 64 then some (6, .hash)
    else if count ≤ 128 then some (7, .hash)
    else if count ≤ 256 then some (8, .hash)
    else some (15, .global)
  else
    if count ≤ 1 then none
    else if count ≤ 2 then some (1, .linear)
    else if count ≤ 4 then some (2, .linear)
    else if count ≤ 8 then some (3, .hash)
    else some (6, .global)

variable {V : Type} [DecidableEq V] [ToGlobalId V] {d : ℕ}

def writePalette (palette : List (V × UInt16)) : PaletteMode → List UInt8
  | .linear | .hash => VarInt.write (ofNat palette.length).toInt32 ++
      palette.flatMap fun e => VarInt.write (toGlobalId e.1).toInt32
  | .global => []

/-- The number packed for a cell: its id, or its position in the palette. -/
def cellIndex (palette : List (V × UInt16)) (mode : PaletteMode) (v : V) : Option UInt32 :=
  if mode = .global then some (toGlobalId v)
  else (palette.findIdx? fun e => e.1 = v).map ofNat

/-- The bytes of a container; one that is being built cannot be written. -/
def write (c : PalettedContainer V d) : Option (List UInt8) :=
  match c with
  | .homogeneous value => some (0 :: VarInt.write (toGlobalId value).toInt32)
  | .heterogeneous data =>
    match calculateStrategy d data.palette.length with
    | none => none
    | some (bits, mode) =>
      match data.cube.flat.mapM (cellIndex data.palette mode) with
      | none => none
      | some indices => some (bits :: writePalette data.palette mode ++
          (packBits indices bits.toNat).flatMap longBytes)
  | .building _ => none

end PalettedContainer

namespace Protocol

def readId (bytes : List UInt8) : Option (ℕ × List UInt8) :=
  match VarInt.read bytes with
  | .ok (v, bytes) => some (v.toUInt32.toNat, bytes)
  | .error _ => none

def readIds : ℕ → List UInt8 → Option (List ℕ × List UInt8)
  | 0, bytes => some ([], bytes)
  | n + 1, bytes => do
    let (id, bytes) ← readId bytes
    let (ids, bytes) ← readIds n bytes
    some (id :: ids, bytes)

def readLong (bytes : List UInt8) : Option (BitVec 64 × List UInt8) :=
  if bytes.length < 8 then none
  else some (BitVec.ofNat 64 (decode (bytes.take 8).reverse), bytes.drop 8)

def readLongs : ℕ → List UInt8 → Option (List (BitVec 64) × List UInt8)
  | 0, bytes => some ([], bytes)
  | n + 1, bytes => do
    let (word, bytes) ← readLong bytes
    let (words, bytes) ← readLongs n bytes
    some (word :: words, bytes)

/-- The words that hold `volume` entries, as numbers. -/
def readEntries (bits volume : ℕ) (bytes : List UInt8) : Option (List ℕ × List UInt8) := do
  let (words, bytes) ← readLongs (volume ⌈/⌉ perWord bits) bytes
  let entries ← (List.range volume).mapM (entryAt bits words)
  some (entries, bytes)

/-- The ids of the cells of a container. Entries of up to `listBits` bits are positions in
an id list, wider ones are ids. -/
def readContainer (listBits volume : ℕ) : List UInt8 → Option (List ℕ × List UInt8)
  | [] => none
  | bits :: bytes =>
    if bits = 0 then do
      let (id, bytes) ← readId bytes
      some (List.replicate volume id, bytes)
    else if bits.toNat ≤ listBits then do
      let (len, bytes) ← readId bytes
      let (ids, bytes) ← readIds len bytes
      let (entries, bytes) ← readEntries bits.toNat volume bytes
      let cells ← entries.mapM fun i => ids[i]?
      some (cells, bytes)
    else readEntries bits.toNat volume bytes

theorem mapM_eq_some {α β : Type} {f : α → Option β} {g : α → β} {l : List α}
    (h : ∀ a ∈ l, f a = some (g a)) : l.mapM f = some (l.map g) := by
  induction l with
  | nil => rfl
  | cons a l ih =>
    rw [mapM_cons, h a mem_cons_self, ih fun b hb => h b (mem_cons_of_mem a hb)]
    rfl

theorem exists_of_mapM {α β : Type} {f : α → Option β} {l : List α} {r : List β}
    (h : l.mapM f = some r) {b : β} (hb : b ∈ r) : ∃ a ∈ l, f a = some b := by
  induction l generalizing r with
  | nil =>
    obtain rfl := Option.some.inj h
    simp at hb
  | cons a l ih =>
    rw [mapM_cons] at h
    obtain ⟨c, hc, h⟩ := Option.bind_eq_some_iff.mp h
    obtain ⟨r', hr', h⟩ := Option.bind_eq_some_iff.mp h
    obtain rfl := Option.some.inj h
    rcases mem_cons.mp hb with rfl | hb
    · exact ⟨a, mem_cons_self, hc⟩
    · obtain ⟨a', ha', hf⟩ := ih hr' hb
      exact ⟨a', mem_cons_of_mem a ha', hf⟩

theorem mapM_range_eq_some {β : Type} {f : ℕ → Option β} {l : List β}
    (h : ∀ i b, l[i]? = some b → f i = some b) : (List.range l.length).mapM f = some l := by
  induction l using List.reverseRecOn with
  | nil => rfl
  | append_singleton l b ih =>
    have hinit : (List.range l.length).mapM f = some l := ih fun i c hc =>
      h i c (by rw [List.getElem?_append_left (List.getElem?_eq_some_iff.mp hc).1]; exact hc)
    have hlast : f l.length = some b := h l.length b (by simp)
    rw [length_append, length_singleton, range_succ, mapM_append, hinit]
    simp [hlast]

theorem readId_write (v : UInt32) (rest : List UInt8) :
    readId (VarInt.write v.toInt32 ++ rest) = some (v.toNat, rest) := by
  rw [readId, VarInt.read_write]
  simp

theorem readIds_write (ids : List UInt32) (rest : List UInt8) :
    readIds ids.length ((ids.flatMap fun v => VarInt.write v.toInt32) ++ rest) =
      some (ids.map UInt32.toNat, rest) := by
  induction ids with
  | nil => rfl
  | cons v ids ih =>
    rw [flatMap_cons, append_assoc, length_cons, readIds, readId_write]
    simp [ih]

theorem readLong_longBytes (word : BitVec 64) (rest : List UInt8) :
    readLong (longBytes word ++ rest) = some (word, rest) := by
  have hlen : (longBytes word).length = 8 := by
    rw [longBytes, length_reverse, length_encode]
  rw [readLong, if_neg (by rw [length_append]; omega), ← hlen, take_left, drop_left,
    longBytes, reverse_reverse, decode_encode_of_lt word.isLt]
  simp

theorem readLongs_flatMap (words : List (BitVec 64)) (rest : List UInt8) :
    readLongs words.length (words.flatMap longBytes ++ rest) = some (words, rest) := by
  induction words with
  | nil => rfl
  | cons word words ih =>
    rw [flatMap_cons, append_assoc, length_cons, readLongs, readLong_longBytes]
    simp [ih]

theorem perWord_pos {bits : ℕ} (h0 : 0 < bits) (h64 : bits ≤ 64) : 0 < perWord bits :=
  div_pos h64 h0

theorem readEntries_packBits (indices : List UInt32) {bits : ℕ} (h0 : 0 < bits) (h64 : bits ≤ 64)
    (hfit : ∀ v ∈ indices, v.toNat < 2 ^ bits) (rest : List UInt8) :
    readEntries bits indices.length ((packBits indices bits).flatMap longBytes ++ rest) =
      some (indices.map UInt32.toNat, rest) := by
  have hper := perWord_pos h0 h64
  have hlen : (packBits indices bits).length = indices.length ⌈/⌉ perWord bits := by
    rw [packBits, length_scatter, length_replicate]
  have hholds : BitPack.Holds bits (packBits indices bits) (indices.map UInt32.toNat) := by
    refine holds_scatter hper ?_ ?_
    · intro v hv
      obtain ⟨w, hw, rfl⟩ := mem_map.mp hv
      exact hfit w hw
    · rw [length_map, mul_comm]
      exact le_smul_ceilDiv hper
  have hread := mapM_range_eq_some hholds
  rw [length_map] at hread
  rw [readEntries, ← hlen, readLongs_flatMap]
  simp [hread]

theorem readEntries_lt {bits volume : ℕ} {bytes rest : List UInt8} {entries : List ℕ}
    (h : readEntries bits volume bytes = some (entries, rest)) : ∀ v ∈ entries, v < 2 ^ bits := by
  intro v hv
  obtain ⟨⟨words, bytes'⟩, -, h⟩ := Option.bind_eq_some_iff.mp h
  obtain ⟨entries', hread, h⟩ := Option.bind_eq_some_iff.mp h
  obtain ⟨rfl, -⟩ := Prod.mk.inj (Option.some.inj h)
  obtain ⟨i, -, hi⟩ := exists_of_mapM hread hv
  obtain ⟨word, -, rfl⟩ := Option.map_eq_some_iff.mp hi
  exact entry_lt word _

end Protocol

namespace PalettedContainer

open Protocol

variable {V : Type} [DecidableEq V] [ToGlobalId V] {d : ℕ}

def cellIds (cube : Cube V d) : List ℕ := cube.flat.map fun v => (toGlobalId v).toNat

def Lossless (listBits : ℕ) (c : PalettedContainer V d) (cube : Cube V d) : Prop :=
  ∃ bytes, c.write = some bytes ∧ ∀ rest,
    readContainer listBits (d * d * d) (bytes ++ rest) = some (cellIds cube, rest)

theorem lossless_homogeneous (listBits : ℕ) (v : V) :
    Lossless listBits (.homogeneous v) (.const v : Cube V d) := by
  refine ⟨_, rfl, fun rest => ?_⟩
  rw [cons_append, readContainer, if_pos rfl, readId_write, cellIds, flat_const, map_replicate]
  rfl

section

variable {listBits : ℕ} {data : HeterogeneousPalette V d} {bits : UInt8}
  (hs : calculateStrategy d data.palette.length = some (bits, .global))
  (hlist : listBits < bits.toNat)

include hs hlist

theorem lossless_global (h64 : bits.toNat ≤ 64)
    (hfit : ∀ v ∈ data.cube.flat, (toGlobalId v).toNat < 2 ^ bits.toNat) :
    Lossless listBits (.heterogeneous data) data.cube := by
  have hindices : data.cube.flat.mapM (cellIndex data.palette .global) =
      some (data.cube.flat.map toGlobalId) := mapM_eq_some fun v _ => by simp [cellIndex]
  refine ⟨bits :: writePalette data.palette .global ++
    (packBits (data.cube.flat.map toGlobalId) bits.toNat).flatMap longBytes, ?_, fun rest => ?_⟩
  · simp only [write, hs, hindices]
  · have hread := readEntries_packBits (data.cube.flat.map toGlobalId) (by omega) h64
      (by simpa using hfit) rest
    rw [length_map, length_flat] at hread
    have h0 : bits ≠ 0 := by rintro rfl; simp at hlist
    simp only [writePalette, cons_append, readContainer]
    rw [if_neg h0, if_neg (not_le.mpr hlist), nil_append, hread, cellIds, map_map]
    rfl

theorem not_lossless_global {v : V} (hv : v ∈ data.cube.flat)
    (hbig : 2 ^ bits.toNat ≤ (toGlobalId v).toNat) :
    ¬ Lossless listBits (.heterogeneous data) data.cube := by
  rintro ⟨bytes, hw, hread⟩
  have h0 : bits ≠ 0 := by rintro rfl; simp at hlist
  obtain ⟨tail, rfl⟩ : ∃ tail, bytes = bits :: tail := by
    simp only [write, hs] at hw
    split at hw
    case h_1 => cases hw
    case h_2 => exact ⟨_, (Option.some.inj hw).symm⟩
  have hr := hread []
  rw [cons_append, readContainer, if_neg h0, if_neg (not_le.mpr hlist)] at hr
  have hlt := readEntries_lt hr _ (mem_map.mpr ⟨v, hv, rfl⟩)
  omega

end

section List

variable {data : HeterogeneousPalette V d} (ht : Tallies data.cube.flat data.palette)

include ht

theorem mapM_cellIndex {mode : PaletteMode} (hmode : mode ≠ .global) :
    data.cube.flat.mapM (cellIndex data.palette mode) = some (positions data) := by
  refine mapM_eq_some fun v hv => ?_
  rw [cellIndex, if_neg hmode, (position_spec ht hv).1]
  rfl

theorem mapM_ids : (data.cube.flat.map (position data.palette)).mapM
      (fun i => ((data.palette.map fun e => toGlobalId e.1).map UInt32.toNat)[i]?) =
      some (cellIds data.cube) := by
  have hget : ∀ v ∈ data.cube.flat,
      ((data.palette.map fun e => toGlobalId e.1).map UInt32.toNat)[position data.palette v]? =
        some (toGlobalId v).toNat := by
    intro v hv
    obtain ⟨c, hc⟩ := (position_spec ht hv).2
    simp [hc]
  rw [mapM_map]
  exact mapM_eq_some hget

theorem lossless_list {listBits : ℕ} {bits : UInt8} {mode : PaletteMode}
    (hs : calculateStrategy d data.palette.length = some (bits, mode))
    (hmode : mode ≠ .global) (h0 : bits ≠ 0) (hlist : bits.toNat ≤ listBits)
    (h31 : bits.toNat ≤ 31) (hlen : data.palette.length ≤ 2 ^ bits.toNat) :
    Lossless listBits (.heterogeneous data) data.cube := by
  have hpow : 2 ^ bits.toNat ≤ 2 ^ 31 := Nat.pow_le_pow_right (by decide) h31
  have hpos : 0 < bits.toNat := Nat.pos_of_ne_zero fun h => h0 (UInt8.toNat_inj.mp h)
  have htoNat := map_toNat_positions ht (by omega)
  have hfit : ∀ w ∈ positions data, w.toNat < 2 ^ bits.toNat := by
    intro w hw
    have hmem : w.toNat ∈ data.cube.flat.map (position data.palette) := by
      rw [← htoNat]
      exact mem_map_of_mem hw
    obtain ⟨v, hv, he⟩ := mem_map.mp hmem
    rw [← he]
    exact lt_of_lt_of_le (position_lt ht hv) hlen
  have hwrite : writePalette data.palette mode =
      VarInt.write (ofNat data.palette.length).toInt32 ++
        (data.palette.map fun e => toGlobalId e.1).flatMap fun v => VarInt.write v.toInt32 := by
    rw [flatMap_map]
    cases mode with
    | linear => rfl
    | hash => rfl
    | global => exact absurd rfl hmode
  refine ⟨bits :: writePalette data.palette mode ++
    (packBits (positions data) bits.toNat).flatMap longBytes, ?_, fun rest => ?_⟩
  · simp only [write, hs, mapM_cellIndex ht hmode]
  · have hids := readIds_write (data.palette.map fun e => toGlobalId e.1)
    have hread := readEntries_packBits (positions data) hpos (by omega) hfit rest
    have hlen' : (ofNat data.palette.length).toNat = data.palette.length :=
      UInt32.toNat_ofNat_of_lt' (lt_of_le_of_lt (hlen.trans hpow) (by decide))
    rw [length_map] at hids
    rw [show (positions data).length = d * d * d by
      rw [positions, length_map, length_flat], htoNat] at hread
    rw [hwrite, cons_append, cons_append, readContainer, if_neg h0, if_pos hlist]
    simp only [append_assoc, readId_write, hlen', hids, hread, mapM_ids ht,
      Option.bind_eq_bind, Option.bind_some]

end List

theorem calculateStrategy_block {count : ℕ} (h : 2 ≤ count) :
    (∃ bits mode, calculateStrategy 16 count = some (bits, mode) ∧ mode ≠ .global ∧ bits ≠ 0 ∧
      bits.toNat ≤ 8 ∧ count ≤ 2 ^ bits.toNat) ∨
    calculateStrategy 16 count = some (15, .global) := by
  unfold calculateStrategy
  rw [if_pos rfl, if_neg (by omega)]
  split
  · exact Or.inl ⟨4, .linear, rfl, by decide, by decide, by decide, ‹_›⟩
  split
  · exact Or.inl ⟨5, .hash, rfl, by decide, by decide, by decide, ‹_›⟩
  split
  · exact Or.inl ⟨6, .hash, rfl, by decide, by decide, by decide, ‹_›⟩
  split
  · exact Or.inl ⟨7, .hash, rfl, by decide, by decide, by decide, ‹_›⟩
  split
  · exact Or.inl ⟨8, .hash, rfl, by decide, by decide, by decide, ‹_›⟩
  · exact Or.inr rfl

/-- Biome containers use an id list up to eight biomes and 6-bit ids beyond. -/
theorem calculateStrategy_biome {count : ℕ} (h : 2 ≤ count) :
    (count ≤ 8 ∧ ∃ bits mode, calculateStrategy 4 count = some (bits, mode) ∧ mode ≠ .global ∧
      bits ≠ 0 ∧ bits.toNat ≤ 3 ∧ count ≤ 2 ^ bits.toNat) ∨
    (8 < count ∧ calculateStrategy 4 count = some (6, .global)) := by
  unfold calculateStrategy
  rw [if_neg (by decide), if_neg (by omega)]
  split
  case isTrue hc =>
    exact Or.inl ⟨by omega, 1, .linear, rfl, by decide, by decide, by decide, hc⟩
  split
  case isTrue hc =>
    exact Or.inl ⟨by omega, 2, .linear, rfl, by decide, by decide, by decide, hc⟩
  split
  case isTrue hc =>
    exact Or.inl ⟨hc, 3, .hash, rfl, by decide, by decide, by decide, hc⟩
  case isFalse hc => exact Or.inr ⟨by omega, rfl⟩

theorem lossless_block {c : BlockPalette} {cube : Cube BlockStateId 16} (hc : Represents c cube)
    (hfinal : ∀ cells, c ≠ .building cells) (hids : ∀ v ∈ cube.flat, v.toNat < 2 ^ 15) :
    Lossless 8 c cube := by
  cases c with
  | homogeneous v =>
    obtain rfl : cube = .const v := hc
    exact lossless_homogeneous 8 v
  | heterogeneous data =>
    obtain ⟨rfl, ht, hlen⟩ := hc
    rcases calculateStrategy_block hlen with ⟨bits, mode, hs, hmode, h0, h8, hle⟩ | hs
    · exact lossless_list ht hs hmode h0 h8 (by omega) hle
    · exact lossless_global hs (by decide) (by decide) hids
  | building cells => exact absurd rfl (hfinal cells)

theorem lossless_biome {c : BiomePalette} {cube : Cube UInt16 4} (hc : Represents c cube)
    (hfinal : ∀ cells, c ≠ .building cells) :
    Lossless 3 c cube ↔ ∀ data, c = .heterogeneous data → 8 < data.palette.length →
      ∀ v ∈ cube.flat, v.toNat < 64 := by
  cases c with
  | homogeneous v =>
    obtain rfl : cube = .const v := hc
    exact iff_of_true (lossless_homogeneous 3 v) (by rintro data ⟨⟩)
  | heterogeneous data =>
    obtain ⟨rfl, ht, hlen⟩ := hc
    rcases calculateStrategy_biome hlen with ⟨h8, bits, mode, hs, hmode, h0, h3, hle⟩ | ⟨h8, hs⟩
    · refine iff_of_true (lossless_list ht hs hmode h0 h3 (by omega) hle) ?_
      rintro _ ⟨⟩ hlt
      omega
    · constructor
      · rintro hloss _ ⟨⟩ - v hv
        by_contra hbig
        exact not_lossless_global hs (by decide) hv (not_lt.mp hbig) hloss
      · intro hids
        exact lossless_global hs (by decide) (by decide) (hids data rfl h8)
  | building cells => exact absurd rfl (hfinal cells)

/-- Of the two containers of a section, the block container over registered states always comes
back; the biome container does exactly if it has at most eight different biomes or no biome id
from 64 on. -/
theorem write_lossless_iff (states : BlockPalette) (biomes : BiomePalette)
    (cube : Cube BlockStateId 16) (cube' : Cube UInt16 4) (hstates : Represents states cube)
    (hbiomes : Represents biomes cube') (hfinal : ∀ cells, states ≠ .building cells)
    (hfinal' : ∀ cells, biomes ≠ .building cells) (hids : ∀ v ∈ cube.flat, v.toNat < 2 ^ 15) :
    Lossless 8 states cube ∧
      (Lossless 3 biomes cube' ↔ ∀ data, biomes = .heterogeneous data → 8 < data.palette.length →
        ∀ v ∈ cube'.flat, v.toNat < 64) := by
  constructor
  · exact lossless_block hstates hfinal hids
  · exact lossless_biome hbiomes hfinal'

/-- Sixteen states in layers, and sixteen biomes in columns. -/
theorem write_lossless_layers :
    let states : Cube BlockStateId 16 := fun y _ _ => UInt16.ofNat y
    let biomes : Cube UInt16 4 := fun _ z x => UInt16.ofNat (z * 4 + x)
    Lossless 8 (fromCube states) states ∧ Lossless 3 (fromCube biomes) biomes := by
  intro states biomes
  have hids : ∀ v ∈ states.flat, v.toNat < 2 ^ 15 := by
    intro v hv
    obtain ⟨x, y, z, rfl⟩ := mem_flat.mp hv
    have hlt : ∀ y : Fin 16, (UInt16.ofNat y).toNat < 2 ^ 15 := by decide
    exact hlt y
  obtain ⟨hblock, hbiome⟩ := write_lossless_iff (fromCube states) (fromCube biomes) states biomes
    (represents_fromCube (by decide) (by decide) states)
    (represents_fromCube (by decide) (by decide) biomes) (fromCube_ne_building _)
    (fromCube_ne_building _) hids
  refine ⟨hblock, hbiome.mpr fun data _ _ v hv => ?_⟩
  obtain ⟨x, y, z, rfl⟩ := mem_flat.mp hv
  have hlt : ∀ x z : Fin 4, (UInt16.ofNat (z * 4 + x)).toNat < 64 := by decide
  exact hlt x z

/-- Sixteen biomes in the lowest layer, the last biome of the registry above. -/
def manyBiomes : Cube UInt16 4 :=
  fun y z x => if y = 0 then UInt16.ofNat (z * 4 + x) else 64

theorem eight_lt_of_tallies {palette : List (UInt16 × UInt16)}
    (ht : Tallies manyBiomes.flat palette) : 8 < palette.length := by
  have hnodup : ((List.range 9).map UInt16.ofNat).Nodup := by decide
  have hcell : ∀ n < 9, ∃ x y z, manyBiomes y z x = UInt16.ofNat n := by decide
  have hsub : (List.range 9).map UInt16.ofNat ⊆ palette.map Prod.fst := by
    intro v hv
    obtain ⟨n, hn, rfl⟩ := mem_map.mp hv
    exact ht.mem_fst_iff.mpr (mem_flat.mpr (hcell n (mem_range.mp hn)))
  have hle := (subperm_of_subset hnodup hsub).length_le
  simp only [length_map, length_range] at hle
  exact hle

/-- A biome container with the biome 64 and more than eight biomes in all is not read back. -/
theorem many_biomes_not_lossless : Represents (fromCube manyBiomes) manyBiomes ∧
      (∀ cells, fromCube manyBiomes ≠ .building cells) ∧
      (∀ v ∈ manyBiomes.flat, v.toNat ≤ 64) ∧
      ¬ Lossless 3 (fromCube manyBiomes) manyBiomes := by
  have hrep : Represents (fromCube manyBiomes) manyBiomes :=
    represents_fromCube (by decide) (by decide) manyBiomes
  refine ⟨hrep, fromCube_ne_building _, ?_, ?_⟩
  · intro v hv
    obtain ⟨x, y, z, rfl⟩ := mem_flat.mp hv
    have hle : ∀ x y z, (manyBiomes y z x).toNat ≤ 64 := by decide
    exact hle x y z
  · rw [lossless_biome hrep (fromCube_ne_building _)]
    intro hids
    have hmem : (64 : UInt16) ∈ manyBiomes.flat := mem_flat.mpr ⟨0, 1, 0, rfl⟩
    cases hc : fromCube manyBiomes with
    | homogeneous v =>
      rw [hc] at hrep
      have hconst : manyBiomes = .const v := hrep
      have h₀ : manyBiomes 0 0 0 = manyBiomes 1 0 0 := by rw [hconst]; rfl
      exact absurd h₀ (by decide)
    | heterogeneous data =>
      rw [hc] at hrep
      exact absurd (hids data hc (eight_lt_of_tallies hrep.2.1) 64 hmem) (by decide)
    | building cells => exact fromCube_ne_building _ _ hc

end PalettedContainer

end Steel
