import Mathlib.Algebra.Order.Floor.Div
import Mathlib.Data.List.Pairwise
import Steel.Chunk.ChunkPyramid
import Steel.Lib.LittleEndian
import Steel.Utils.ChunkPos

/-! # The region file format

A region file starts with a file header and a table of 1024 chunk entries, followed by chunk
payloads in 4096-byte sectors. A table is accepted when every existing entry lies in the data
sectors of the file and no two of them share a sector.
-/

namespace Steel

open LittleEndian

def regionMagic : List UInt8 := [0x53, 0x54, 0x4C, 0x52]

def formatVersion : UInt16 := 22

def regionSize : ℕ := 32

def chunksPerRegion : ℕ := regionSize * regionSize

def sectorSize : ℕ := 4096

def fileHeaderSize : ℕ := 8

def chunkTableSize : ℕ := chunksPerRegion * 8

def firstDataSector : UInt32 := 3

def maxChunkSize : ℕ := 16 * 1024 * 1024

@[simp] theorem toNat_firstDataSector : firstDataSector.toNat = 3 := rfl

/-- One row of the chunk location table; sector offset zero means no chunk. -/
structure ChunkEntry where
  sectorOffset : UInt32
  sizeBytes : UInt32
  status : ChunkStatus
  deriving DecidableEq

namespace ChunkEntry

variable (e : ChunkEntry)

/-- `ChunkEntry::exists`. -/
def entryExists : Bool := e.sectorOffset != 0

/-- `ChunkEntry::empty`, also the default entry. -/
def empty : ChunkEntry := ⟨0, 0, .empty⟩

def sectorCount : UInt32 :=
  if e.sizeBytes = 0 then 0 else UInt32.ofNat (e.sizeBytes.toNat ⌈/⌉ sectorSize)

def toBytes : List UInt8 :=
  encode 4 e.sectorOffset.toNat ++
    (encode 4 e.sizeBytes.toNat).take 3 ++ [UInt8.ofNat e.status.getIndex]

/-- `ChunkEntry::from_bytes` on an array of eight bytes; other lists do not occur. -/
def fromBytes : List UInt8 → Option ChunkEntry
  | [b0, b1, b2, b3, b4, b5, b6, b7] => do
    let sectorOffset := UInt32.ofNat (decode [b0, b1, b2, b3])
    let sizeBytes := UInt32.ofNat (decode [b4, b5, b6, 0])
    let status ← if sectorOffset = 0 then some .empty else ChunkStatus.fromIndex b7.toNat
    return ⟨sectorOffset, sizeBytes, status⟩
  | _ => none

/-- First sector past the entry's range, in unbounded arithmetic. -/
def endSector : ℕ := e.sectorOffset.toNat + e.sectorCount.toNat

@[simp] theorem entryExists_empty : empty.entryExists = false := rfl

theorem entryExists_iff {e : ChunkEntry} : e.entryExists = true ↔ e.sectorOffset ≠ 0 := by
  simp [entryExists]

theorem entryExists_iff_toNat {e : ChunkEntry} :
    e.entryExists = true ↔ 0 < e.sectorOffset.toNat := by
  rw [entryExists_iff, Nat.pos_iff_ne_zero, ne_eq, ne_eq, ← UInt32.toNat_inj]
  rfl

theorem toNat_sectorCount : e.sectorCount.toNat = e.sizeBytes.toNat ⌈/⌉ sectorSize := by
  have hlt := e.sizeBytes.toNat_lt
  have hdiv : e.sizeBytes.toNat ⌈/⌉ sectorSize = (e.sizeBytes.toNat + 4095) / 4096 := by
    rw [Nat.ceilDiv_eq_add_pred_div]; rfl
  unfold sectorCount
  split
  case isTrue h => rw [hdiv, h]; rfl
  case isFalse => rw [UInt32.toNat_ofNat', hdiv]; omega

@[simp] theorem length_toBytes : e.toBytes.length = 8 := by
  simp [toBytes]

end ChunkEntry

/-- The chunk location table of a region. -/
structure RegionHeader where
  entries : Fin chunksPerRegion → ChunkEntry

namespace RegionHeader

@[ext] theorem ext {h h' : RegionHeader} (he : ∀ i, h.entries i = h'.entries i) : h = h' := by
  cases h; cases h'; congr; funext i; exact he i

/-- `RegionHeader::new`. -/
def new : RegionHeader := ⟨fun _ => .empty⟩

variable (h : RegionHeader)

/-- The assignment `header.entries[i] = e`. -/
def setEntry (i : Fin chunksPerRegion) (e : ChunkEntry) : RegionHeader :=
  ⟨Function.update h.entries i e⟩

def chunkIndex (localX localZ : ℕ) : ℕ := localZ * regionSize + localX

def toBytes : List UInt8 :=
  (List.ofFn h.entries).flatMap ChunkEntry.toBytes

/-- The complete arrays of eight bytes at the front of a slice. -/
def asChunks : List UInt8 → List (List UInt8)
  | b0 :: b1 :: b2 :: b3 :: b4 :: b5 :: b6 :: b7 :: bs =>
    [b0, b1, b2, b3, b4, b5, b6, b7] :: asChunks bs
  | _ => []

def fromChunks : ℕ → List (List UInt8) → RegionHeader → Except ℕ RegionHeader
  | _, [], h => .ok h
  | i, chunk :: chunks, h =>
    match ChunkEntry.fromBytes chunk with
    | none => .error i
    | some entry =>
      fromChunks (i + 1) chunks (if hi : i < chunksPerRegion then h.setEntry ⟨i, hi⟩ entry else h)

/-- The error is the index of the bad row. The asserted length of `bytes` is met by the
only caller, which reads exactly the table. -/
def fromBytes (bytes : List UInt8) : Except ℕ RegionHeader := fromChunks 0 (asChunks bytes) new

/-- The sector ranges of the existing entries, ordered by their start. -/
def usedRanges : List (UInt32 × UInt32) :=
  (((List.ofFn h.entries).filter ChunkEntry.entryExists).map fun e =>
    (e.sectorOffset, e.sectorOffset + e.sectorCount)).mergeSort fun r r' => r.1 ≤ r'.1

/-- Walk the used ranges for a gap; without one, append at the end of the file. -/
def firstGap (sectorsNeeded fileSectors : UInt32) : UInt32 → List (UInt32 × UInt32) → UInt32
  | currentSector, [] => max currentSector fileSectors
  | currentSector, (start, stop) :: ranges =>
    if start ≥ currentSector + sectorsNeeded then currentSector
    else firstGap sectorsNeeded fileSectors (max currentSector stop) ranges

def findFreeSectors (sectorsNeeded fileSectors : UInt32) : UInt32 :=
  if sectorsNeeded = 0 then firstDataSector
  else firstGap sectorsNeeded fileSectors firstDataSector h.usedRanges

variable (i : Fin chunksPerRegion)

@[simp] theorem setEntry_self (e : ChunkEntry) :
    (h.setEntry i e).entries i = e := by simp [setEntry]

theorem setEntry_of_ne {i j : Fin chunksPerRegion} (hne : j ≠ i)
    (e : ChunkEntry) : (h.setEntry i e).entries j = h.entries j := by simp [setEntry, hne]

@[simp] theorem setEntry_setEntry
    (e e' : ChunkEntry) : (h.setEntry i e).setEntry i e' = h.setEntry i e' := by
  simp [setEntry]

theorem new_setEntry_empty : new.setEntry i .empty = new := by
  ext j : 1
  by_cases hj : j = i
  · subst hj; simp [new]
  · rw [setEntry_of_ne _ hj]

@[simp] theorem new_entries : new.entries i = .empty := rfl

end RegionHeader

/-- The position of a region in region coordinates. -/
structure RegionPos where
  x : ℤ
  z : ℤ
  deriving DecidableEq

namespace RegionPos

def fromChunk (pos : ChunkPos) : RegionPos :=
  ⟨pos.x.toInt / regionSize, pos.z.toInt / regionSize⟩

def localChunkPos (pos : ChunkPos) : ℕ × ℕ :=
  ((pos.x.toInt % regionSize).toNat, (pos.z.toInt % regionSize).toNat)

/-- The table index of a chunk, `chunk_index` of its local position. -/
def slot (pos : ChunkPos) : Fin chunksPerRegion :=
  ⟨RegionHeader.chunkIndex (localChunkPos pos).1 (localChunkPos pos).2, by
    simp only [RegionHeader.chunkIndex, localChunkPos, chunksPerRegion, regionSize]
    omega⟩

theorem eq_of_slot {p q : ChunkPos} (hr : fromChunk p = fromChunk q) (hs : slot p = slot q) :
    p = q := by
  have hs' := congrArg Fin.val hs
  simp only [fromChunk, slot, RegionHeader.chunkIndex, localChunkPos, regionSize,
    RegionPos.mk.injEq] at hr hs'
  have hx : p.x.toInt = q.x.toInt := by omega
  have hz : p.z.toInt = q.z.toInt := by omega
  cases p; cases q
  rw [ChunkPos.mk.injEq]
  exact ⟨Int32.toInt_inj.mp hx, Int32.toInt_inj.mp hz⟩

end RegionPos

open List

inductive ErrorKind where
  | invalidData | invalidInput | unexpectedEof | other
  deriving DecidableEq

structure IoError where
  kind : ErrorKind
  message : String
  deriving DecidableEq

/-- `u32::checked_add`. -/
def checkedAdd (a b : UInt32) : Option UInt32 :=
  if a.toNat + b.toNat < 2 ^ 32 then some (a + b) else none

def validateChunkEntry (entry : ChunkEntry) (fileSectors : UInt32) : Except IoError Unit :=
  if entry.sectorOffset < firstDataSector then
    .error ⟨.invalidData,
      s!"chunk table entry points into the region header at sector {entry.sectorOffset}"⟩
  else if entry.sizeBytes = 0 ∨ maxChunkSize < entry.sizeBytes.toNat then
    .error ⟨.invalidData, s!"invalid chunk table entry size {entry.sizeBytes}"⟩
  else
    match checkedAdd entry.sectorOffset entry.sectorCount with
    | none => .error ⟨.invalidData, "chunk table entry sector range overflowed"⟩
    | some endSector =>
      if fileSectors < endSector then
        .error ⟨.invalidData,
          s!"chunk table entry ends at sector {endSector}, past region end {fileSectors}"⟩
      else .ok ()

/-- Set the sectors from `start` to `stop`. -/
def fill (occupied : List Bool) (start stop : ℕ) : List Bool :=
  occupied.mapIdx fun i b => if start ≤ i ∧ i < stop then true else b

/-- Whether one of the sectors from `start` to `stop` is set. -/
def anyOccupied (occupied : List Bool) (start stop : ℕ) : Bool :=
  ((occupied.drop start).take (stop - start)).any id

def validateEntriesFrom (header : RegionHeader) (fileSectors : UInt32) :
    List (Fin chunksPerRegion) → List Bool → Except IoError Unit
  | [], _ => .ok ()
  | index :: indices, occupied =>
    let entry := header.entries index
    if entry.entryExists then
      match validateChunkEntry entry fileSectors with
      | .error error => .error error
      | .ok () =>
        let start := entry.sectorOffset.toNat
        let stop := start + entry.sectorCount.toNat
        if anyOccupied occupied start stop then
          .error ⟨.invalidData,
            s!"chunk table entry {index} overlaps another region allocation"⟩
        else validateEntriesFrom header fileSectors indices (fill occupied start stop)
    else validateEntriesFrom header fileSectors indices occupied

def validateRegionEntries (header : RegionHeader) (fileSectors : UInt32) : Except IoError Unit :=
  validateEntriesFrom header fileSectors (List.finRange chunksPerRegion)
    (fill (List.replicate fileSectors.toNat false) 0 firstDataSector.toNat)

namespace ChunkEntry

/-- The entry's range lies in the data sectors of a file of `fs` sectors. -/
structure ValidIn (e : ChunkEntry) (fs : ℕ) : Prop where
  start_ge : 3 ≤ e.sectorOffset.toNat
  size_pos : 0 < e.sizeBytes.toNat
  size_le : e.sizeBytes.toNat ≤ maxChunkSize
  end_le : e.endSector ≤ fs

def Disjoint (e e' : ChunkEntry) : Prop :=
  e.endSector ≤ e'.sectorOffset.toNat ∨ e'.endSector ≤ e.sectorOffset.toNat

theorem Disjoint.symm {e e' : ChunkEntry} (h : e.Disjoint e') : e'.Disjoint e := Or.symm h

variable {e : ChunkEntry}

theorem sectorCount_pos (h : 0 < e.sizeBytes.toNat) : 0 < e.sectorCount.toNat := by
  rw [toNat_sectorCount, Nat.ceilDiv_eq_add_pred_div, sectorSize]
  omega

theorem ValidIn.start_lt_end {fs : ℕ} (h : e.ValidIn fs) :
    e.sectorOffset.toNat < e.endSector :=
  Nat.lt_add_of_pos_right (sectorCount_pos h.size_pos)

theorem ValidIn.mono {fs fs' : ℕ} (h : e.ValidIn fs) (hle : fs ≤ fs') :
    e.ValidIn fs' := ⟨h.start_ge, h.size_pos, h.size_le, h.end_le.trans hle⟩

end ChunkEntry

theorem validateChunkEntry_eq_ok_iff (e : ChunkEntry) (fs : UInt32) :
    validateChunkEntry e fs = .ok () ↔ e.ValidIn fs.toNat := by
  have hoff : e.sectorOffset < firstDataSector ↔ e.sectorOffset.toNat < 3 := Iff.rfl
  have hsize : e.sizeBytes = 0 ↔ e.sizeBytes.toNat = 0 := UInt32.toNat_inj.symm
  have hfs := fs.toNat_lt
  unfold validateChunkEntry checkedAdd
  constructor
  · intro h
    split at h
    case isTrue => cases h
    case isFalse h₁ =>
      split at h
      case isTrue => cases h
      case isFalse h₂ =>
        by_cases hlt : e.sectorOffset.toNat + e.sectorCount.toNat < 2 ^ 32
        · simp only [hlt, ↓reduceIte] at h
          split at h
          case isTrue => cases h
          case isFalse h₃ =>
            rw [hoff] at h₁
            rw [hsize] at h₂
            rw [UInt32.lt_iff_toNat_lt, UInt32.toNat_add, Nat.mod_eq_of_lt hlt] at h₃
            exact ⟨by omega, by omega, by omega, by unfold ChunkEntry.endSector; omega⟩
        · simp only [hlt, ↓reduceIte, reduceCtorEq] at h
  · intro h
    have hend : e.sectorOffset.toNat + e.sectorCount.toNat ≤ fs.toNat := h.end_le
    have hlt : e.sectorOffset.toNat + e.sectorCount.toNat < 2 ^ 32 := by omega
    have h₁ := h.start_ge
    have h₂ := h.size_pos
    have h₃ := h.size_le
    rw [if_neg (by rw [hoff]; omega), if_neg (by rw [hsize]; omega)]
    simp only [hlt, ↓reduceIte]
    rw [if_neg]
    rw [UInt32.lt_iff_toNat_lt, UInt32.toNat_add, Nat.mod_eq_of_lt hlt]
    omega

variable (occupied : List Bool)

@[simp] theorem length_fill (start stop : ℕ) :
    (fill occupied start stop).length = occupied.length := by simp [fill]

theorem getElem?_fill (start stop s : ℕ) : (fill occupied start stop)[s]? = some true ↔
      occupied[s]? = some true ∨ (start ≤ s ∧ s < stop ∧ s < occupied.length) := by
  rw [fill, List.getElem?_mapIdx]
  by_cases hs : s < occupied.length
  · rw [List.getElem?_eq_getElem hs]
    simp only [Option.map_some, Option.some.injEq, hs, and_true]
    split <;> simp_all
  · simp [hs]

theorem anyOccupied_eq_true_iff (start stop : ℕ) : anyOccupied occupied start stop = true ↔
      ∃ s, start ≤ s ∧ s < stop ∧ occupied[s]? = some true := by
  simp only [anyOccupied, any_eq_true, id_eq, exists_eq_right, mem_iff_getElem?,
    List.getElem?_take, List.getElem?_drop]
  constructor
  · rintro ⟨i, hi⟩
    split at hi
    · exact ⟨start + i, by omega, by omega, hi⟩
    · cases hi
  · rintro ⟨s, hs, hlt, he⟩
    refine ⟨s - start, ?_⟩
    rw [if_pos (by omega), show start + (s - start) = s by omega, he]

namespace RegionHeader

/-- Every existing entry is in place and no two share a sector. -/
structure Valid (h : RegionHeader) (fs : ℕ) : Prop where
  validIn : ∀ i, (h.entries i).entryExists = true → (h.entries i).ValidIn fs
  disjoint : ∀ i j, i ≠ j → (h.entries i).entryExists = true →
    (h.entries j).entryExists = true → (h.entries i).Disjoint (h.entries j)

theorem valid_new (fs : ℕ) : new.Valid fs :=
  ⟨fun _ h => by simp at h, fun _ _ _ h => by simp at h⟩

theorem Valid.mono {h : RegionHeader} {fs fs' : ℕ} (hv : h.Valid fs) (hle : fs ≤ fs') :
    h.Valid fs' := ⟨fun i hi => (hv.validIn i hi).mono hle, hv.disjoint⟩

def Covers (h : RegionHeader) (done : List (Fin chunksPerRegion)) (s : ℕ) : Prop :=
  ∃ j ∈ done, (h.entries j).entryExists = true ∧ (h.entries j).sectorOffset.toNat ≤ s ∧
    s < (h.entries j).endSector

end RegionHeader

/-- The sector map marks the header sectors and the rows already seen. -/
def Marks (h : RegionHeader) (fs : ℕ) (done : List (Fin chunksPerRegion))
    (occupied : List Bool) : Prop :=
  occupied.length = fs ∧
    ∀ s < fs, occupied[s]? = some true ↔ s < 3 ∨ h.Covers done s

section Loop

variable {h : RegionHeader} {fs : UInt32} {done : List (Fin chunksPerRegion)}
  {occupied : List Bool} {i : Fin chunksPerRegion}

section

variable (hm : Marks h fs.toNat done occupied)

include hm

theorem Marks.fill (he : (h.entries i).entryExists = true) : Marks h fs.toNat (i :: done)
      (fill occupied (h.entries i).sectorOffset.toNat (h.entries i).endSector) := by
  refine ⟨by rw [length_fill, hm.1], fun s hs => ?_⟩
  rw [getElem?_fill, hm.2 s hs, hm.1]
  simp only [RegionHeader.Covers, mem_cons, exists_eq_or_imp, he, true_and]
  constructor
  · rintro ((h3 | hc) | ⟨h₁, h₂, -⟩)
    · exact .inl h3
    · exact .inr (.inr hc)
    · exact .inr (.inl ⟨h₁, h₂⟩)
  · rintro (h3 | ⟨h₁, h₂⟩ | hc)
    · exact .inl (.inl h3)
    · exact .inr ⟨h₁, h₂, hs⟩
    · exact .inl (.inr hc)

theorem Marks.skip (he : (h.entries i).entryExists = false) :
    Marks h fs.toNat (i :: done) occupied := by
  refine ⟨hm.1, fun s hs => ?_⟩
  rw [hm.2 s hs]
  simp [RegionHeader.Covers, he]

/-- The overlap test succeeds exactly when the row misses every row already seen. -/
theorem Marks.anyOccupied_eq_false_iff (hv : (h.entries i).ValidIn fs.toNat)
    (hd : ∀ j ∈ done, (h.entries j).entryExists = true → (h.entries j).ValidIn fs.toNat) :
    anyOccupied occupied (h.entries i).sectorOffset.toNat (h.entries i).endSector = false ↔
      ∀ j ∈ done, (h.entries j).entryExists = true → (h.entries i).Disjoint (h.entries j) := by
  have hlt := hv.start_lt_end
  have hend := hv.end_le
  have h3 := hv.start_ge
  rw [← Bool.not_eq_true, anyOccupied_eq_true_iff]
  constructor
  · intro hn j hj hex
    by_contra hc
    have hltj := (hd j hj hex).start_lt_end
    unfold ChunkEntry.Disjoint at hc
    refine hn ⟨max (h.entries i).sectorOffset.toNat (h.entries j).sectorOffset.toNat,
      by omega, by omega, ?_⟩
    rw [hm.2 _ (by omega)]
    exact .inr ⟨j, hj, hex, by omega, by omega⟩
  · rintro hall ⟨s, hs₁, hs₂, ho⟩
    rw [hm.2 s (by omega)] at ho
    rcases ho with hs | ⟨j, hj, hex, hj₁, hj₂⟩
    · omega
    · rcases hall j hj hex with hle | hle <;> omega

end

theorem validateEntriesFrom_eq_ok_iff (is : List (Fin chunksPerRegion))
    (hm : Marks h fs.toNat done occupied)
    (hd : ∀ j ∈ done, (h.entries j).entryExists = true → (h.entries j).ValidIn fs.toNat) :
    validateEntriesFrom h fs is occupied = .ok () ↔
      (∀ i ∈ is, (h.entries i).entryExists = true → (h.entries i).ValidIn fs.toNat ∧
        ∀ j ∈ done, (h.entries j).entryExists = true → (h.entries i).Disjoint (h.entries j)) ∧
      is.Pairwise fun i j => (h.entries i).entryExists = true →
        (h.entries j).entryExists = true → (h.entries j).Disjoint (h.entries i) := by
  induction is generalizing done occupied with
  | nil => simp [validateEntriesFrom]
  | cons i is ih =>
    by_cases he : (h.entries i).entryExists = true
    · by_cases hv : (h.entries i).ValidIn fs.toNat
      · have hok : validateChunkEntry (h.entries i) fs = .ok () :=
          (validateChunkEntry_eq_ok_iff _ _).mpr hv
        have hany := hm.anyOccupied_eq_false_iff hv hd
        have hd' : ∀ j ∈ i :: done, (h.entries j).entryExists = true →
            (h.entries j).ValidIn fs.toNat :=
          forall_mem_cons.mpr ⟨fun _ => hv, hd⟩
        simp only [validateEntriesFrom, he, ↓reduceIte, hok]
        rw [show (h.entries i).sectorOffset.toNat + (h.entries i).sectorCount.toNat =
          (h.entries i).endSector from rfl]
        cases ha : anyOccupied occupied (h.entries i).sectorOffset.toNat (h.entries i).endSector
        · rw [ha] at hany
          have hdis := hany.mp rfl
          simp only [Bool.false_eq_true, ↓reduceIte, ih (hm.fill he) hd', forall_mem_cons,
            pairwise_cons, he, hv, true_and, forall_true_left]
          constructor
          · rintro ⟨hall, hp⟩
            exact ⟨⟨hdis, fun j hj hex => ⟨(hall j hj hex).1, (hall j hj hex).2.2⟩⟩,
              fun j hj hex => (hall j hj hex).2.1, hp⟩
          · rintro ⟨⟨-, hall⟩, hpi, hp⟩
            exact ⟨fun j hj hex => ⟨(hall j hj hex).1, hpi j hj hex, (hall j hj hex).2⟩, hp⟩
        · rw [ha] at hany
          simp only [↓reduceIte, reduceCtorEq, false_iff]
          intro hall
          exact absurd (hany.mpr (hall.1 i (by simp) he).2) (by simp)
      · have herr : ∀ e, validateChunkEntry (h.entries i) fs ≠ .ok e :=
          fun e hok => hv ((validateChunkEntry_eq_ok_iff _ _).mp hok)
        cases hve : validateChunkEntry (h.entries i) fs with
        | ok u => exact absurd hve (herr u)
        | error e =>
          simp only [validateEntriesFrom, he, ↓reduceIte, hve, reduceCtorEq, false_iff]
          exact fun hall => hv (hall.1 i (by simp) he).1
    · have hf : (h.entries i).entryExists = false := by simpa using he
      have hd' : ∀ j ∈ i :: done, (h.entries j).entryExists = true →
          (h.entries j).ValidIn fs.toNat :=
        forall_mem_cons.mpr ⟨fun hx => absurd hx he, hd⟩
      simp [validateEntriesFrom, hf, ↓reduceIte, ih (hm.skip hf) hd']

end Loop

theorem marks_initial (h : RegionHeader) (fs : ℕ) :
    Marks h fs [] (fill (List.replicate fs false) 0 firstDataSector.toNat) := by
  refine ⟨by simp, fun s hs => ?_⟩
  rw [getElem?_fill]
  simp [RegionHeader.Covers, hs]

theorem validateRegionEntries_eq_ok_iff (h : RegionHeader) (fs : UInt32) :
    validateRegionEntries h fs = .ok () ↔ h.Valid fs.toNat := by
  rw [validateRegionEntries, validateEntriesFrom_eq_ok_iff _ (marks_initial h fs.toNat) (by simp)]
  simp only [mem_finRange, not_mem_nil, false_implies, implies_true, and_true,
    true_implies]
  constructor
  · rintro ⟨hv, hp⟩
    refine ⟨hv, fun i j hne hi hj => ?_⟩
    have hsymm : Std.Symm fun i j => (h.entries i).entryExists = true →
        (h.entries j).entryExists = true → (h.entries j).Disjoint (h.entries i) :=
      ⟨fun _ _ hd hj hi => (hd hi hj).symm⟩
    exact hp.forall (mem_finRange j) (mem_finRange i) hne.symm hj hi
  · intro hv
    refine ⟨hv.validIn, ?_⟩
    refine (nodup_finRange chunksPerRegion).imp ?_
    exact fun {i j} hne hi hj => hv.disjoint j i hne.symm hj hi

end Steel
