import Steel.ChunkSaver.Allocation

/-! # What a region file holds

A table describes a file when its rows are valid, fit their encoding, and lead to the payloads of
the chunks under observation.
-/

namespace Steel

open ByteFile RegionHeader RegionHandle RegionPos List Function

abbrev Cell := Option (List UInt8 × ChunkStatus)

/-- What is known about the chunks; a chunk without a cell is not under observation. -/
abbrev Tracked := ChunkPos → Option Cell

section Payload

variable {file : ByteFile} {off : UInt32} (fs : UInt32) {c : List UInt8}

theorem byteOffset_eq (off : UInt32) : byteOffset off = 4096 * off.toNat := Nat.mul_comm _ _

theorem padded_length (hc : PayloadOk c) :
    c.length + (sectorSize - c.length % sectorSize) % sectorSize = 4096 * (sectorsFor c).toNat := by
  rw [toNat_sectorsFor hc, sectorSize]; omega

theorem length_writeChunkData (hc : PayloadOk c) : (writeChunkData file off c fs).1.length =
      max file.length (4096 * (off.toNat + (sectorsFor c).toNat)) := by
  have hpad := padded_length hc
  simp only [writeChunkData, byteOffset_eq]
  generalize (sectorSize - c.length % sectorSize) % sectorSize = padding at hpad ⊢
  by_cases hp : padding = 0
  · rw [hp, replicate_zero, writeAt_nil, length_writeAt hc.1]
    omega
  · rw [length_writeAt (by simpa using hp), length_writeAt hc.1, length_replicate]
    omega

theorem readExact_writeChunkData (hc : PayloadOk c) :
    (writeChunkData file off c fs).1.readExact (byteOffset off) c.length = some c :=
  readExact_writeAt_of_disjoint (.inl le_rfl) (readExact_writeAt_self _ _ hc.1)

theorem readExact_writeChunkData_of_disjoint (hc : PayloadOk c) {pos n : ℕ} {bs : List UInt8}
    (h : pos + n ≤ 4096 * off.toNat ∨ 4096 * (off.toNat + (sectorsFor c).toNat) ≤ pos)
    (hr : file.readExact pos n = some bs) :
    (writeChunkData file off c fs).1.readExact pos n = some bs := by
  have hpad := padded_length hc
  simp only [writeChunkData, byteOffset_eq]
  generalize (sectorSize - c.length % sectorSize) % sectorSize = padding at hpad ⊢
  have hdata : (file.writeAt (4096 * off.toNat) c).readExact pos n = some bs :=
    readExact_writeAt_of_disjoint (by omega) hr
  refine readExact_writeAt_of_disjoint ?_ hdata
  rw [length_replicate]
  omega

end Payload

def Leads (file : ByteFile) (e : ChunkEntry) : Cell → Prop
  | none => e.entryExists = false
  | some (c, status) => e.entryExists = true ∧ e.status = status ∧
      e.sizeBytes.toNat = c.length ∧
      file.readExact (byteOffset e.sectorOffset) c.length = some c

/-- The table describes the file and leads to the cells of the region's tracked chunks. -/
structure Describes (r : RegionPos) (tracked : Tracked) (header : RegionHeader) (fs : UInt32)
    (file : ByteFile) : Prop where
  valid : header.Valid fs.toNat
  storable : header.Storable
  sectors : fs.toNat = (file.length + 4095) / 4096
  magic : file.readExact 0 fileHeaderSize = some fileHeader
  table : fileHeaderSize + chunkTableSize ≤ file.length
  leads : ∀ p cell, fromChunk p = r → tracked p = some cell →
    Leads file (header.entries (slot p)) cell

def OnDisk (file : ByteFile) (header : RegionHeader) : Prop :=
  file.readExact fileHeaderSize chunkTableSize = some header.toBytes

namespace Describes

variable {r : RegionPos} {tracked : Tracked} {header : RegionHeader} {fs : UInt32}
  {file : ByteFile}

section

variable (h : Describes r tracked header fs file)

include h

theorem weaken {tracked' : Tracked}
    (ht : ∀ p cell, fromChunk p = r → tracked' p = some cell → tracked p = some cell) :
    Describes r tracked' header fs file :=
  { h with leads := fun p cell hp hc => h.leads p cell hp (ht p cell hp hc) }

theorem row_range {i : Fin chunksPerRegion} (hex : (header.entries i).entryExists = true) :
    12288 ≤ 4096 * (header.entries i).sectorOffset.toNat ∧
      4096 * (header.entries i).sectorOffset.toNat + (header.entries i).sizeBytes.toNat ≤
        4096 * (header.entries i).endSector := by
  have h3 := (h.valid.validIn i hex).start_ge
  have hcount := ChunkEntry.toNat_sectorCount (header.entries i)
  rw [Nat.ceilDiv_eq_add_pred_div, sectorSize] at hcount
  unfold ChunkEntry.endSector
  omega

theorem writeTable {bs : List UInt8} (hbs : bs.length ≤ chunkTableSize) :
    Describes r tracked header fs (file.writeAt fileHeaderSize bs) := by
  have ht : fileHeaderSize + chunkTableSize = 8200 := rfl
  have hsize : fileHeaderSize = 8 := rfl
  have htab := h.table
  have hlen : (file.writeAt fileHeaderSize bs).length = file.length := by
    by_cases hb : bs = []
    · simp [hb]
    · rw [length_writeAt hb, max_eq_left (by omega)]
  refine ⟨h.valid, h.storable, by rw [hlen]; exact h.sectors, ?_,
    by rw [hlen]; exact h.table, fun p cell hp hc => ?_⟩
  · exact readExact_writeAt_of_disjoint (.inl (by omega)) h.magic
  · have hl := h.leads p cell hp hc
    cases cell with
    | none => exact hl
    | some v =>
      obtain ⟨hex, hst, hsz, hrd⟩ := hl
      have hrow := h.row_range hex
      refine ⟨hex, hst, hsz, readExact_writeAt_of_disjoint (.inr ?_) hrd⟩
      rw [byteOffset_eq]
      omega

end

theorem onDisk_writeTable (file : ByteFile) (header : RegionHeader) :
    OnDisk (file.writeAt fileHeaderSize header.toBytes) header := by
  have hlen := length_toBytes header
  have hne : header.toBytes ≠ [] := ne_nil_of_length_pos (by rw [hlen]; decide)
  have h := readExact_writeAt_self file fileHeaderSize hne
  rwa [hlen] at h

end Describes

section Store

variable {r : RegionPos} {tracked : Tracked} {handle : RegionHandle} {file : ByteFile}
  {i : Fin chunksPerRegion} {c : List UInt8} (status : ChunkStatus)

theorem length_storeChunk (handle : RegionHandle) (file : ByteFile) (i : Fin chunksPerRegion)
    (hc : PayloadOk c) :
    (handle.storeChunk file i c status).2.length = max file.length
        (4096 * ((handle.chooseSectors i (sectorsFor c)).toNat + (sectorsFor c).toNat)) :=
  length_writeChunkData handle.fileSectors hc

section

variable (h : Describes r tracked handle.header handle.fileSectors file) (hc : PayloadOk c)
  (hf : handle.Fits i c)

include h hc hf

theorem Describes.sectors_storeChunk : (handle.storeChunk file i c status).1.fileSectors.toNat =
      ((handle.storeChunk file i c status).2.length + 4095) / 4096 := by
  have hs := h.sectors
  rw [toNat_storeChunk_fileSectors _ _ hf, length_storeChunk _ _ _ _ hc]
  omega

theorem Describes.leads_storeChunk_of_ne {j : Fin chunksPerRegion} (hj : j ≠ i) {cell : Cell}
    (hl : Leads file (handle.header.entries j) cell) :
    Leads (handle.storeChunk file i c status).2 (handle.header.entries j) cell := by
  cases cell with
  | none => exact hl
  | some v =>
    obtain ⟨hex, hst, hsz, hrd⟩ := hl
    refine ⟨hex, hst, hsz, readExact_writeChunkData_of_disjoint handle.fileSectors hc ?_ hrd⟩
    have hrow := h.row_range hex
    rw [byteOffset_eq, ← hsz]
    rcases (chooseSectors_spec h.valid hc hf).2 j hj hex with hd | hd
    · exact .inl (by omega)
    · exact .inr (by omega)

theorem Describes.magic_storeChunk :
    (handle.storeChunk file i c status).2.readExact 0 fileHeaderSize = some fileHeader := by
  have h3 := (chooseSectors_spec h.valid hc hf).1
  refine readExact_writeChunkData_of_disjoint handle.fileSectors hc (.inl ?_) h.magic
  rw [show fileHeaderSize = 8 from rfl]
  omega

theorem Describes.onDisk_storeChunk {header : RegionHeader} (hd : OnDisk file header) :
    OnDisk (handle.storeChunk file i c status).2 header := by
  have h3 := (chooseSectors_spec h.valid hc hf).1
  refine readExact_writeChunkData_of_disjoint handle.fileSectors hc (.inl ?_) hd
  rw [show fileHeaderSize + chunkTableSize = 8200 from rfl]
  omega

end

section

variable {p : ChunkPos} (h : Describes r tracked handle.header handle.fileSectors file)
  (hc : PayloadOk c)

include h hc

/-- After a store the new table describes the file, with the payload in its cell. -/
theorem Describes.storeChunk (hlt : c.length < maxChunkSize)
    (hf : handle.Fits (slot p) c) (hp : fromChunk p = r) :
    Describes r (update tracked p (some (some (c, status))))
      (handle.storeChunk file (slot p) c status).1.header
      (handle.storeChunk file (slot p) c status).1.fileSectors
      (handle.storeChunk file (slot p) c status).2 := by
  have h3 := (chooseSectors_spec h.valid hc hf).1
  have hlen := length_storeChunk status handle file (slot p) hc
  have hnew : (RegionHeader.entryOf (handle.chooseSectors (slot p) (sectorsFor c)) c
      status).entryExists = true := by
    rw [ChunkEntry.entryExists_iff_toNat]; exact Nat.lt_of_lt_of_le (by decide) h3
  refine ⟨valid_storeChunk status file h.valid hc hf, fun j => ?_,
    h.sectors_storeChunk status hc hf,
    h.magic_storeChunk status hc hf, ?_, fun q cell hq hcell => ?_⟩
  · rw [storeChunk_header]
    by_cases hj : j = slot p
    · subst hj
      rw [setEntry_self, toNat_sizeBytes_entryOf hc]
      exact ⟨hlt, fun h0 => absurd h0 (ChunkEntry.entryExists_iff.mp hnew)⟩
    · rw [setEntry_of_ne _ hj]
      exact h.storable j
  · rw [hlen]; exact h.table.trans (le_max_left _ _)
  · rw [storeChunk_header]
    by_cases hqp : q = p
    · subst hqp
      obtain rfl : cell = some (c, status) := by simpa using hcell.symm
      rw [setEntry_self]
      exact ⟨hnew, rfl, toNat_sizeBytes_entryOf hc _ _,
        readExact_writeChunkData handle.fileSectors hc⟩
    · have hj : slot q ≠ slot p := fun hs =>
        hqp (eq_of_slot (hq.trans hp.symm) hs)
      rw [setEntry_of_ne _ hj]
      exact h.leads_storeChunk_of_ne status hc hf hj
        (h.leads q cell hq (by simpa [hqp] using hcell))

/-- After a store the old table still describes the file, but for the overwritten chunk. -/
theorem Describes.overwritten (hf : handle.Fits (slot p) c)
    (hp : fromChunk p = r) :
    Describes r (update tracked p none) handle.header
      (handle.storeChunk file (slot p) c status).1.fileSectors
      (handle.storeChunk file (slot p) c status).2 := by
  have hlen := length_storeChunk status handle file (slot p) hc
  have hfs := toNat_storeChunk_fileSectors status file hf
  refine ⟨h.valid.mono (by rw [hfs]; exact le_max_left _ _), h.storable,
    h.sectors_storeChunk status hc hf, h.magic_storeChunk status hc hf, ?_,
    fun q cell hq hcell => ?_⟩
  · rw [hlen]; exact h.table.trans (le_max_left _ _)
  · have hqp : q ≠ p := by rintro rfl; simp at hcell
    have hj : slot q ≠ slot p := fun hs =>
      hqp (eq_of_slot (hq.trans hp.symm) hs)
    exact h.leads_storeChunk_of_ne status hc hf hj (h.leads q cell hq (by simpa [hqp] using hcell))

end

theorem Describes.clear {header : RegionHeader} {fs : UInt32} {p : ChunkPos}
    (h : Describes r tracked header fs file) (hp : fromChunk p = r) :
    Describes r (update tracked p none)
      (header.setEntry (slot p) .empty) fs file := by
  refine ⟨valid_clear h.valid _, fun j => ?_, h.sectors, h.magic,
    h.table, fun q cell hq hcell => ?_⟩
  · by_cases hj : j = slot p
    · subst hj; simp [ChunkEntry.empty]
    · rw [setEntry_of_ne _ hj]; exact h.storable j
  · have hqp : q ≠ p := by rintro rfl; simp at hcell
    have hj : slot q ≠ slot p := fun hs =>
      hqp (eq_of_slot (hq.trans hp.symm) hs)
    rw [setEntry_of_ne _ hj]
    exact h.leads q cell hq (by simpa [hqp] using hcell)

end Store

theorem length_fileHeader : fileHeader.length = fileHeaderSize := rfl

theorem onDisk_new : OnDisk (fileHeader ++ RegionHeader.new.toBytes) .new := by
  have h := readExact_append_right (f := fileHeader) (g := RegionHeader.new.toBytes)
  rwa [length_toBytes, length_fileHeader] at h

theorem describes_new {r : RegionPos} {tracked : Tracked}
    (ht : ∀ p cell, fromChunk p = r → tracked p = some cell → cell = none) :
    Describes r tracked .new firstDataSector (fileHeader ++ RegionHeader.new.toBytes) := by
  have hlen : (fileHeader ++ RegionHeader.new.toBytes).length = 8200 := by
    rw [length_append, length_toBytes]; rfl
  refine ⟨valid_new _, storable_new, by rw [hlen]; rfl,
    readExact_append_left, by rw [hlen]; rfl,
    fun p cell hp hc => ?_⟩
  obtain rfl := ht p cell hp hc
  exact ChunkEntry.entryExists_empty

theorem openRegion_of_describes {disk : Disk} {r : RegionPos} {tracked : Tracked}
    {header : RegionHeader} {fs : UInt32} {file : ByteFile} (hfile : disk.files r = some file)
    (h : Describes r tracked header fs file) (hd : OnDisk file header) :
    openRegion disk r = (.ok ⟨header, 0, false, fs⟩, disk) := by
  have hmagic : fileHeader.take 4 = regionMagic := by decide
  have hversion : UInt16.ofNat (LittleEndian.decode ((fileHeader.drop 4).take 2)) =
      formatVersion := by decide
  have hfs : UInt32.ofNat (file.length ⌈/⌉ sectorSize) = fs := by
    rw [Nat.ceilDiv_eq_add_pred_div,
      show file.length + sectorSize - 1 = file.length + 4095 from rfl,
      show sectorSize = 4096 from rfl, ← h.sectors, UInt32.ofNat_toNat]
  have hval : validateRegionEntries header fs = .ok () :=
    (validateRegionEntries_eq_ok_iff _ _).mpr h.valid
  have hd' : file.readExact fileHeaderSize chunkTableSize = some header.toBytes := hd
  simp [openRegion, hfile, h.magic, hmagic, hversion, hd', h.storable.fromBytes_toBytes, hfs, hval,
    ↓reduceIte]

end Steel
