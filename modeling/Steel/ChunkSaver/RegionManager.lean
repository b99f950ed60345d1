import Steel.Lib.ByteFile
import Steel.ChunkSaver.ChunkCodec

/-! # The region manager

Regions are opened on demand and keep their table in memory; a changed table is written back when
the region is flushed or closed.
-/

namespace Steel

open RegionPos

open Function (update)

/-- How a single call of `write_header` ends. -/
inductive HeaderWrite where
  | ok
  | failed (written : ℕ) (error : IoError)

/-- An open region file with its table. -/
structure RegionHandle where
  header : RegionHeader
  loadedChunkCount : ℕ
  headerDirty : Bool
  fileSectors : UInt32

/-- The region directory: region files, and backups of files of other versions. -/
structure Disk where
  files : RegionPos → Option ByteFile
  backups : RegionPos → UInt16 → Option ByteFile

structure RegionManager where
  regions : RegionPos → Option RegionHandle
  disk : Disk

def earlyEof : IoError := ⟨.unexpectedEof, "early eof"⟩

namespace Disk

def empty : Disk := ⟨fun _ => none, fun _ _ => none⟩

variable (d : Disk)

def setFile (pos : RegionPos) (file : ByteFile) : Disk :=
  { d with files := update d.files pos (some file) }

def fileOf (pos : RegionPos) : ByteFile := (d.files pos).getD []

/-- `fs::rename` of a region file to its backup name. -/
def backup (pos : RegionPos) (version : UInt16) (file : ByteFile) : Disk :=
  ⟨update d.files pos none,
    update d.backups pos (update (d.backups pos) version (some file))⟩

@[simp] theorem fileOf_setFile (pos : RegionPos) (file : ByteFile) :
    (d.setFile pos file).fileOf pos = file := by simp [setFile, fileOf]

theorem files_setFile_of_ne {pos pos' : RegionPos} (h : pos' ≠ pos)
    (file : ByteFile) : (d.setFile pos file).files pos' = d.files pos' := by
  simp [setFile, h]

@[simp] theorem files_setFile (pos : RegionPos) (file : ByteFile) :
    (d.setFile pos file).files pos = some file := by simp [setFile]

end Disk

def fileHeader : List UInt8 :=
  regionMagic ++ LittleEndian.encode 2 formatVersion.toNat ++ [0, 0]

def createRegion (disk : Disk) (pos : RegionPos) : RegionHandle × Disk :=
  (⟨.new, 0, false, firstDataSector⟩, disk.setFile pos (fileHeader ++ RegionHeader.new.toBytes))

def openRegion (disk : Disk) (pos : RegionPos) : Except IoError RegionHandle × Disk :=
  match disk.files pos with
  | none => (.ok (createRegion disk pos).1, (createRegion disk pos).2)
  | some file =>
    match file.readExact 0 fileHeaderSize with
    | none => (.error earlyEof, disk)
    | some headerBytes =>
      if headerBytes.take 4 ≠ regionMagic then
        (.error ⟨.invalidData, "Invalid region file magic"⟩, disk)
      else
        let version := UInt16.ofNat (LittleEndian.decode ((headerBytes.drop 4).take 2))
        if version ≠ formatVersion then
          let disk := disk.backup pos version file
          (.ok (createRegion disk pos).1, (createRegion disk pos).2)
        else
          match file.readExact fileHeaderSize chunkTableSize with
          | none => (.error earlyEof, disk)
          | some tableBytes =>
            match RegionHeader.fromBytes tableBytes with
            | .error index =>
              (.error ⟨.invalidData,
                s!"region chunk table entry {index} has an invalid status byte"⟩, disk)
            | .ok header =>
              let fileSectors := UInt32.ofNat (file.length ⌈/⌉ sectorSize)
              match validateRegionEntries header fileSectors with
              | .error e => (.error e, disk)
              | .ok () => (.ok ⟨header, 0, false, fileSectors⟩, disk)

def writeHeader (outcome : HeaderWrite) (file : ByteFile) (header : RegionHeader) :
    Except IoError Unit × ByteFile :=
  match outcome with
  | .ok => (.ok (), file.writeAt fileHeaderSize header.toBytes)
  | .failed written e => (.error e, file.writeAt fileHeaderSize (header.toBytes.take written))

/-- `u64::from(sector_offset) * SECTOR_SIZE`. -/
def byteOffset (sectorOffset : UInt32) : ℕ := sectorOffset.toNat * sectorSize

def readChunkData (file : ByteFile) (sectorOffset size : UInt32) : Except IoError (List UInt8) :=
  match file.readExact (byteOffset sectorOffset) size.toNat with
  | none => .error earlyEof
  | some compressed => .ok compressed

/-- `data.len().div_ceil(SECTOR_SIZE) as u32`. -/
def sectorsFor (data : List UInt8) : UInt32 := UInt32.ofNat (data.length ⌈/⌉ sectorSize)

/-- The payload is padded to a sector boundary; the file grows if it ends past it. -/
def writeChunkData (file : ByteFile) (sectorOffset : UInt32) (data : List UInt8)
    (fileSectors : UInt32) : ByteFile × UInt32 :=
  let file := file.writeAt (byteOffset sectorOffset) data
  let paddingNeeded := (sectorSize - data.length % sectorSize) % sectorSize
  let file := file.writeAt (byteOffset sectorOffset + data.length)
    (List.replicate paddingNeeded 0)
  let endSector := sectorOffset + sectorsFor data
  (file, if fileSectors < endSector then endSector else fileSectors)

namespace RegionHandle

/-- The sectors a payload goes to: its old place if that is large enough, else free ones. -/
def chooseSectors (handle : RegionHandle) (index : Fin chunksPerRegion)
    (sectorsNeeded : UInt32) : UInt32 :=
  let oldEntry := handle.header.entries index
  if oldEntry.entryExists ∧ sectorsNeeded ≤ oldEntry.sectorCount then oldEntry.sectorOffset
  else handle.header.findFreeSectors sectorsNeeded handle.fileSectors

/-- The part of `save_chunk_data` between opening the region and closing it: find
space, write the payload, update the table. -/
def storeChunk (handle : RegionHandle) (file : ByteFile) (index : Fin chunksPerRegion)
    (compressed : List UInt8) (status : ChunkStatus) : RegionHandle × ByteFile :=
  let sectorOffset := handle.chooseSectors index (sectorsFor compressed)
  let written := writeChunkData file sectorOffset compressed handle.fileSectors
  ({ handle with
      header := handle.header.setEntry index (RegionHeader.entryOf sectorOffset compressed status)
      fileSectors := written.2 }, written.1)

/-- `clear_corrupt_chunk_if_unchanged` on the open region. -/
def clearCorruptChunk (handle : RegionHandle) (file : ByteFile) (index : Fin chunksPerRegion)
    (expected : ChunkEntry) (outcome : HeaderWrite) :
    Except IoError Bool × RegionHandle × ByteFile :=
  if handle.header.entries index ≠ expected then (.ok false, handle, file)
  else
    let cleared := handle.header.setEntry index .empty
    match writeHeader outcome file cleared with
    | (.error e, file) => (.error e, handle, file)
    | (.ok (), file) => (.ok true, { handle with header := cleared, headerDirty := false }, file)

theorem clearCorruptChunk_of_eq {handle : RegionHandle} {index : Fin chunksPerRegion}
    {expected : ChunkEntry} (h : handle.header.entries index = expected) (file : ByteFile) :
    handle.clearCorruptChunk file index expected .ok =
      (.ok true,
      { handle with header := handle.header.setEntry index .empty, headerDirty := false },
        file.writeAt fileHeaderSize (handle.header.setEntry index .empty).toBytes) := by
  simp [clearCorruptChunk, h, writeHeader]

theorem clearCorruptChunk_cases (handle : RegionHandle) (file : ByteFile)
    (index : Fin chunksPerRegion) (expected : ChunkEntry) (outcome : HeaderWrite) :
    (handle.clearCorruptChunk file index expected outcome).2.1 = handle ∨
      (handle.header.entries index = expected ∧
        (handle.clearCorruptChunk file index expected outcome).2.1 =
          { handle with header := handle.header.setEntry index .empty, headerDirty := false }) := by
  unfold clearCorruptChunk
  split
  · exact .inl rfl
  · dsimp only
    cases outcome with
    | failed written e => exact .inl rfl
    | ok => exact .inr ⟨by simp_all, rfl⟩

end RegionHandle

namespace RegionManager

/-- `RegionManager::new` over a directory. -/
def new (disk : Disk) : RegionManager := ⟨fun _ => none, disk⟩

variable (m : RegionManager)

/-- Replace the handle of a region and the content of its file. -/
def put (pos : RegionPos) (handle : Option RegionHandle) (file : ByteFile) : RegionManager :=
  ⟨update m.regions pos handle, m.disk.setFile pos file⟩

variable (pos : RegionPos)

@[simp] theorem put_regions_self (handle : Option RegionHandle) (file : ByteFile) :
    (m.put pos handle file).regions pos = handle := by simp [put]

@[simp] theorem put_files_self (handle : Option RegionHandle) (file : ByteFile) :
    (m.put pos handle file).disk.files pos = some file := by simp [put]

@[simp] theorem put_fileOf_self (handle : Option RegionHandle) (file : ByteFile) :
    (m.put pos handle file).disk.fileOf pos = file := Disk.fileOf_setFile ..

variable {pos r : RegionPos}

theorem put_regions_of_ne (h : r ≠ pos) (handle : Option RegionHandle) (file : ByteFile) :
    (m.put pos handle file).regions r = m.regions r := by simp [put, h]

theorem put_files_of_ne (h : r ≠ pos) (handle : Option RegionHandle) (file : ByteFile) :
    (m.put pos handle file).disk.files r = m.disk.files r :=
  m.disk.files_setFile_of_ne h file

/-- The open handle of a region, opening the region if it is closed. -/
def getOrOpen (pos : RegionPos) : Except IoError RegionHandle × Disk :=
  match m.regions pos with
  | some handle => (.ok handle, m.disk)
  | none => openRegion m.disk pos

variable {χ Λ : Type} (K : ChunkCodec χ Λ)

def saveChunkData (prepared : PreparedChunkSave χ)
    (outcome : HeaderWrite) : Except IoError Bool × RegionManager :=
  match encodeChunk K prepared with
  | .error e => (.error e, m)
  | .ok compressed =>
    let regionPos := fromChunk prepared.pos
    let weOpenedRegion := (m.regions regionPos).isNone
    match m.getOrOpen regionPos with
    | (.error e, disk) => (.error e, { m with disk })
    | (.ok handle, disk) =>
      let m : RegionManager := { m with disk }
      let (handle, file) := handle.storeChunk (disk.fileOf regionPos)
        (slot prepared.pos) compressed prepared.status
      if weOpenedRegion ∧ handle.loadedChunkCount = 0 then
        match writeHeader outcome file handle.header with
        | (.error e, file) => (.error e, m.put regionPos (some handle) file)
        | (.ok (), file) => (.ok true, m.put regionPos none file)
      else (.ok true, m.put regionPos (some { handle with headerDirty := true }) file)

/-- What `load_chunk` reads while it holds the lock: the payload and its table row. -/
def readChunk (pos : ChunkPos) : Except IoError (Option (List UInt8 × ChunkEntry)) :=
  let regionPos := fromChunk pos
  match m.regions regionPos with
  | none => .ok none
  | some handle =>
    let entry := handle.header.entries (slot pos)
    if entry.entryExists then
      match validateChunkEntry entry handle.fileSectors with
      | .error e => .error e
      | .ok () =>
        match readChunkData (m.disk.fileOf regionPos) entry.sectorOffset entry.sizeBytes with
        | .error e => .error e
        | .ok compressed => .ok (some (compressed, entry))
    else .ok none

def clearCorruptChunkIfUnchanged (regionPos : RegionPos)
    (index : Fin chunksPerRegion) (expectedEntry : ChunkEntry) (outcome : HeaderWrite) :
    Except IoError Bool × RegionManager :=
  match m.regions regionPos with
  | none =>
    (.error ⟨.other, "region was released while clearing corrupt chunk data"⟩, m)
  | some handle =>
    let (result, handle, file) := handle.clearCorruptChunk (m.disk.fileOf regionPos) index
      expectedEntry outcome
    (result, m.put regionPos (some handle) file)

def loadChunk (pos : ChunkPos) (minY height : ℤ) (outcome : HeaderWrite) :
    Except IoError (Option Λ) × RegionManager :=
  if height ≤ 0 ∨ height % 16 ≠ 0 ∨ minY % 16 ≠ 0 then
    (.error ⟨.invalidInput,
      s!"chunk world range must be section-aligned, got min_y={minY}, height={height}"⟩, m)
  else
    match m.readChunk pos with
    | .error e => (.error e, m)
    | .ok none => (.ok none, m)
    | .ok (some (compressed, entry)) =>
      match decodeChunk K compressed pos entry.status minY height with
      | .ok loaded => (.ok (some loaded), m)
      | .error e =>
        match m.clearCorruptChunkIfUnchanged (fromChunk pos) (slot pos) entry
          outcome with
        | (.error e', m) => (.error e', m)
        | (.ok false, m) =>
          (.error ⟨.invalidData,
            s!"corrupt chunk payload was superseded before it could be removed: {e}"⟩, m)
        | (.ok true, m) => (.ok none, m)

def acquireChunk (pos : ChunkPos) : Except IoError Bool × RegionManager :=
  let regionPos := fromChunk pos
  match m.getOrOpen regionPos with
  | (.error e, disk) => (.error e, { m with disk })
  | (.ok handle, disk) =>
    let handle := { handle with loadedChunkCount := handle.loadedChunkCount + 1 }
    (.ok (handle.header.entries (slot pos)).entryExists,
      ⟨update m.regions regionPos (some handle), disk⟩)

def releaseChunk (pos : ChunkPos) (outcome : HeaderWrite) : Except IoError Unit × RegionManager :=
  let regionPos := fromChunk pos
  match m.regions regionPos with
  | none => (.ok (), m)
  | some handle =>
    let handle := { handle with loadedChunkCount := handle.loadedChunkCount - 1 }
    if handle.loadedChunkCount = 0 then
      if handle.headerDirty then
        match writeHeader outcome (m.disk.fileOf regionPos) handle.header with
        | (result, file) => (result, m.put regionPos none file)
      else (.ok (), { m with regions := update m.regions regionPos none })
    else (.ok (), { m with regions := update m.regions regionPos (some handle) })

/-- Write the dirty tables among `order`, stopping at the first failure. -/
def flushAll (m : RegionManager) (outcome : RegionPos → HeaderWrite) :
    List RegionPos → Except IoError Unit × RegionManager
  | [] => (.ok (), m)
  | pos :: order =>
    match m.regions pos with
    | none => flushAll m outcome order
    | some handle =>
      if handle.headerDirty then
        match writeHeader (outcome pos) (m.disk.fileOf pos) handle.header with
        | (.error e, file) => (.error e, m.put pos (some handle) file)
        | (.ok (), file) =>
          flushAll (m.put pos (some { handle with headerDirty := false }) file) outcome order
      else flushAll m outcome order

/-- The loop of `close_all` over the drained handles; the rest is dropped on failure. -/
def closeHandles (m : RegionManager) (outcome : RegionPos → HeaderWrite) :
    List RegionPos → Except IoError Unit × RegionManager
  | [] => (.ok (), m)
  | pos :: order =>
    match m.regions pos with
    | none => closeHandles m outcome order
    | some handle =>
      if handle.headerDirty then
        match writeHeader (outcome pos) (m.disk.fileOf pos) handle.header with
        | (.error e, file) => (.error e, m.put pos none file)
        | (.ok (), file) => closeHandles (m.put pos none file) outcome order
      else closeHandles { m with regions := update m.regions pos none } outcome order

def closeAll (outcome : RegionPos → HeaderWrite)
    (order : List RegionPos) : Except IoError Unit × RegionManager :=
  match m.closeHandles outcome order with
  | (result, m) => (result, new m.disk)

variable {K} {m : RegionManager} {r : RegionPos} {handle : RegionHandle}
variable {prepared : PreparedChunkSave χ}

theorem saveChunkData_error {e : IoError}
    (h : encodeChunk K prepared = .error e) (outcome : HeaderWrite) :
    m.saveChunkData K prepared outcome = (.error e, m) := by
  simp [saveChunkData, h]

theorem saveChunkData_open {c : List UInt8}
    (h : encodeChunk K prepared = .ok c) (hr : fromChunk prepared.pos = r)
    (hm : m.regions r = some handle) (outcome : HeaderWrite) :
    m.saveChunkData K prepared outcome = (.ok true, m.put r
        (some { (handle.storeChunk (m.disk.fileOf r) (slot prepared.pos) c
          prepared.status).1 with headerDirty := true })
        (handle.storeChunk (m.disk.fileOf r) (slot prepared.pos) c
          prepared.status).2) := by
  subst hr
  simp [saveChunkData, h, getOrOpen, hm]

/-- A save into a closed region opens it, stores the payload and tries to close it. -/
theorem saveChunkData_closed {c : List UInt8} {disk : Disk}
    (h : encodeChunk K prepared = .ok c) (hr : fromChunk prepared.pos = r)
    (hm : m.regions r = none) (ho : openRegion m.disk r = (.ok handle, disk))
    (hcount : handle.loadedChunkCount = 0) (outcome : HeaderWrite) :
    m.saveChunkData K prepared outcome = match writeHeader outcome
        (handle.storeChunk (disk.fileOf r) (slot prepared.pos) c prepared.status).2
        (handle.storeChunk (disk.fileOf r) (slot prepared.pos) c
          prepared.status).1.header with
      | (.error e, file) => (.error e, RegionManager.put { m with disk } r
          (some (handle.storeChunk (disk.fileOf r) (slot prepared.pos) c
            prepared.status).1) file)
      | (.ok (), file) => (.ok true, RegionManager.put { m with disk } r none file) := by
  subst hr
  have hc : (handle.storeChunk (disk.fileOf (fromChunk prepared.pos))
      (slot prepared.pos) c prepared.status).1.loadedChunkCount = 0 := hcount
  simp [saveChunkData, h, getOrOpen, hm, ho, hc, ↓reduceIte]

theorem openRegion_files_of_ne (disk : Disk) (h : r ≠ pos) :
    (openRegion disk pos).2.files r = disk.files r := by
  unfold openRegion
  split
  · simp [createRegion, Disk.files_setFile_of_ne _ h]
  · split
    · rfl
    · dsimp only
      split
      · rfl
      · split
        · simp [createRegion, Disk.backup, Disk.setFile, h]
        · split
          · rfl
          · split
            · rfl
            · split <;> rfl

theorem getOrOpen_files_of_ne {pos : RegionPos} (h : r ≠ pos) :
    (m.getOrOpen pos).2.files r = m.disk.files r := by
  unfold getOrOpen
  split
  · rfl
  · exact openRegion_files_of_ne _ h

theorem saveChunkData_of_ne
    (hr : r ≠ fromChunk prepared.pos) (outcome : HeaderWrite) :
    (m.saveChunkData K prepared outcome).2.regions r = m.regions r ∧
      (m.saveChunkData K prepared outcome).2.disk.files r = m.disk.files r := by
  have hf := getOrOpen_files_of_ne (m := m) hr
  unfold saveChunkData
  split
  · exact ⟨rfl, rfl⟩
  · dsimp only
    split
    case h_1 disk hd =>
      rw [hd] at hf
      exact ⟨rfl, hf⟩
    case h_2 disk hd =>
      rw [hd] at hf
      split
      · split <;> simpa [put, hr, Disk.setFile] using hf
      · simpa [put, hr, Disk.setFile] using hf

theorem clearCorruptChunkIfUnchanged_open (hm : m.regions r = some handle)
    (index : Fin chunksPerRegion) (expected : ChunkEntry) (outcome : HeaderWrite) :
    m.clearCorruptChunkIfUnchanged r index expected outcome =
      ((handle.clearCorruptChunk (m.disk.fileOf r) index expected outcome).1,
        m.put r (some (handle.clearCorruptChunk (m.disk.fileOf r) index expected outcome).2.1)
          (handle.clearCorruptChunk (m.disk.fileOf r) index expected outcome).2.2) := by
  simp [clearCorruptChunkIfUnchanged, hm]

theorem clearCorruptChunkIfUnchanged_of_ne {pos : RegionPos} (hr : r ≠ pos)
    {index : Fin chunksPerRegion} {expected : ChunkEntry} {outcome : HeaderWrite} :
    (m.clearCorruptChunkIfUnchanged pos index expected outcome).2.regions r = m.regions r := by
  unfold clearCorruptChunkIfUnchanged
  split
  · rfl
  · simp [put, hr]

end RegionManager

end Steel
