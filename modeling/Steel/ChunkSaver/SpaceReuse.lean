import Steel.ChunkSaver.RegionContent
import Steel.ChunkSaver.SectorOwnership

/-! # Reuse of free sectors

The search for free sectors only looks below existing entries: free sectors behind the last entry
are passed over, and the file grows.
-/

namespace Steel

open RegionPos RegionHandle Disk List Nat
open RegionHeader (entryOf length_toBytes setEntry_of_ne setEntry_self usedRanges_single valid_new)

namespace RegionHeader

variable {h : RegionHeader} {needed fs cur : UInt32} {ranges : List (UInt32 × UInt32)}

/-- The existing entries lie in the data sectors of a file of `fs` sectors. -/
def EntriesWithin (h : RegionHeader) (fs : ℕ) : Prop :=
  ∀ i, (h.entries i).entryExists = true →
    3 ≤ (h.entries i).sectorOffset.toNat ∧ (h.entries i).endSector ≤ fs

/-- Some run of data sectors of the file belongs to no existing entry. -/
def HasFreeRun (h : RegionHeader) (needed fs : ℕ) : Prop :=
  ∃ start, 3 ≤ start ∧ start + needed ≤ fs ∧ ∀ s, start ≤ s → s < start + needed →
    ∀ i, (h.entries i).entryExists = true →
      ¬ ((h.entries i).sectorOffset.toNat ≤ s ∧ s < (h.entries i).endSector)

/-- Some run of data sectors misses every existing entry and ends below one of them. -/
def HasRunBelow (h : RegionHeader) (needed : ℕ) : Prop :=
  ∃ start, 3 ≤ start ∧
    (∀ i, (h.entries i).entryExists = true →
      (h.entries i).endSector ≤ start ∨ start + needed ≤ (h.entries i).sectorOffset.toNat) ∧
    ∃ i, (h.entries i).entryExists = true ∧ start + needed ≤ (h.entries i).sectorOffset.toNat

theorem Valid.entriesWithin {fs : ℕ} (hv : h.Valid fs) : h.EntriesWithin fs :=
  fun i hex => ⟨(hv.validIn i hex).start_ge, (hv.validIn i hex).end_le⟩

/-- Where a run misses all ranges and ends below one of them, so does the returned one. -/
theorem firstGap_below {start : ℕ} (hcur : cur.toNat ≤ start)
    (hmiss : ∀ r ∈ ranges, r.2.toNat ≤ start ∨ start + needed.toNat ≤ r.1.toNat)
    (hbelow : ∃ r ∈ ranges, start + needed.toNat ≤ r.1.toNat) :
    ∃ r ∈ ranges, (firstGap needed fs cur ranges).toNat + needed.toNat ≤ r.1.toNat := by
  induction ranges generalizing cur with
  | nil => simp at hbelow
  | cons r ranges ih =>
    obtain ⟨first, stop⟩ := r
    have hlt : cur.toNat + needed.toNat < 2 ^ 32 := by
      obtain ⟨r, -, hr⟩ := hbelow
      have := r.1.toNat_lt
      omega
    have hsum : (cur + needed).toNat = cur.toNat + needed.toNat := by
      rw [UInt32.toNat_add, mod_eq_of_lt hlt]
    rw [firstGap]
    split
    case isTrue hgap =>
      exact ⟨_, mem_cons_self, hsum ▸ UInt32.le_iff_toNat_le.mp hgap⟩
    case isFalse hgap =>
      have hhead : first.toNat < start + needed.toNat := by
        rw [ge_iff_le, UInt32.le_iff_toNat_le, hsum] at hgap
        omega
      have hstop : stop.toNat ≤ start := by
        rcases hmiss _ mem_cons_self with h | h
        · exact h
        · exact absurd h (not_le.mpr hhead)
      obtain ⟨r, hr, hle⟩ := ih (by rw [toNat_max]; exact max_le hcur hstop)
        (fun r hr => hmiss r (mem_cons_of_mem _ hr)) (by
          obtain ⟨r, hr, hle⟩ := hbelow
          rcases mem_cons.mp hr with rfl | hr
          · exact absurd hle (not_le.mpr hhead)
          · exact ⟨r, hr, hle⟩)
      exact ⟨r, mem_cons_of_mem _ hr, hle⟩

section

variable (hin : h.EntriesWithin fs.toNat)

include hin

theorem EntriesWithin.toNat_end {i : Fin chunksPerRegion} (hex : (h.entries i).entryExists = true) :
    ((h.entries i).sectorOffset + (h.entries i).sectorCount).toNat = (h.entries i).endSector := by
  have hend := (hin i hex).2
  have hfs := fs.toNat_lt
  unfold ChunkEntry.endSector at hend ⊢
  rw [UInt32.toNat_add, mod_eq_of_lt (by omega)]

theorem EntriesWithin.hasFreeRun (hb : h.HasRunBelow needed.toNat) :
    h.HasFreeRun needed.toNat fs.toNat := by
  obtain ⟨start, h3, hmiss, i, hex, hle⟩ := hb
  refine ⟨start, h3, ?_, ?_⟩
  · have hend := (hin i hex).2
    unfold ChunkEntry.endSector at hend
    omega
  · rintro s hs hlt j hexj ⟨h₁, h₂⟩
    have := hmiss j hexj
    omega

theorem EntriesWithin.findFreeSectors_le (hn : needed ≠ 0) (hb : h.HasRunBelow needed.toNat) :
    (h.findFreeSectors needed fs).toNat + needed.toNat ≤ fs.toNat := by
  obtain ⟨start, h3, hmiss, i, hex, hle⟩ := hb
  rw [findFreeSectors, if_neg hn]
  obtain ⟨r, hr, hr'⟩ := @firstGap_below needed fs firstDataSector h.usedRanges start h3
    (fun r hr => by
      obtain ⟨j, hexj, rfl⟩ := of_mem_usedRanges hr
      rw [hin.toNat_end hexj]
      exact hmiss j hexj)
    ⟨_, mem_usedRanges hex, hle⟩
  obtain ⟨j, hexj, rfl⟩ := of_mem_usedRanges hr
  have hend := (hin j hexj).2
  unfold ChunkEntry.endSector at hend
  dsimp only at hr'
  omega

theorem EntriesWithin.hasRunBelow (hn : needed ≠ 0)
    (hle : (h.findFreeSectors needed fs).toNat + needed.toNat ≤ fs.toNat) :
    h.HasRunBelow needed.toNat := by
  have hpos : 0 < needed.toNat := pos_of_ne_zero fun h0 => hn (UInt32.toNat_inj.mp h0)
  rw [findFreeSectors, if_neg hn] at hle
  obtain ⟨hmiss, hend⟩ := firstGap_spec h.usedRanges_sorted (hle.trans_lt fs.toNat_lt)
  refine ⟨_, @le_firstGap needed fs firstDataSector h.usedRanges, fun i hex => ?_, ?_⟩
  · have := hmiss _ (mem_usedRanges hex)
    rwa [hin.toNat_end hex] at this
  · rcases hend with hend | ⟨r, hr, hr'⟩
    · omega
    · obtain ⟨i, hex, rfl⟩ := of_mem_usedRanges hr
      exact ⟨i, hex, hr'⟩

/-- The search uses the room of the file exactly where a run below an entry is large enough. -/
theorem EntriesWithin.reuses_iff (hn : needed ≠ 0) :
    (h.HasFreeRun needed.toNat fs.toNat →
      (h.findFreeSectors needed fs).toNat + needed.toNat ≤ fs.toNat) ↔
    (h.HasFreeRun needed.toNat fs.toNat → h.HasRunBelow needed.toNat) := by
  constructor
  · intro hle hrun
    exact hin.hasRunBelow hn (hle hrun)
  · intro hb hrun
    exact hin.findFreeSectors_le hn (hb hrun)

end

end RegionHeader

def Disk.sectorsOf (d : Disk) (r : RegionPos) : ℕ := (d.fileOf r).length ⌈/⌉ sectorSize

theorem ceilDiv_sectorSize (n : ℕ) : n ⌈/⌉ sectorSize = (n + 4095) / 4096 := by
  rw [ceilDiv_eq_add_pred_div]; rfl

theorem length_writeHeader {file : ByteFile} (hlen : fileHeaderSize + chunkTableSize ≤ file.length)
    (outcome : HeaderWrite) (h : RegionHeader) :
    (writeHeader outcome file h).2.length = file.length := by
  have htable : h.toBytes.length = chunkTableSize := length_toBytes h
  have hwrite : ∀ bytes : List UInt8, bytes.length ≤ chunkTableSize →
      (file.writeAt fileHeaderSize bytes).length = file.length := by
    intro bytes hle
    by_cases hb : bytes = []
    · rw [hb, ByteFile.writeAt_nil]
    · rw [ByteFile.length_writeAt hb]
      exact Nat.max_eq_left (Nat.le_trans (Nat.add_le_add_left hle fileHeaderSize) hlen)
  have htake : ∀ n, (h.toBytes.take n).length ≤ chunkTableSize := fun n =>
    (length_take_le' n h.toBytes).trans_eq htable
  cases outcome with
  | ok =>
    have hok := hwrite h.toBytes htable.le
    dsimp only [writeHeader]
    exact hok
  | failed written e =>
    have hfailed := hwrite (h.toBytes.take written) (htake written)
    dsimp only [writeHeader]
    exact hfailed

namespace RegionManager

variable {χ Λ : Type} {K : ChunkCodec χ Λ} {m : RegionManager} {r : RegionPos}
  {handle : RegionHandle} {disk : Disk} {prepared : PreparedChunkSave χ} {c : List UInt8}

/-- Open regions have a valid table, and their file is as long as they take it to be. -/
def FilesKnown (m : RegionManager) : Prop :=
  ∀ r handle, m.regions r = some handle →
    handle.header.Valid handle.fileSectors.toNat ∧
    handle.fileSectors.toNat ≤ m.disk.sectorsOf r

/-- A region that opens has a valid table and a file that is as long as it takes it to be. -/
theorem openRegion_spec (ho : openRegion m.disk r = (.ok handle, disk)) :
    handle.header.Valid handle.fileSectors.toNat ∧
      handle.fileSectors.toNat ≤ disk.sectorsOf r := by
  have hcreate : ∀ d : Disk, (createRegion d r).1.header.Valid
      (createRegion d r).1.fileSectors.toNat ∧
      (createRegion d r).1.fileSectors.toNat ≤ (createRegion d r).2.sectorsOf r := by
    intro d
    refine ⟨valid_new _, ?_⟩
    rw [sectorsOf, createRegion, fileOf_setFile, length_append,
      length_toBytes, ceilDiv_sectorSize]
    exact le_rfl
  unfold openRegion at ho
  split at ho
  case h_1 => cases ho; exact hcreate _
  case h_2 file hfile =>
    split at ho
    case h_1 => cases ho
    case h_2 headerBytes hbytes =>
      split at ho
      case isTrue => cases ho
      case isFalse =>
        dsimp only at ho
        split at ho
        case isTrue => cases ho; exact hcreate _
        case isFalse =>
          split at ho
          case h_1 => cases ho
          case h_2 tableBytes htable =>
            split at ho
            case h_1 => cases ho
            case h_2 header hheader =>
              split at ho
              case h_1 => cases ho
              case h_2 hval =>
                cases ho
                refine ⟨(validateRegionEntries_eq_ok_iff _ _).mp hval, ?_⟩
                rw [sectorsOf, fileOf, hfile, UInt32.toNat_ofNat']
                exact mod_le _ _

theorem FilesKnown.getOrOpen (hm : m.FilesKnown) (ho : m.getOrOpen r = (.ok handle, disk)) :
    handle.header.Valid handle.fileSectors.toNat ∧
      handle.fileSectors.toNat ≤ disk.sectorsOf r := by
  unfold RegionManager.getOrOpen at ho
  split at ho
  case h_1 open_ hopen => cases ho; exact hm r _ hopen
  case h_2 => exact openRegion_spec ho

/-- The chosen sectors are data sectors, also where their end leaves the sector space. -/
theorem three_le_chooseSectors (hv : handle.header.Valid handle.fileSectors.toNat)
    (i : Fin chunksPerRegion) (hp : PayloadOk c) :
    3 ≤ (handle.chooseSectors i (sectorsFor c)).toNat := by
  have hn : sectorsFor c ≠ 0 := fun h0 => by
    have := sectorsFor_pos hp
    simp [h0] at this
  unfold chooseSectors
  dsimp only
  split
  case isTrue hold => exact (hv.validIn i hold.1).start_ge
  case isFalse =>
    rw [RegionHeader.findFreeSectors, if_neg hn]
    exact @RegionHeader.le_firstGap _ _ firstDataSector _

/-- A save that reaches the region's file stores the payload there; the table of the region
may be written behind it and the region closed. -/
theorem saveChunkData_stored (hc : encodeChunk K prepared = .ok c)
    (ho : m.getOrOpen (fromChunk prepared.pos) = (.ok handle, disk))
    (hv : handle.header.Valid handle.fileSectors.toNat) (hp : PayloadOk c)
    (outcome : HeaderWrite) :
    let r := fromChunk prepared.pos
    let stored := handle.storeChunk (disk.fileOf r) (slot prepared.pos) c prepared.status
    ((m.saveChunkData K prepared outcome).2.disk.fileOf r).length = stored.2.length ∧
    ∀ handle', (m.saveChunkData K prepared outcome).2.regions r = some handle' →
      handle'.header = stored.1.header ∧ handle'.fileSectors = stored.1.fileSectors := by
  dsimp only
  have hlen : fileHeaderSize + chunkTableSize ≤ (handle.storeChunk
      (disk.fileOf (fromChunk prepared.pos)) (slot prepared.pos) c
      prepared.status).2.length := by
    have h3 := three_le_chooseSectors hv (slot prepared.pos) hp
    have hsize : fileHeaderSize + chunkTableSize = 8200 := by decide
    rw [length_storeChunk _ _ _ _ hp, hsize]
    omega
  simp only [saveChunkData, hc, ho]
  generalize handle.storeChunk (disk.fileOf (fromChunk prepared.pos))
    (slot prepared.pos) c prepared.status = stored at hlen ⊢
  obtain ⟨handle', file⟩ := stored
  have hwrite := length_writeHeader hlen outcome handle'.header
  dsimp only at hwrite ⊢
  split
  · generalize writeHeader outcome file handle'.header = written at hwrite ⊢
    obtain ⟨result, file'⟩ := written
    cases result with
    | error e =>
      refine ⟨by simpa using hwrite, ?_⟩
      intro h heq
      rw [put_regions_self] at heq
      cases heq
      exact ⟨rfl, rfl⟩
    | ok _ =>
      refine ⟨by simpa using hwrite, ?_⟩
      intro h heq
      rw [put_regions_self] at heq
      cases heq
  · refine ⟨by simp, ?_⟩
    intro h heq
    rw [put_regions_self] at heq
    cases heq
    exact ⟨rfl, rfl⟩

theorem payloadOk_of_encode (hK : K.Inverse) (hc : encodeChunk K prepared = .ok c) :
    PayloadOk c :=
  ⟨hK.encode_ne_nil hc, (encodeChunk_eq_ok_iff.mp hc).choose_spec.2.2⟩

/-- A save that does not fit the old place of its chunk finds a run below an entry, if there is
room for it in the file at all. -/
def SaveReuses (K : ChunkCodec χ Λ) (m : RegionManager) (prepared : PreparedChunkSave χ) : Prop :=
  ∀ handle disk c, m.getOrOpen (fromChunk prepared.pos) = (.ok handle, disk) →
    encodeChunk K prepared = .ok c →
    let old := handle.header.entries (slot prepared.pos)
    ¬ (old.entryExists = true ∧ sectorsFor c ≤ old.sectorCount) →
    handle.header.HasFreeRun (sectorsFor c).toNat handle.fileSectors.toNat →
    handle.header.HasRunBelow (sectorsFor c).toNat

/-- The step of a run of saves, each with the outcome of the table write it may make. -/
def saveStep (K : ChunkCodec χ Λ) (m : RegionManager)
    (save : PreparedChunkSave χ × HeaderWrite) : RegionManager :=
  (m.saveChunkData K save.1 save.2).2

theorem sectorsOf_save (hc : encodeChunk K prepared = .ok c)
    (ho : m.getOrOpen (fromChunk prepared.pos) = (.ok handle, disk))
    (hv : handle.header.Valid handle.fileSectors.toNat) (hp : PayloadOk c)
    (outcome : HeaderWrite) :
    (m.saveChunkData K prepared outcome).2.disk.sectorsOf (fromChunk prepared.pos) =
      max (disk.sectorsOf (fromChunk prepared.pos))
        ((handle.chooseSectors (slot prepared.pos) (sectorsFor c)).toNat +
          (sectorsFor c).toNat) := by
  rw [sectorsOf, (saveChunkData_stored hc ho hv hp outcome).1, length_storeChunk _ _ _ _ hp,
    ceilDiv_sectorSize, sectorsOf, ceilDiv_sectorSize]
  omega

theorem FilesKnown.save (hK : K.Inverse) (hm : m.FilesKnown) (hf : m.SaveFits K prepared)
    (outcome : HeaderWrite) : (m.saveChunkData K prepared outcome).2.FilesKnown := by
  cases hc : encodeChunk K prepared with
  | error e => rw [saveChunkData_error hc]; exact hm
  | ok c =>
    have hp := payloadOk_of_encode hK hc
    intro r handle' hopen
    by_cases hr : r = fromChunk prepared.pos
    · subst hr
      rcases ho : m.getOrOpen (fromChunk prepared.pos) with ⟨e | handle, disk⟩
      · have hclosed : m.regions (fromChunk prepared.pos) = none := by
          unfold RegionManager.getOrOpen at ho
          split at ho
          · cases ho
          · assumption
        simp only [saveChunkData, hc, ho, hclosed] at hopen
        cases hopen
      · have hv := (hm.getOrOpen ho).1
        have hfit := hf handle c (by rw [ho]) hc
        obtain ⟨hheader, hsectors⟩ := (saveChunkData_stored hc ho hv hp outcome).2 handle' hopen
        rw [hheader, hsectors]
        refine ⟨valid_storeChunk _ _ hv hp hfit, ?_⟩
        rw [toNat_storeChunk_fileSectors _ _ hfit, sectorsOf_save hc ho hv hp]
        exact max_le_max_right _ (hm.getOrOpen ho).2
    · have hsame := saveChunkData_of_ne (K := K) (m := m) hr outcome
      rw [hsame.1] at hopen
      have := hm r handle' hopen
      rw [sectorsOf, fileOf, hsame.2]
      exact this

/-- A save that reuses its old place, or finds a run below an entry where there is room, keeps
its file as long as it was. -/
theorem sectorsOf_save_of_reuses (hm : m.FilesKnown)
    (ho : m.getOrOpen (fromChunk prepared.pos) = (.ok handle, disk))
    (hc : encodeChunk K prepared = .ok c) (hp : PayloadOk c) (hreuse : m.SaveReuses K prepared)
    (hrun : handle.header.HasFreeRun (sectorsFor c).toNat handle.fileSectors.toNat)
    (outcome : HeaderWrite) :
    (m.saveChunkData K prepared outcome).2.disk.sectorsOf (fromChunk prepared.pos) =
      disk.sectorsOf (fromChunk prepared.pos) := by
  obtain ⟨hv, hlen⟩ := hm.getOrOpen ho
  have hn : sectorsFor c ≠ 0 := fun h0 => by
    have := sectorsFor_pos hp
    simp [h0] at this
  have hend : (handle.chooseSectors (slot prepared.pos) (sectorsFor c)).toNat +
      (sectorsFor c).toNat ≤ handle.fileSectors.toNat := by
    have hbelow := hreuse handle disk c ho hc
    unfold chooseSectors
    dsimp only at hbelow ⊢
    split
    case isTrue hold =>
      have hold_end := (hv.validIn _ hold.1).end_le
      have hcount := UInt32.le_iff_toNat_le.mp hold.2
      unfold ChunkEntry.endSector at hold_end
      omega
    case isFalse hold =>
      exact hv.entriesWithin.findFreeSectors_le hn (hbelow hold hrun)
  rw [sectorsOf_save hc ho hv hp]
  exact max_eq_left (hend.trans hlen)

/-- The search for free sectors uses the room of a file exactly where a large enough run lies
below an existing entry. In a run of saves that only meets such tables, a file with a large
enough free run does not grow. -/
theorem free_sectors_reused (K : ChunkCodec χ Λ) (hK : K.Inverse) :
    (∀ (h : RegionHeader) (needed fs : UInt32), h.EntriesWithin fs.toNat → needed ≠ 0 →
      ((h.HasFreeRun needed.toNat fs.toNat →
          (h.findFreeSectors needed fs).toNat + needed.toNat ≤ fs.toNat) ↔
        (h.HasFreeRun needed.toNat fs.toNat → h.HasRunBelow needed.toNat))) ∧
    ∀ (m : RegionManager) (saves : List (PreparedChunkSave χ × HeaderWrite)), m.FilesKnown →
      Guarded (saveStep K) (fun m save => m.SaveFits K save.1 ∧ m.SaveReuses K save.1) m saves →
      ∀ before prepared outcome after, saves = before ++ (prepared, outcome) :: after →
        ∀ handle disk c,
          (runSteps (saveStep K) m before).getOrOpen (fromChunk prepared.pos) =
            (.ok handle, disk) →
          encodeChunk K prepared = .ok c →
          handle.header.HasFreeRun (sectorsFor c).toNat handle.fileSectors.toNat →
          (runSteps (saveStep K) m (before ++ [(prepared, outcome)])).disk.sectorsOf
              (fromChunk prepared.pos) =
            disk.sectorsOf (fromChunk prepared.pos) := by
  constructor
  · intro h needed fs hin hn
    exact hin.reuses_iff hn
  · rintro m saves hm hg before prepared outcome after rfl handle disk c ho hc hrun
    obtain ⟨hbefore, hsave, -⟩ := guarded_append.mp hg
    have hknown : (runSteps (saveStep K) m before).FilesKnown :=
      hbefore.invariant (fun m save hm hfit => hm.save hK hfit.1 save.2) hm
    rw [runSteps_append]
    exact sectorsOf_save_of_reuses hknown ho hc (payloadOk_of_encode hK hc) hsave.2 hrun outcome

/-- A region of five sectors with one chunk in the last of them. -/
def lastSectorOnly : RegionHandle :=
  ⟨RegionHeader.new.setEntry (slot ⟨1, 0⟩) (entryOf 4 [0] .full), 1,
    false, 5⟩

def lastSectorOpen : RegionManager :=
  (new empty).put (fromChunk origin) (some lastSectorOnly)
    (List.replicate 20480 0)

theorem lastSectorOpen_getOrOpen : lastSectorOpen.getOrOpen (fromChunk origin) =
    (.ok lastSectorOnly, lastSectorOpen.disk) := by
  rw [getOrOpen, lastSectorOpen, put_regions_self]

theorem sectorsOf_lastSectorOpen :
    lastSectorOpen.disk.sectorsOf (fromChunk origin) = 5 := by
  have hfile : lastSectorOpen.disk.fileOf (fromChunk origin) = List.replicate 20480 0 :=
    put_fileOf_self ..
  rw [sectorsOf, hfile, length_replicate, ceilDiv_sectorSize]

theorem single_entry {i j : Fin chunksPerRegion} {e : ChunkEntry}
    (hex : ((RegionHeader.new.setEntry i e).entries j).entryExists = true) : j = i := by
  by_contra hne
  rw [setEntry_of_ne _ hne] at hex
  simp at hex

theorem valid_single {i : Fin chunksPerRegion} {e : ChunkEntry} {fs : ℕ} (he : e.ValidIn fs) :
    (RegionHeader.new.setEntry i e).Valid fs := by
  constructor
  · intro j hex
    obtain rfl := single_entry hex
    rwa [setEntry_self]
  · intro j k hne hj hk
    exact absurd ((single_entry hj).trans (single_entry hk).symm) hne

theorem valid_lastSectorOnly :
    lastSectorOnly.header.Valid lastSectorOnly.fileSectors.toNat :=
  valid_single ⟨by decide, by decide, by decide, by decide⟩

theorem filesKnown_lastSectorOpen : lastSectorOpen.FilesKnown := by
  intro r handle hopen
  by_cases hr : r = fromChunk origin
  · subst hr
    rw [lastSectorOpen, put_regions_self] at hopen
    obtain rfl := Option.some.inj hopen
    exact ⟨valid_lastSectorOnly, sectorsOf_lastSectorOpen.ge⟩
  · rw [lastSectorOpen, put_regions_of_ne _ hr] at hopen
    cases hopen

theorem usedRanges_lastSectorOnly : lastSectorOnly.header.usedRanges = [(4, 5)] := by
  rw [lastSectorOnly, usedRanges_single _ (by decide)]
  decide

theorem chooseSectors_lastSectorOnly :
    lastSectorOnly.chooseSectors (slot origin) (sectorsFor [0]) = 3 := by
  have hold : ((lastSectorOnly.header.entries (slot origin)).entryExists) = false := by
    rw [lastSectorOnly, setEntry_of_ne _ (by decide)]
    rfl
  rw [chooseSectors]
  simp only [hold, Bool.false_eq_true, false_and, ↓reduceIte]
  rw [RegionHeader.findFreeSectors, usedRanges_lastSectorOnly]
  decide

theorem missed_lastSectorOnly {j : Fin chunksPerRegion}
    (hex : (lastSectorOnly.header.entries j).entryExists = true) :
    3 + 1 ≤ (lastSectorOnly.header.entries j).sectorOffset.toNat := by
  obtain rfl := single_entry hex
  rw [lastSectorOnly, setEntry_self]
  decide

theorem hasRunBelow_lastSectorOnly : lastSectorOnly.header.HasRunBelow 1 := by
  refine ⟨3, le_rfl, fun j hex => .inr (missed_lastSectorOnly hex), slot ⟨1, 0⟩, ?_, ?_⟩
  · rw [lastSectorOnly, setEntry_self]
    decide
  · rw [lastSectorOnly, setEntry_self]
    decide

theorem guarded_lastSectorOpen : Guarded (saveStep .framed)
    (fun m save => m.SaveFits .framed save.1 ∧ m.SaveReuses .framed save.1) lastSectorOpen
    [(oneByte, .ok)] := by
  refine ⟨⟨?_, ?_⟩, trivial⟩
  · intro handle c ho hc
    obtain rfl := Except.ok.inj (encode_oneByte.symm.trans hc)
    rw [show fromChunk oneByte.pos = fromChunk origin from rfl,
      lastSectorOpen_getOrOpen] at ho
    obtain rfl := Except.ok.inj ho
    rw [RegionHandle.Fits, show slot oneByte.pos = slot origin from rfl,
      chooseSectors_lastSectorOnly]
    decide
  · intro handle disk c ho hc
    obtain rfl := Except.ok.inj (encode_oneByte.symm.trans hc)
    rw [show fromChunk oneByte.pos = fromChunk origin from rfl,
      lastSectorOpen_getOrOpen] at ho
    obtain rfl := Except.ok.inj (Prod.mk.inj ho).1
    intro _ _ _
    rw [toNat_sectorsFor_oneByte]
    exact hasRunBelow_lastSectorOnly

theorem free_sectors_reused_lastSector :
    (runSteps (saveStep .framed) lastSectorOpen [(oneByte, .ok)]).disk.sectorsOf
      (fromChunk origin) = 5 := by
  refine ((free_sectors_reused .framed ChunkCodec.framed_inverse).2 lastSectorOpen
    [(oneByte, .ok)] filesKnown_lastSectorOpen guarded_lastSectorOpen [] oneByte .ok [] rfl
    lastSectorOnly _ [0] lastSectorOpen_getOrOpen encode_oneByte ?_).trans sectorsOf_lastSectorOpen
  rw [toNat_sectorsFor_oneByte]
  exact @RegionHeader.EntriesWithin.hasFreeRun _ 1 _ valid_lastSectorOnly.entriesWithin
    hasRunBelow_lastSectorOnly

/-- A region of five sectors with one chunk in the first data sector, as a chunk of two sectors
leaves it that is then saved with one. -/
def firstSectorOnly : RegionHeader :=
  RegionHeader.new.setEntry (slot origin) (entryOf 3 [0] .full)

/-- The free last sector is not found: the next chunk goes behind it. -/
theorem free_tail_not_reused :
    ¬ ∀ (h : RegionHeader) (needed fs : UInt32), h.Valid fs.toNat → needed ≠ 0 →
      h.HasFreeRun needed.toNat fs.toNat →
        (h.findFreeSectors needed fs).toNat + needed.toNat ≤ fs.toNat := by
  intro hall
  have hvalid : firstSectorOnly.Valid 5 :=
    valid_single ⟨by decide, by decide, by decide, by decide⟩
  have hrun : firstSectorOnly.HasFreeRun 1 5 := by
    refine ⟨4, by omega, by omega, ?_⟩
    rintro s hs hlt j hex ⟨hstart, hend⟩
    obtain rfl := single_entry hex
    rw [firstSectorOnly, setEntry_self] at hend
    have hfour : (entryOf 3 [0] .full).endSector = 4 := by decide
    omega
  have hused : firstSectorOnly.usedRanges = [(3, 4)] := by
    rw [firstSectorOnly, usedRanges_single _ (by decide)]
    decide
  have hle := hall firstSectorOnly 1 5 hvalid (by decide) hrun
  rw [RegionHeader.findFreeSectors, hused] at hle
  exact absurd hle (by decide)

end RegionManager

end Steel
