import Steel.Lib.Run
import Steel.ChunkSaver.Allocation

/-! # Sector ownership in an open region

Saves and clears keep the sector ranges of an open region disjoint and inside the file, as long as
no save reaches the end of the 32-bit sector space.
-/

namespace Steel

open RegionHeader RegionPos RegionHandle

namespace RegionHandle

/-- The ranges of the existing entries are disjoint data sectors of the file. -/
def SectorsOwned (handle : RegionHandle) : Prop :=
  (∀ i j, i ≠ j → (handle.header.entries i).entryExists = true →
    (handle.header.entries j).entryExists = true →
    (handle.header.entries i).Disjoint (handle.header.entries j)) ∧
  ∀ i, (handle.header.entries i).entryExists = true →
    firstDataSector ≤ (handle.header.entries i).sectorOffset ∧
    (handle.header.entries i).endSector ≤ handle.fileSectors.toNat

theorem SectorsOwned.of_valid {handle : RegionHandle}
    (hv : handle.header.Valid handle.fileSectors.toNat) : handle.SectorsOwned :=
  ⟨hv.disjoint, fun i hex => ⟨(hv.validIn i hex).start_ge, (hv.validIn i hex).end_le⟩⟩

end RegionHandle

namespace RegionManager

variable {χ Λ : Type} (K : ChunkCodec χ Λ)

/-- A save or a clear, with the outcome of the table write it may make. -/
inductive TableOp (χ : Type) where
  | save (prepared : PreparedChunkSave χ) (outcome : HeaderWrite)
  | clear (regionPos : RegionPos) (index : Fin chunksPerRegion) (expected : ChunkEntry)
      (outcome : HeaderWrite)

def TableOp.step (m : RegionManager) : TableOp χ → RegionManager
  | .save prepared outcome => (m.saveChunkData K prepared outcome).2
  | .clear regionPos index expected outcome =>
    (m.clearCorruptChunkIfUnchanged regionPos index expected outcome).2

/-- The sectors chosen for the payload end inside the 32-bit sector space. -/
def SaveFits (m : RegionManager) (prepared : PreparedChunkSave χ) : Prop :=
  ∀ handle compressed, (m.getOrOpen (fromChunk prepared.pos)).1 = .ok handle →
    encodeChunk K prepared = .ok compressed →
    handle.Fits (slot prepared.pos) compressed

def TableOp.Fits (m : RegionManager) : TableOp χ → Prop
  | .save prepared _ => m.SaveFits K prepared
  | .clear .. => True

variable {K} {m : RegionManager} {r : RegionPos} {handle : RegionHandle}

/-- Some handle of the region is open and has a valid table. -/
def OpenValid (m : RegionManager) (r : RegionPos) : Prop :=
  ∃ handle, m.regions r = some handle ∧ handle.header.Valid handle.fileSectors.toNat

theorem OpenValid.save (hK : K.Inverse) {prepared : PreparedChunkSave χ} (outcome : HeaderWrite)
    (hv : m.OpenValid r) (hf : m.SaveFits K prepared) :
    (m.saveChunkData K prepared outcome).2.OpenValid r := by
  obtain ⟨handle, hm, hval⟩ := hv
  by_cases hr : r = fromChunk prepared.pos
  · cases he : encodeChunk K prepared with
    | error e => rw [saveChunkData_error he]; exact ⟨handle, hm, hval⟩
    | ok c =>
      have hc : PayloadOk c := ⟨hK.encode_ne_nil he, (encodeChunk_eq_ok_iff.mp he).choose_spec.2.2⟩
      have hfit : handle.Fits (slot prepared.pos) c :=
        hf handle c (by rw [getOrOpen, ← hr, hm]) he
      rw [saveChunkData_open he hr.symm hm]
      exact ⟨_, put_regions_self .., valid_storeChunk prepared.status
        (m.disk.fileOf r) hval hc hfit⟩
  · exact ⟨handle, (saveChunkData_of_ne hr outcome).1.trans hm, hval⟩

theorem OpenValid.clear {pos : RegionPos} (index : Fin chunksPerRegion) (expected : ChunkEntry)
    (outcome : HeaderWrite) (hv : m.OpenValid r) :
    (m.clearCorruptChunkIfUnchanged pos index expected outcome).2.OpenValid r := by
  obtain ⟨handle, hm, hval⟩ := hv
  by_cases hr : r = pos
  · subst hr
    simp only [clearCorruptChunkIfUnchanged, hm]
    refine ⟨_, put_regions_self .., ?_⟩
    rcases handle.clearCorruptChunk_cases (m.disk.fileOf r) index expected outcome with
      he | ⟨-, he⟩
    · rwa [he]
    · rw [he]; exact valid_clear hval index
  · refine ⟨handle, ?_, hval⟩
    rw [clearCorruptChunkIfUnchanged_of_ne hr]
    exact hm

/-- Saves and clears, in any order and with any payloads the encoder accepts, keep the
sectors of an open region owned by one chunk each and its table acceptable, as long as
every save stays inside the sector space. -/
theorem sectorsOwned_of_fits (K : ChunkCodec χ Λ) (hK : K.Inverse) (m : RegionManager)
    (r : RegionPos) (handle : RegionHandle) (hr : m.regions r = some handle)
    (hv : validateRegionEntries handle.header handle.fileSectors = .ok ())
    (ops : List (TableOp χ)) (hops : Guarded (TableOp.step K) (TableOp.Fits K) m ops) :
    ∃ handle', (runSteps (TableOp.step K) m ops).regions r = some handle' ∧ handle'.SectorsOwned ∧
      validateRegionEntries handle'.header handle'.fileSectors = .ok () := by
  have hinv : (runSteps (TableOp.step K) m ops).OpenValid r := by
    refine hops.invariant (I := fun m => m.OpenValid r) ?_
      ⟨handle, hr, (validateRegionEntries_eq_ok_iff _ _).mp hv⟩
    intro m op hm hfit
    cases op with
    | save prepared outcome => exact hm.save hK outcome hfit
    | clear pos index expected outcome => exact hm.clear index expected outcome
  obtain ⟨handle', hm, hval⟩ := hinv
  exact ⟨handle', hm, .of_valid hval, (validateRegionEntries_eq_ok_iff _ _).mpr hval⟩

def origin : ChunkPos := ⟨0, 0⟩

def openOrigin : RegionManager := ((new Disk.empty).acquireChunk origin).2

def oneByte : PreparedChunkSave (List UInt8) := ⟨origin, .full, []⟩

/-- Save the chunk and clear it again, `n` times. Space at the end of the file is not reused, so
this walks through the whole sector space. -/
def leakOps (n : ℕ) : List (TableOp (List UInt8)) :=
  (List.range n).flatMap fun k =>
    [.save oneByte .ok, .clear (fromChunk origin) (slot origin)
      (RegionHeader.entryOf (UInt32.ofNat (3 + k)) [0] .full) .ok]

theorem encode_oneByte : encodeChunk .framed oneByte = .ok [0] :=
  encodeChunk_framed (by decide)

def newHandle : RegionHandle := ⟨.new, 1, false, firstDataSector⟩

theorem openOrigin_regions : openOrigin.regions (fromChunk origin) = some newHandle := by
  simp [openOrigin, acquireChunk, getOrOpen, new, openRegion, Disk.empty, createRegion, newHandle]

theorem chooseSectors_oneByte {handle : RegionHandle} (hh : handle.header = .new)
    (i : Fin chunksPerRegion) (h3 : 3 ≤ handle.fileSectors.toNat) :
    handle.chooseSectors i (sectorsFor [0]) = handle.fileSectors := by
  apply UInt32.toNat_inj.mp
  simp only [chooseSectors, hh, new_entries,
    ChunkEntry.entryExists_empty, Bool.false_eq_true, false_and, ↓reduceIte,
    RegionHeader.findFreeSectors, usedRanges_new]
  rw [if_neg (by decide), RegionHeader.firstGap, toNat_max]
  exact max_eq_right h3

theorem payloadOk_oneByte : PayloadOk [0] := ⟨by simp, by decide⟩

theorem toNat_sectorsFor_oneByte : (sectorsFor [0]).toNat = 1 := toNat_sectorsFor payloadOk_oneByte

theorem chooseSectors_newHandle (i : Fin chunksPerRegion) :
    newHandle.chooseSectors i (sectorsFor [0]) = firstDataSector :=
  chooseSectors_oneByte rfl i (by simp [newHandle])

theorem fits_newHandle (i : Fin chunksPerRegion) : newHandle.Fits i [0] := by
  rw [RegionHandle.Fits, chooseSectors_newHandle, toNat_sectorsFor_oneByte]
  simp

theorem saveFits_of_all {prepared : PreparedChunkSave (List UInt8)}
    (h : (m.getOrOpen (fromChunk prepared.pos)).1.toOption.all (fun handle =>
      (encodeChunk .framed prepared).toOption.all fun c =>
        (handle.chooseSectors (slot prepared.pos) (sectorsFor c)).toNat +
          (sectorsFor c).toNat < 2 ^ 32) = true) : m.SaveFits .framed prepared := by
  intro handle c ho hc
  rw [ho, hc] at h
  unfold RegionHandle.Fits
  exact of_decide_eq_true h

theorem saveFits_openOrigin : openOrigin.SaveFits .framed oneByte :=
  saveFits_of_all (by decide +kernel)

/-- A chunk grows and moves; another one takes its place, and the first one is cleared. -/
def movingOps : List (TableOp (List UInt8)) :=
  [.save oneByte .ok, .save ⟨origin, .full, List.replicate 4096 0⟩ .ok,
    .save ⟨⟨1, 0⟩, .full, []⟩ .ok,
    .clear (fromChunk origin) (slot origin)
      (RegionHeader.entryOf 4 (0 :: List.replicate 4096 0) .full) .ok]

theorem sectorsOwned_movingOps :
    ∃ handle', (runSteps (TableOp.step .framed) openOrigin movingOps).regions
        (fromChunk origin) = some handle' ∧ handle'.SectorsOwned ∧
      validateRegionEntries handle'.header handle'.fileSectors = .ok () :=
  sectorsOwned_of_fits .framed ChunkCodec.framed_inverse openOrigin _ _ openOrigin_regions
    ((validateRegionEntries_eq_ok_iff _ _).mpr (valid_new _)) _
    ⟨saveFits_openOrigin, saveFits_of_all (by decide +kernel), saveFits_of_all (by decide +kernel),
      trivial, trivial⟩

/-- One round of saving and clearing moves the end of the file by one sector. -/
theorem leak_round {m : RegionManager} {handle : RegionHandle} {k : ℕ}
    (hm : m.regions (fromChunk origin) = some handle) (hh : handle.header = .new)
    (hk : handle.fileSectors.toNat = 3 + k) (hlt : 3 + k + 1 < 2 ^ 32) :
    ∃ handle', (runSteps (TableOp.step .framed) m
        [.save oneByte .ok, .clear (fromChunk origin) (slot origin)
          (RegionHeader.entryOf (UInt32.ofNat (3 + k)) [0] .full) .ok]).regions
          (fromChunk origin) = some handle' ∧
      handle'.header = .new ∧ handle'.fileSectors.toNat = 3 + (k + 1) := by
  have hoff := chooseSectors_oneByte hh (slot origin) (by omega)
  have hfs : UInt32.ofNat (3 + k) = handle.fileSectors := by
    rw [← hk, UInt32.ofNat_toNat]
  have hfit : handle.Fits (slot origin) [0] := by
    rw [RegionHandle.Fits, hoff, toNat_sectorsFor_oneByte]; omega
  have hgrow := toNat_storeChunk_fileSectors .full
    (m.disk.fileOf (fromChunk origin)) hfit
  rw [hoff, toNat_sectorsFor_oneByte, max_eq_right (by omega)] at hgrow
  simp only [runSteps, TableOp.step]
  rw [saveChunkData_open encode_oneByte (r := fromChunk origin) rfl hm,
    clearCorruptChunkIfUnchanged_open (put_regions_self ..), put_regions_self,
    clearCorruptChunk_of_eq]
  · refine ⟨_, rfl, ?_, hgrow.trans (by omega)⟩
    simp only [storeChunk_header, hh]
    exact (setEntry_setEntry ..).trans (new_setEntry_empty _)
  · simp only [storeChunk_header]
    rw [hfs, ← hoff]
    exact setEntry_self ..

theorem leakOps_run {n : ℕ} (hn : 3 + n < 2 ^ 32) :
    ∃ handle, (runSteps (TableOp.step .framed) openOrigin (leakOps n)).regions
        (fromChunk origin) = some handle ∧
      handle.header = .new ∧ handle.fileSectors.toNat = 3 + n := by
  induction n with
  | zero => exact ⟨_, openOrigin_regions, rfl, rfl⟩
  | succ n ih =>
    obtain ⟨handle, hm, hh, hk⟩ := ih (by omega)
    rw [leakOps, List.range_succ, List.flatMap_append, runSteps_append, List.flatMap_singleton]
    exact leak_round hm hh hk (by omega)

theorem leakOps_overflow {n : ℕ} (hn : 3 + n + 1 = 2 ^ 32) :
    ∃ handle, (runSteps (TableOp.step .framed) openOrigin
        (leakOps n ++ [.save oneByte .ok])).regions (fromChunk origin) = some handle ∧
      ¬ handle.SectorsOwned ∧
      validateRegionEntries handle.header handle.fileSectors ≠ .ok () := by
  obtain ⟨handle, hm, hh, hk⟩ := leakOps_run (n := n) (by omega)
  rw [runSteps_append]
  generalize runSteps (TableOp.step .framed) openOrigin (leakOps n) = m at hm
  have hoff := chooseSectors_oneByte hh (slot origin) (by omega)
  simp only [runSteps, TableOp.step]
  rw [saveChunkData_open encode_oneByte (r := fromChunk origin) rfl hm]
  refine ⟨_, put_regions_self .., ?_⟩
  have hrow : ∀ h : RegionHandle, h.header = handle.header.setEntry (slot origin)
      (RegionHeader.entryOf handle.fileSectors [0] .full) →
      (h.header.entries (slot origin)).entryExists = true ∧
      2 ^ 32 ≤ (h.header.entries (slot origin)).endSector := by
    intro h he
    rw [he, setEntry_self, endSector_entryOf payloadOk_oneByte,
      toNat_sectorsFor_oneByte, ChunkEntry.entryExists_iff_toNat]
    simp only [RegionHeader.entryOf]
    omega
  obtain ⟨hex, hend⟩ := hrow
    { (handle.storeChunk (m.disk.fileOf (fromChunk origin)) (slot origin) [0]
      .full).1 with headerDirty := true } (by simp only [storeChunk_header, hoff])
  refine ⟨fun ho => ?_, fun hv => ?_⟩
  · have h₁ := (ho.2 _ hex).2
    have h₂ := UInt32.toNat_lt (handle.storeChunk (m.disk.fileOf (fromChunk origin))
      (slot origin) [0] .full).1.fileSectors
    simp only [oneByte] at h₁ hend
    omega
  · have h₁ := (((validateRegionEntries_eq_ok_iff _ _).mp hv).validIn _ hex).end_le
    have h₂ := UInt32.toNat_lt (handle.storeChunk (m.disk.fileOf (fromChunk origin))
      (slot origin) [0] .full).1.fileSectors
    simp only [oneByte] at h₁ hend
    omega

/-- A new region is valid, and a run of saves and clears breaks it. -/
theorem sector_space_overflow :
    (∃ handle, openOrigin.regions (fromChunk origin) = some handle ∧
      validateRegionEntries handle.header handle.fileSectors = .ok ()) ∧
    ∃ handle, (runSteps (TableOp.step .framed) openOrigin
        (leakOps 4294967292 ++ [.save oneByte .ok])).regions (fromChunk origin) =
          some handle ∧
      ¬ handle.SectorsOwned ∧
      validateRegionEntries handle.header handle.fileSectors ≠ .ok () :=
  ⟨⟨_, openOrigin_regions, (validateRegionEntries_eq_ok_iff _ _).mpr (valid_new _)⟩,
    leakOps_overflow (by norm_num)⟩

end RegionManager

end Steel
