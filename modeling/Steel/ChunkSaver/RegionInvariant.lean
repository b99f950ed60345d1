import Steel.ChunkSaver.SectorOwnership
import Steel.ChunkSaver.RegionContent

/-! # The invariant of the region manager

The table that counts is the one in memory while a region is open and the one in the file while it
is closed.
-/

namespace Steel

open Function RegionPos RegionHeader

namespace HeaderWrite

def Complete (o : HeaderWrite) (file : ByteFile) (header : RegionHeader) : Prop :=
  (writeHeader o file header).2 = file.writeAt fileHeaderSize header.toBytes

def Untorn (o : HeaderWrite) (file : ByteFile) (header : RegionHeader) : Prop :=
  (writeHeader o file header).2 = file ∨ o.Complete file header

theorem complete_ok (file : ByteFile) (header : RegionHeader) : Complete .ok file header := by
  simp only [Complete, writeHeader]

theorem untorn_ok (file : ByteFile) (header : RegionHeader) : Untorn .ok file header :=
  .inr (complete_ok file header)

end HeaderWrite

theorem update_none_imp {tracked : Tracked} {p q : ChunkPos} {cell : Cell}
    (h : update tracked p none q = some cell) : tracked q = some cell := by
  by_cases hqp : q = p
  · subst hqp; simp at h
  · simpa [hqp] using h

/-- Handle and file of a region know the cells of its tracked chunks. -/
def RegionInv (r : RegionPos) (tracked : Tracked) : Option RegionHandle → Option ByteFile → Prop
  | none, none => ∀ p cell, fromChunk p = r → tracked p = some cell → cell = none
  | none, some file => ∃ header fs, Describes r tracked header fs file ∧ OnDisk file header
  | some _, none => False
  | some handle, some file =>
    Describes r tracked handle.header handle.fileSectors file ∧
      (handle.headerDirty = false → ∃ header,
        Describes r tracked header handle.fileSectors file ∧ OnDisk file header)

variable {p : ChunkPos} {fs : UInt32} {header : RegionHeader}

theorem Describes.found_eq {r : RegionPos} {tracked : Tracked}
    {file : ByteFile} (h : Describes r tracked header fs file)
    {cell : Cell} (hp : fromChunk p = r) (hc : tracked p = some cell) :
    (header.entries (slot p)).entryExists = cell.isSome := by
  have hl := h.leads p cell hp hc
  cases cell with
  | none => exact hl
  | some v => exact hl.1

namespace RegionInv

variable {r : RegionPos} {tracked tracked' : Tracked} {handle : RegionHandle} {file : ByteFile}

theorem weaken {oh : Option RegionHandle} {of : Option ByteFile} (h : RegionInv r tracked oh of)
    (ht : ∀ p cell, fromChunk p = r → tracked' p = some cell → tracked p = some cell) :
    RegionInv r tracked' oh of := by
  match oh, of, h with
  | none, none, h => exact fun p cell hp hc => h p cell hp (ht p cell hp hc)
  | none, some file, ⟨header, fs, hd, ho⟩ => exact ⟨header, fs, hd.weaken ht, ho⟩
  | some handle, some file, ⟨hd, ho⟩ =>
    refine ⟨hd.weaken ht, fun hclean => ?_⟩
    obtain ⟨header, hd', hdisk⟩ := ho hclean
    exact ⟨header, hd'.weaken ht, hdisk⟩

theorem count (h : RegionInv r tracked (some handle) (some file)) (n : ℕ) :
    RegionInv r tracked (some { handle with loadedChunkCount := n }) (some file) := h

theorem drop_clean (h : RegionInv r tracked (some handle) (some file))
    (hclean : handle.headerDirty = false) : RegionInv r tracked none (some file) := by
  obtain ⟨header, hd, hdisk⟩ := h.2 hclean
  exact ⟨header, handle.fileSectors, hd, hdisk⟩

theorem written (h : Describes r tracked header fs file) :
    Describes r tracked header fs (file.writeAt fileHeaderSize header.toBytes) ∧
      OnDisk (file.writeAt fileHeaderSize header.toBytes) header :=
  ⟨h.writeTable (length_toBytes _).le, Describes.onDisk_writeTable _ _⟩

/-- A table write, even a failed one, does not disturb what another table describes. -/
theorem writeHeader {header header' : RegionHeader}
    (h : Describes r tracked header fs file) (o : HeaderWrite) :
    Describes r tracked header fs (Steel.writeHeader o file header').2 := by
  cases o with
  | ok =>
    simp only [Steel.writeHeader]
    exact h.writeTable (length_toBytes _).le
  | failed written e =>
    simp only [Steel.writeHeader]
    exact h.writeTable ((List.length_take_le' _ _).trans (length_toBytes _).le)

theorem forget {oh : Option RegionHandle} {of : Option ByteFile} (h : RegionInv r tracked oh of)
    (p : ChunkPos) : RegionInv r (update tracked p none) oh of :=
  h.weaken fun _ _ _ => update_none_imp

theorem clear {o : HeaderWrite}
    (h : RegionInv r tracked (some handle) (some file)) (hp : fromChunk p = r)
    (hu : handle.headerDirty = false →
      o.Untorn file (handle.header.setEntry (slot p) .empty)) (expected : ChunkEntry) :
    RegionInv r (update tracked p none)
      (some (handle.clearCorruptChunk file (slot p) expected o).2.1)
      (some (handle.clearCorruptChunk file (slot p) expected o).2.2) := by
  have hcleared := h.1.clear hp
  unfold RegionHandle.clearCorruptChunk
  split
  · exact h.forget p
  · cases o with
    | ok =>
      simp only [Steel.writeHeader]
      exact ⟨(written hcleared).1, fun _ => ⟨_, written hcleared⟩⟩
    | failed k e =>
      have hinv : RegionInv r (update tracked p none) (some handle)
          (some (Steel.writeHeader (.failed k e) file
            (handle.header.setEntry (slot p) .empty)).2) := by
        refine ⟨writeHeader (h.forget p).1 _, fun hclean => ?_⟩
        rcases hu hclean with hsame | hall
        · rw [hsame]; exact (h.forget p).2 hclean
        · rw [hall]; exact ⟨_, written hcleared⟩
      simpa only [Steel.writeHeader] using hinv

theorem openRegion {disk : Disk} (h : RegionInv r tracked none (disk.files r)) :
    ∃ handle disk' file, Steel.openRegion disk r = (.ok handle, disk') ∧
      handle.loadedChunkCount = 0 ∧ disk'.files r = some file ∧
      Describes r tracked handle.header handle.fileSectors file ∧ OnDisk file handle.header := by
  cases hf : disk.files r with
  | none =>
    rw [hf] at h
    refine ⟨⟨.new, 0, false, firstDataSector⟩, _, fileHeader ++ new.toBytes, ?_, rfl,
      Disk.files_setFile disk r _, describes_new h, onDisk_new⟩
    rw [Steel.openRegion, hf]
    rfl
  | some file =>
    rw [hf] at h
    obtain ⟨header, fs, hd, ho⟩ := h
    exact ⟨_, disk, file, openRegion_of_describes hf hd ho, rfl, hf, hd, ho⟩

end RegionInv

namespace RegionManager

def Inv (tracked : Tracked) (m : RegionManager) : Prop :=
  ∀ r, RegionInv r tracked (m.regions r) (m.disk.files r)

variable {m m' : RegionManager} {tracked tracked' : Tracked} {r : RegionPos}

theorem Inv.weaken (h : m.Inv tracked)
    (ht : ∀ p cell, tracked' p = some cell → tracked p = some cell) : m.Inv tracked' :=
  fun r => (h r).weaken fun p cell _ => ht p cell

theorem Inv.forget (h : m.Inv tracked) (p : ChunkPos) : m.Inv (update tracked p none) :=
  h.weaken fun _ _ => update_none_imp

theorem Inv.region (r : RegionPos) (h : m.Inv tracked)
    (ho : ∀ r', r' ≠ r → m'.regions r' = m.regions r' ∧ m'.disk.files r' = m.disk.files r')
    (ht : ∀ p, fromChunk p ≠ r → tracked' p = tracked p)
    (hr : RegionInv r tracked' (m'.regions r) (m'.disk.files r)) : m'.Inv tracked' := by
  intro r'
  by_cases hr' : r' = r
  · subst hr'; exact hr
  · rw [(ho r' hr').1, (ho r' hr').2]
    exact (h r').weaken fun p cell hp hc => by
      rw [← ht p (by rw [hp]; exact hr')]; exact hc

theorem Inv.put {handle : Option RegionHandle} {file : ByteFile} (h : m.Inv tracked)
    (ht : ∀ p, fromChunk p ≠ r → tracked' p = tracked p)
    (hr : RegionInv r tracked' handle (some file)) : (m.put r handle file).Inv tracked' := by
  refine h.region r (fun r' hr' => ⟨put_regions_of_ne m hr' _ _, put_files_of_ne m hr' _ _⟩) ht ?_
  rwa [put_regions_self, put_files_self]

variable {handle : RegionHandle}

theorem Inv.file_of_open (h : m.Inv tracked) (hm : m.regions r = some handle) :
    ∃ file, m.disk.files r = some file ∧ m.disk.fileOf r = file ∧
      RegionInv r tracked (some handle) (some file) := by
  have hr := h r
  rw [hm] at hr
  cases hf : m.disk.files r with
  | none => rw [hf] at hr; exact hr.elim
  | some file =>
    rw [hf] at hr
    exact ⟨file, rfl, by rw [Disk.fileOf, hf]; rfl, hr⟩

theorem Inv.readChunk {cell : Cell} (h : m.Inv tracked)
    (hm : m.regions (fromChunk p) = some handle) (hp : tracked p = some cell) :
    (m.readChunk p).map (Option.map fun x => (x.1, x.2.status)) = .ok cell := by
  obtain ⟨file, hf, hfile, hd, -⟩ := h.file_of_open hm
  have hl := hd.leads p cell rfl hp
  cases cell with
  | none =>
    have hex : (handle.header.entries (slot p)).entryExists = false := hl
    simp [RegionManager.readChunk, hm, hex, Except.map]
  | some v =>
    obtain ⟨hex, hst, hsz, hrd⟩ := hl
    have hv : validateChunkEntry (handle.header.entries (slot p)) handle.fileSectors =
        .ok () := (validateChunkEntry_eq_ok_iff _ _).mpr (hd.valid.validIn _ hex)
    simp [RegionManager.readChunk, hm, hex, hv, hfile, readChunkData, hsz, hrd, hst, Except.map]

theorem Inv.acquire (h : m.Inv tracked) (p : ChunkPos) : (m.acquireChunk p).2.Inv tracked ∧
      ((m.acquireChunk p).2.regions (fromChunk p)).isSome = true ∧
      ∃ found, (m.acquireChunk p).1 = .ok found ∧
        ∀ cell, tracked p = some cell → found = cell.isSome := by
  cases hm : m.regions (fromChunk p) with
  | none =>
    have hr := h (fromChunk p)
    rw [hm] at hr
    obtain ⟨handle, disk, file, ho, -, hf, hd, hdisk⟩ := hr.openRegion
    have hstep : m.acquireChunk p = (.ok (handle.header.entries (slot p)).entryExists,
        ⟨update m.regions (fromChunk p)
          (some { handle with loadedChunkCount := handle.loadedChunkCount + 1 }), disk⟩) := by
      simp [acquireChunk, getOrOpen, hm, ho]
    rw [hstep]
    refine ⟨h.region (fromChunk p) (fun r' hr' => ⟨by simp [hr'], ?_⟩) (fun _ _ => rfl) ?_, by simp,
      _, rfl, fun cell hc => hd.found_eq rfl hc⟩
    · have := openRegion_files_of_ne m.disk hr'
      rwa [ho] at this
    · simp only [update_self, hf]
      exact ⟨hd, fun _ => ⟨handle.header, hd, hdisk⟩⟩
  | some handle =>
    obtain ⟨file, hf, -, hr⟩ := h.file_of_open hm
    have hstep : m.acquireChunk p = (.ok (handle.header.entries (slot p)).entryExists,
          ⟨update m.regions (fromChunk p)
            (some { handle with loadedChunkCount := handle.loadedChunkCount + 1 }), m.disk⟩) := by
      simp [acquireChunk, getOrOpen, hm]
    rw [hstep]
    refine ⟨h.region (fromChunk p) (fun r' hr' => ⟨by simp [hr'], rfl⟩) (fun _ _ => rfl) ?_,
      by simp,
      _, rfl, fun cell hc => hr.1.found_eq rfl hc⟩
    simp only [update_self, hf]
    exact hr.count _

theorem update_of_region_ne (v : Option Cell) {q : ChunkPos} (h : fromChunk q ≠ fromChunk p) :
    update tracked p v q = tracked q := by
  rw [update_of_ne]
  rintro rfl
  exact h rfl

section Save

variable {χ Λ : Type} {K : ChunkCodec χ Λ}

/-- If the save closes the region again, its table write is not torn. -/
def CloseUntorn (K : ChunkCodec χ Λ) (m : RegionManager) (prepared : PreparedChunkSave χ)
    (o : HeaderWrite) : Prop :=
  let r := fromChunk prepared.pos
  m.regions r = none → ∀ handle disk c, openRegion m.disk r = (.ok handle, disk) →
    encodeChunk K prepared = .ok c →
    o.Untorn
      (handle.storeChunk (disk.fileOf r) (slot prepared.pos) c prepared.status).2
      (handle.storeChunk (disk.fileOf r) (slot prepared.pos) c prepared.status).1.header

variable {prepared : PreparedChunkSave χ}

theorem Inv.save_open {c : List UInt8} (h : m.Inv tracked)
    (he : encodeChunk K prepared = .ok c) (hc : PayloadOk c) (hlt : c.length < maxChunkSize)
    (hm : m.regions (fromChunk prepared.pos) = some handle)
    (hfit : handle.Fits (slot prepared.pos) c) (o : HeaderWrite) :
    (m.saveChunkData K prepared o).2.Inv
      (update tracked prepared.pos (some (some (c, prepared.status)))) := by
  obtain ⟨file, hf, hfile, hr⟩ := h.file_of_open hm
  rw [saveChunkData_open he rfl hm, hfile]
  exact h.put (fun q hq => update_of_region_ne _ hq)
    ⟨hr.1.storeChunk prepared.status hc hlt hfit rfl, fun hdirty => by simp at hdirty⟩

theorem Inv.save_closed {c : List UInt8} (h : m.Inv tracked) (he : encodeChunk K prepared = .ok c)
    (hc : PayloadOk c) (hlt : c.length < maxChunkSize)
    (hm : m.regions (fromChunk prepared.pos) = none) (hfit : m.SaveFits K prepared)
    {o : HeaderWrite} (hu : CloseUntorn K m prepared o) :
    ((m.saveChunkData K prepared o).1 = .ok true ∧ (m.saveChunkData K prepared o).2.Inv
      (update tracked prepared.pos (some (some (c, prepared.status))))) ∨
    (o ≠ .ok ∧ (∃ e, (m.saveChunkData K prepared o).1 = .error e) ∧
      (m.saveChunkData K prepared o).2.Inv (update tracked prepared.pos none)) := by
  have hr := h (fromChunk prepared.pos)
  rw [hm] at hr
  obtain ⟨handle, disk, file, ho, hcount, hf, hd, hdisk⟩ := hr.openRegion
  have hfit' := hfit handle c (by rw [getOrOpen, hm, ho]) he
  have hfile : disk.fileOf (fromChunk prepared.pos) = file := by
    rw [Disk.fileOf, hf]; rfl
  have hother : Inv tracked ⟨m.regions, disk⟩ := by
    refine h.region (fromChunk prepared.pos) (fun r' hr' => ⟨rfl, ?_⟩) (fun _ _ => rfl) ?_
    · have hne := openRegion_files_of_ne m.disk hr'
      rwa [ho] at hne
    · simp only [hm, hf]
      exact ⟨handle.header, handle.fileSectors, hd, hdisk⟩
  have hnew := hd.storeChunk prepared.status hc hlt hfit' rfl
  have hold := hd.overwritten prepared.status hc hfit' rfl
  have holdDisk := hd.onDisk_storeChunk prepared.status hc hfit' hdisk
  have hu' := hu hm _ _ _ ho he
  rw [saveChunkData_closed he rfl hm ho hcount, hfile]
  rw [hfile] at hu'
  generalize handle.storeChunk file (slot prepared.pos) c prepared.status = stored at *
  obtain ⟨handle', file'⟩ := stored
  cases o with
  | ok =>
    simp only [writeHeader]
    obtain ⟨hd', ho'⟩ := RegionInv.written hnew
    exact .inl ⟨trivial, hother.put (fun q hq => update_of_region_ne _ hq) ⟨_, _, hd', ho'⟩⟩
  | failed written e =>
    refine .inr ⟨by simp, ⟨e, by simp only [writeHeader]⟩, ?_⟩
    have hforget : ∀ p cell, fromChunk p = fromChunk prepared.pos →
        update tracked prepared.pos none p = some cell →
        update tracked prepared.pos (some (some (c, prepared.status))) p = some cell := by
      intro p cell _ hp
      refine update_none_imp (p := prepared.pos) ?_
      rwa [update_idem]
    have hinv : RegionInv (fromChunk prepared.pos)
        (update tracked prepared.pos none) (some handle')
        (some (writeHeader (.failed written e) file' handle'.header).2) := by
      refine ⟨(RegionInv.writeHeader hnew _).weaken hforget, fun _ => ?_⟩
      rcases hu' with hsame | hall
      · rw [hsame]
        exact ⟨handle.header, hold, holdDisk⟩
      · obtain ⟨hd', ho'⟩ := RegionInv.written hnew
        rw [hall]
        exact ⟨handle'.header, hd'.weaken hforget, ho'⟩
    simp only [writeHeader] at hinv ⊢
    exact hother.put (fun q hq => update_of_region_ne _ hq) hinv

/-- A save is rejected by the encoder, or it is stored and known, or its table write failed. -/
theorem Inv.save (hK : K.Inverse) (h : m.Inv tracked)
    (hlt : ∀ c, encodeChunk K prepared = .ok c → c.length < maxChunkSize)
    (hfit : m.SaveFits K prepared) {o : HeaderWrite} (hu : CloseUntorn K m prepared o) :
    (∃ e, encodeChunk K prepared = .error e ∧ m.saveChunkData K prepared o = (.error e, m)) ∨
    (∃ c, encodeChunk K prepared = .ok c ∧ (m.saveChunkData K prepared o).1 = .ok true ∧
      (m.saveChunkData K prepared o).2.Inv
        (update tracked prepared.pos (some (some (c, prepared.status))))) ∨
    (o ≠ .ok ∧ (∃ e, (m.saveChunkData K prepared o).1 = .error e) ∧
      (m.saveChunkData K prepared o).2.Inv (update tracked prepared.pos none)) := by
  cases he : encodeChunk K prepared with
  | error e => exact .inl ⟨e, rfl, saveChunkData_error he o⟩
  | ok c =>
    have hc : PayloadOk c := ⟨hK.encode_ne_nil he, (hlt c he).le⟩
    cases hm : m.regions (fromChunk prepared.pos) with
    | none =>
      rcases h.save_closed he hc (hlt c he) hm hfit hu with ⟨hok, hi⟩ | hfail
      · exact .inr (.inl ⟨c, rfl, hok, hi⟩)
      · exact .inr (.inr hfail)
    | some handle =>
      have hfit' := hfit handle c (by rw [getOrOpen, hm]) he
      refine .inr (.inl ⟨c, rfl, ?_, h.save_open he hc (hlt c he) hm hfit' o⟩)
      rw [saveChunkData_open he rfl hm]

end Save

section Load

variable {χ Λ : Type} {K : ChunkCodec χ Λ}

/-- What the load reads also decodes, so that it discards nothing. -/
def LoadDecodes (K : ChunkCodec χ Λ) (m : RegionManager) (p : ChunkPos) (minY height : ℤ) : Prop :=
  ∀ c e, m.readChunk p = .ok (some (c, e)) →
    ∃ loaded, decodeChunk K c p e.status minY height = .ok loaded

/-- If the load discards a chunk of a clean region, its table write is not torn. -/
def DiscardUntorn (m : RegionManager) (p : ChunkPos) (o : HeaderWrite) : Prop :=
  ∀ handle, m.regions (fromChunk p) = some handle → handle.headerDirty = false →
    o.Untorn (m.disk.fileOf (fromChunk p))
      (handle.header.setEntry (slot p) .empty)

variable {p : ChunkPos}

theorem loadChunk_of_decodes {minY height : ℤ} (h : LoadDecodes K m p minY height)
    (o : HeaderWrite) :
    (m.loadChunk K p minY height o).2 = m := by
  unfold loadChunk
  split
  · rfl
  · split
    · rfl
    · rfl
    case h_3 c e hread =>
      obtain ⟨loaded, hl⟩ := h c e hread
      rw [hl]

theorem loadChunk_cases (K : ChunkCodec χ Λ) (m : RegionManager) (p : ChunkPos) (minY height : ℤ)
    (o : HeaderWrite) :
    (m.loadChunk K p minY height o).2 = m ∨ ∃ e, (m.loadChunk K p minY height o).2 =
      (m.clearCorruptChunkIfUnchanged (fromChunk p) (slot p) e o).2 := by
  unfold loadChunk
  split
  · exact .inl rfl
  · split
    · exact .inl rfl
    · exact .inl rfl
    case h_3 c e hread =>
      split
      · exact .inl rfl
      · refine .inr ⟨e, ?_⟩
        generalize m.clearCorruptChunkIfUnchanged (fromChunk p) (slot p) e o
          = res
        obtain ⟨_ | _ | _, m'⟩ := res <;> rfl

theorem Inv.clear {o : HeaderWrite} (h : m.Inv tracked) (hu : DiscardUntorn m p o)
    (expected : ChunkEntry) :
    (m.clearCorruptChunkIfUnchanged (fromChunk p) (slot p) expected o).2.Inv
      (update tracked p none) := by
  cases hm : m.regions (fromChunk p) with
  | none =>
    simp only [clearCorruptChunkIfUnchanged, hm]
    exact h.forget p
  | some handle =>
    obtain ⟨file, hf, hfile, hr⟩ := h.file_of_open hm
    have hu' := hu handle hm
    rw [clearCorruptChunkIfUnchanged_open hm, hfile]
    rw [hfile] at hu'
    exact h.put (fun q hq => update_of_region_ne _ hq) (hr.clear rfl hu' expected)

theorem Inv.load {o : HeaderWrite} (h : m.Inv tracked) (K : ChunkCodec χ Λ)
    (hu : DiscardUntorn m p o) (minY height : ℤ) :
    (m.loadChunk K p minY height o).2.Inv (update tracked p none) := by
  rcases loadChunk_cases K m p minY height o with he | ⟨e, he⟩
  · rw [he]; exact h.forget p
  · rw [he]; exact h.clear hu e

end Load

section Close

/-- If the release closes a dirty region, its table reaches the file. -/
def ReleaseComplete (m : RegionManager) (p : ChunkPos) (o : HeaderWrite) : Prop :=
  ∀ handle, m.regions (fromChunk p) = some handle → handle.loadedChunkCount ≤ 1 →
    handle.headerDirty = true → o.Complete (m.disk.fileOf (fromChunk p)) handle.header

theorem Inv.release {o : HeaderWrite} (h : m.Inv tracked)
    (hc : ReleaseComplete m p o) : (m.releaseChunk p o).2.Inv tracked := by
  cases hm : m.regions (fromChunk p) with
  | none =>
    simp only [releaseChunk, hm]
    exact h
  | some handle =>
    obtain ⟨file, hf, hfile, hr⟩ := h.file_of_open hm
    have hc' := hc handle hm
    rw [hfile] at hc'
    simp only [releaseChunk, hm, hfile]
    have hsame : ∀ oh r', r' ≠ fromChunk p →
        (⟨update m.regions (fromChunk p) oh, m.disk⟩ : RegionManager).regions r' =
          m.regions r' ∧ m.disk.files r' = m.disk.files r' :=
      fun oh r' hr' => ⟨update_of_ne hr' _ _, rfl⟩
    split
    case isTrue hzero =>
      split
      case isTrue hdirty =>
        refine h.put (fun _ _ => rfl) ?_
        rw [hc' (by omega) hdirty]
        exact ⟨_, _, RegionInv.written hr.1⟩
      case isFalse hclean =>
        refine h.region (fromChunk p) (hsame none) (fun _ _ => rfl) ?_
        simp only [update_self, hf]
        exact hr.drop_clean (by simpa using hclean)
    case isFalse =>
      refine h.region (fromChunk p) (hsame _) (fun _ _ => rfl) ?_
      simp only [update_self, hf]
      exact hr.count _

theorem Inv.flushAll (h : m.Inv tracked) (outcome : RegionPos → HeaderWrite)
    (order : List RegionPos) : (m.flushAll outcome order).2.Inv tracked := by
  induction order generalizing m with
  | nil => exact h
  | cons r order ih =>
    unfold RegionManager.flushAll
    cases hm : m.regions r with
    | none => exact ih h
    | some handle =>
      obtain ⟨file, hf, hfile, hr⟩ := h.file_of_open hm
      dsimp only
      rw [hfile]
      split
      case isTrue hdirty =>
        cases outcome r with
        | ok =>
          simp only [writeHeader]
          exact ih (h.put (fun _ _ => rfl)
            ⟨(RegionInv.written hr.1).1, fun _ => ⟨_, RegionInv.written hr.1⟩⟩)
        | failed k e =>
          have hw : Describes r tracked handle.header handle.fileSectors
              (writeHeader (.failed k e) file handle.header).2 := RegionInv.writeHeader hr.1 _
          simp only [writeHeader] at hw ⊢
          exact h.put (fun _ _ => rfl) ⟨hw, fun hclean => by simp [hdirty] at hclean⟩
      case isFalse => exact ih h

/-- The dirty regions are closed by complete table writes. -/
def CloseOk (m : RegionManager) (outcome : RegionPos → HeaderWrite) : Prop :=
  ∀ r handle, m.regions r = some handle → handle.headerDirty = true → outcome r = .ok

variable {outcome : RegionPos → HeaderWrite} {order : List RegionPos}

theorem CloseOk.close (h : CloseOk m outcome) (hm : m'.regions = update m.regions r none) :
    CloseOk m' outcome := by
  intro r' handle hr'
  rw [hm] at hr'
  by_cases he : r' = r
  · subst he; simp at hr'
  · exact h r' handle (by simpa [he] using hr')

theorem mem_of_open_of_close (hall : ∀ r', m.regions r' ≠ none → r' ∈ r :: order)
    (hm : m'.regions = update m.regions r none) :
    ∀ r', m'.regions r' ≠ none → r' ∈ order := by
  intro r' hr'
  rw [hm] at hr'
  have hne : r' ≠ r := by rintro rfl; simp at hr'
  exact (List.mem_cons.mp (hall r' (by simpa [hne] using hr'))).resolve_left hne

section

variable (h : m.Inv tracked) (hok : CloseOk m outcome)
  (hall : ∀ r, m.regions r ≠ none → r ∈ order)

include h hok hall

theorem Inv.closeHandles :
    (m.closeHandles outcome order).1 = .ok () ∧ (m.closeHandles outcome order).2.Inv tracked ∧
      ∀ r, (m.closeHandles outcome order).2.regions r = none := by
  induction order generalizing m with
  | nil => exact ⟨rfl, h, fun r => by_contra fun hr => by simpa using hall r hr⟩
  | cons r order ih =>
    unfold RegionManager.closeHandles
    cases hm : m.regions r with
    | none =>
      have hsame : m.regions = update m.regions r none := by
        rw [← hm, update_eq_self]
      exact ih h hok (mem_of_open_of_close hall hsame)
    | some handle =>
      obtain ⟨file, hf, hfile, hr⟩ := h.file_of_open hm
      dsimp only
      rw [hfile]
      split
      case isTrue hdirty =>
        have hput : (m.put r none (file.writeAt fileHeaderSize handle.header.toBytes)).regions =
            update m.regions r none := rfl
        rw [hok r handle hm hdirty]
        simp only [writeHeader]
        exact ih (h.put (fun _ _ => rfl) ⟨_, _, RegionInv.written hr.1⟩) (hok.close hput)
          (mem_of_open_of_close hall hput)
      case isFalse hclean =>
        refine ih ?_ (hok.close rfl) (mem_of_open_of_close hall rfl)
        refine h.region r (fun r' hr' => ⟨update_of_ne hr' _ _, rfl⟩) (fun _ _ => rfl) ?_
        simp only [update_self, hf]
        exact hr.drop_clean (by simpa using hclean)

theorem Inv.closeAll : (m.closeAll outcome order).2.Inv tracked := by
  obtain ⟨-, hi, hnone⟩ := h.closeHandles hok hall
  intro r
  have hr := hi r
  rw [hnone r] at hr
  exact hr

end

end Close

end RegionManager

end Steel
