import Steel.ChunkSaver.RegionInvariant

/-! # The region manager as a key-value store

Runs of the operations of the region manager, in any order and over any regions, compared with a map
from chunks to their last saved payloads.
-/

namespace Steel

open Function (update_of_ne update_self update)

open List RegionHandle RegionPos Disk Option
open RegionHeader (entryOf firstGap setEntry_self)
open UInt32 (ofNat toNat_add)

/-- The operations of the region manager with the outcomes of their table writes. The maps
over the open regions are visited in the given order. -/
inductive StoreOp (χ : Type) where
  | acquire (pos : ChunkPos)
  | save (prepared : PreparedChunkSave χ) (outcome : HeaderWrite)
  | load (pos : ChunkPos) (minY height : ℤ) (outcome : HeaderWrite)
  | release (pos : ChunkPos) (outcome : HeaderWrite)
  | flushAll (outcome : RegionPos → HeaderWrite) (order : List RegionPos)
  | closeAll (outcome : RegionPos → HeaderWrite) (order : List RegionPos)
  /-- Shut down, then start over on the same directory. -/
  | reopen (outcome : RegionPos → HeaderWrite) (order : List RegionPos)

def RegionManager.Enumerates (m : RegionManager) (order : List RegionPos) : Prop :=
  order.Nodup ∧ ∀ r, r ∈ order ↔ m.regions r ≠ none

namespace StoreOp

variable {χ Λ : Type} (K : ChunkCodec χ Λ)

def step (m : RegionManager) : StoreOp χ → RegionManager
  | .acquire pos => (m.acquireChunk pos).2
  | .save prepared outcome => (m.saveChunkData K prepared outcome).2
  | .load pos minY height outcome => (m.loadChunk K pos minY height outcome).2
  | .release pos outcome => (m.releaseChunk pos outcome).2
  | .flushAll outcome order => (m.flushAll outcome order).2
  | .closeAll outcome order => (m.closeAll outcome order).2
  | .reopen outcome order => .new (m.closeAll outcome order).2.disk

def record (kv : ChunkPos → Cell) : StoreOp χ → ChunkPos → Cell
  | .save prepared _ =>
    match encodeChunk K prepared with
    | .ok compressed => update kv prepared.pos (some (compressed, prepared.status))
    | .error _ => kv
  | _ => kv

def SmallPayload (prepared : PreparedChunkSave χ) : Prop :=
  ∀ c, encodeChunk K prepared = .ok c → c.length < maxChunkSize

/-- Every file operation succeeds, and what is loaded can be decoded. -/
def Undisturbed (m : RegionManager) : StoreOp χ → Prop
  | .acquire _ => True
  | .save prepared outcome => outcome = .ok ∧ SmallPayload K prepared
  | .load pos minY height outcome => outcome = .ok ∧ m.LoadDecodes K pos minY height
  | .release _ outcome => outcome = .ok
  | .flushAll outcome order | .closeAll outcome order | .reopen outcome order =>
    (∀ r, outcome r = .ok) ∧ m.Enumerates order

def Fits (m : RegionManager) : StoreOp χ → Prop
  | .save prepared _ => m.SaveFits K prepared
  | _ => True

/-- Table writes may fail, except where a dirty region is closed; where nothing marks the
region dirty, a failed write must leave the old or the new table. -/
def Tolerated (m : RegionManager) : StoreOp χ → Prop
  | .acquire _ => True
  | .save prepared outcome => SmallPayload K prepared ∧ m.SaveFits K prepared ∧
      m.CloseUntorn K prepared outcome
  | .load pos minY height outcome => m.LoadDecodes K pos minY height ∨ m.DiscardUntorn pos outcome
  | .release pos outcome => m.ReleaseComplete pos outcome
  | .flushAll _ order => m.Enumerates order
  | .closeAll outcome order | .reopen outcome order => m.CloseOk outcome ∧ m.Enumerates order

def Replaces (m : RegionManager) (p : ChunkPos) : StoreOp χ → Prop
  | .save prepared _ => prepared.pos = p
  | .load pos minY height _ => pos = p ∧ ¬ m.LoadDecodes K pos minY height
  | _ => False

end StoreOp

open StoreOp (step record save)

namespace RegionManager

variable {χ Λ : Type} {K : ChunkCodec χ Λ} {m : RegionManager} {tracked : Tracked}
  {op : StoreOp χ}

/-- A load of the chunk reads the payload and status of the cell, and returns the decoded
chunk. -/
def LoadYields (K : ChunkCodec χ Λ) (m : RegionManager) (p : ChunkPos) (cell : Cell) : Prop :=
  (m.readChunk p).map (Option.map fun x => (x.1, x.2.status)) = .ok cell ∧
  ∀ minY height outcome, ¬ (height ≤ 0 ∨ height % 16 ≠ 0 ∨ minY % 16 ≠ 0) →
    match cell with
    | none => m.loadChunk K p minY height outcome = (.ok none, m)
    | some (c, status) => ∀ loaded, decodeChunk K c p status minY height = .ok loaded →
      m.loadChunk K p minY height outcome = (.ok (some loaded), m)

variable {p : ChunkPos}

theorem loadYields_of_readChunk {cell : Cell}
    (h : (m.readChunk p).map (Option.map fun x => (x.1, x.2.status)) = .ok cell) :
    LoadYields K m p cell := by
  refine ⟨h, fun minY height outcome hrange => ?_⟩
  cases hread : m.readChunk p with
  | error e => rw [hread] at h; cases h
  | ok found =>
    rw [hread] at h
    obtain rfl := Except.ok.inj h
    cases found with
    | none => simp only [loadChunk, hrange, hread, if_false, map_none]
    | some x =>
      intro loaded hl
      simp only [loadChunk, hrange, hread, hl, if_false]

theorem Inv.loadYields (h : m.Inv tracked) {cell : Cell} (hp : tracked p = some cell)
    (ho : m.regions (fromChunk p) ≠ none) : LoadYields K m p cell := by
  obtain ⟨handle, hm⟩ := ne_none_iff_exists'.mp ho
  exact loadYields_of_readChunk (h.readChunk hm hp)

theorem inv_new (h : ∀ p cell, tracked p = some cell → cell = none) :
    (new empty).Inv tracked := fun _ p cell _ hc => h p cell hc

theorem Inv.step (hK : K.Inverse) (h : m.Inv tracked) (ht : op.Tolerated K m)
    (hr : ∀ p, op.Replaces K m p → tracked p = none) : (op.step K m).Inv tracked := by
  have hkeep : ∀ {p : ChunkPos} {v : Option Cell}, tracked p = none → ∀ {m' : RegionManager},
      m'.Inv (update tracked p v) → m'.Inv tracked := by
    intro p v hp m' hm'
    refine hm'.weaken fun q cell hq => ?_
    rw [update_of_ne (by rintro rfl; simp [hp] at hq)]
    exact hq
  cases op with
  | acquire p => exact (h.acquire p).1
  | save prepared o =>
    have hp := hr prepared.pos rfl
    rcases h.save hK ht.1 ht.2.1 ht.2.2 with ⟨e, -, hs⟩ | ⟨c, -, -, hi⟩ | ⟨-, -, hi⟩
    · simp only [step, hs]; exact h
    · exact hkeep hp hi
    · exact hkeep hp hi
  | load p minY height o =>
    by_cases hd : m.LoadDecodes K p minY height
    · rw [step, loadChunk_of_decodes hd]; exact h
    · exact hkeep (hr p ⟨rfl, hd⟩) (h.load K (ht.resolve_left hd) minY height)
  | release p o => exact h.release ht
  | flushAll outcome order => exact h.flushAll outcome order
  | closeAll outcome order => exact h.closeAll ht.1 fun r hr => (ht.2.2 r).mpr hr
  | reopen outcome order => exact h.closeAll ht.1 fun r hr => (ht.2.2 r).mpr hr

theorem undisturbed_tolerated (h : op.Undisturbed K m) (hf : op.Fits K m) : op.Tolerated K m := by
  cases op with
  | acquire p => trivial
  | save prepared o =>
    obtain ⟨rfl, hsmall⟩ := h
    exact ⟨hsmall, hf, fun _ _ _ _ _ _ => HeaderWrite.untorn_ok _ _⟩
  | load p minY height o => exact .inl h.2
  | release p o =>
    obtain rfl := h
    exact fun _ _ _ _ => HeaderWrite.complete_ok _ _
  | flushAll outcome order => exact h.2
  | closeAll outcome order => exact ⟨fun r _ _ _ => h.1 r, h.2⟩
  | reopen outcome order => exact ⟨fun r _ _ _ => h.1 r, h.2⟩

def Stores (m : RegionManager) (kv : ChunkPos → Cell) : Prop := m.Inv fun p => some (kv p)

theorem Stores.step (hK : K.Inverse) {kv : ChunkPos → Cell} (h : m.Stores kv)
    (hu : op.Undisturbed K m) (hf : op.Fits K m) :
    (op.step K m).Stores (op.record K kv) := by
  have hup : ∀ p v, (fun q => some (update kv p v q)) =
      update (fun q => some (kv q)) p (some v) := by
    intro p v
    funext q
    by_cases hq : q = p
    · subst hq; simp
    · simp [hq]
  cases op with
  | save prepared o =>
    obtain ⟨rfl, hsmall⟩ := hu
    rcases Inv.save hK h hsmall hf (o := .ok) fun _ _ _ _ _ _ => HeaderWrite.untorn_ok _ _ with
      ⟨e, he, hs⟩ | ⟨c, he, -, hi⟩ | ⟨hne, -⟩
    · simp only [step, record, hs, he]; exact h
    · simp only [step, record, he, Stores, hup]; exact hi
    · exact absurd rfl hne
  | load p minY height o =>
    exact Inv.step hK h (undisturbed_tolerated hu hf) fun q hq => absurd hu.2 hq.2
  | acquire p => exact Inv.step hK h (undisturbed_tolerated hu hf) fun _ => False.elim
  | release p o => exact Inv.step hK h (undisturbed_tolerated hu hf) fun _ => False.elim
  | flushAll outcome order => exact Inv.step hK h (undisturbed_tolerated hu hf) fun _ => False.elim
  | closeAll outcome order => exact Inv.step hK h (undisturbed_tolerated hu hf) fun _ => False.elim
  | reopen outcome order => exact Inv.step hK h (undisturbed_tolerated hu hf) fun _ => False.elim

/-- In every run on an empty directory whose saves stay in the sector space, a load from an
open region reads the payload and status of the last save, or finds nothing if there was none;
acquiring a chunk succeeds and tells which. -/
theorem load_reads_last_saved (K : ChunkCodec χ Λ) (hK : K.Inverse) (ops : List (StoreOp χ))
    (hops : Guarded (step K) (fun m op => op.Undisturbed K m ∧ op.Fits K m)
      (new empty) ops) (p : ChunkPos) :
    ((runSteps (step K) (new empty) ops).regions (fromChunk p) ≠ none →
      LoadYields K (runSteps (step K) (new empty) ops) p
        (runSteps (record K) (fun _ => none) ops p)) ∧
    ((runSteps (step K) (new empty) ops).acquireChunk p).1 =
      .ok (runSteps (record K) (fun _ => none) ops p).isSome := by
  have hstep : ∀ (m : RegionManager) (kv : ChunkPos → Cell) (op : StoreOp χ), m.Stores kv →
      op.Undisturbed K m ∧ op.Fits K m → (op.step K m).Stores (op.record K kv) :=
    fun _ _ _ h hop => h.step hK hop.1 hop.2
  have hsim : (runSteps (step K) (new empty) ops).Stores
      (runSteps (record K) (fun _ => none) ops) :=
    Guarded.simulation hstep hops (inv_new fun _ _ h => (Option.some.inj h).symm)
  refine ⟨fun ho => Inv.loadYields hsim rfl ho, ?_⟩
  obtain ⟨-, -, found, hfound, hcell⟩ := Inv.acquire hsim p
  rw [hfound, hcell _ rfl]

theorem run_origin (ops : List (StoreOp (List UInt8))) :
    runSteps (step .framed) (new empty) (.acquire origin :: ops) =
      runSteps (step .framed) openOrigin ops := rfl

theorem openOrigin_save : (openOrigin.saveChunkData .framed oneByte .ok).1 = .ok true ∧
    (openOrigin.saveChunkData .framed oneByte .ok).2.regions (fromChunk origin) ≠ none := by
  rw [saveChunkData_open encode_oneByte (r := fromChunk origin) rfl openOrigin_regions]
  simp

theorem smallPayload_oneByte : StoreOp.SmallPayload .framed oneByte := by
  intro c hc
  obtain rfl := Except.ok.inj (encode_oneByte.symm.trans hc)
  decide

theorem load_reads_oneByte : LoadYields .framed (runSteps (step .framed) (new empty)
      [.acquire origin, .save oneByte .ok]) origin (some ([0], .full)) := by
  have h := (load_reads_last_saved .framed ChunkCodec.framed_inverse
    [.acquire origin, .save oneByte .ok]
    ⟨⟨trivial, trivial⟩, ⟨⟨rfl, smallPayload_oneByte⟩, saveFits_openOrigin⟩, trivial⟩ origin).1
    openOrigin_save.2
  have hkv : runSteps (record .framed) (fun _ => none)
      [.acquire origin, .save oneByte .ok] origin = some ([0], .full) := by
    simp only [runSteps, record, encode_oneByte]
    exact update_self ..
  rwa [hkv] at h

/-- A payload of zeros behind the frame byte, `n` bytes in all. -/
def zeros (n : ℕ) : PreparedChunkSave (List UInt8) := ⟨origin, .full, List.replicate (n - 1) 0⟩

/-- The only chunk of the region lies at `off` with a payload of `n` bytes, and the file has
`fs` sectors. -/
structure OneChunk (m : RegionManager) (off n fs : ℕ) : Prop where
  size_pos : 0 < n
  size_lt : n < maxChunkSize
  start_ge : 3 ≤ off
  end_lt : off + (n + 4095) / 4096 < 2 ^ 32
  region : ∃ handle, m.regions (fromChunk origin) = some handle ∧
    handle.header = RegionHeader.new.setEntry (slot origin)
      (entryOf (ofNat off) (0 :: (zeros n).persistent) .full) ∧
    handle.fileSectors.toNat = fs

variable {n fs : ℕ} {handle : RegionHandle} {m : RegionManager}

theorem encode_zeros (h0 : 0 < n) (hn : n < maxChunkSize) :
    encodeChunk .framed (zeros n) = .ok (0 :: (zeros n).persistent) := by
  refine encodeChunk_framed ?_
  simp only [zeros, length_replicate]
  omega

theorem length_zeros (h0 : 0 < n) : (0 :: (zeros n).persistent).length = n := by
  simp only [zeros, length_cons, length_replicate]
  omega

theorem payloadOk_zeros (h0 : 0 < n) (hn : n < maxChunkSize) :
    PayloadOk (0 :: (zeros n).persistent) :=
  ⟨by simp, by rw [length_zeros h0]; exact hn.le⟩

theorem sectors_zeros (h0 : 0 < n) (hn : n < maxChunkSize) :
    (sectorsFor (0 :: (zeros n).persistent)).toNat = (n + 4095) / 4096 := by
  rw [toNat_sectorsFor (payloadOk_zeros h0 hn), length_zeros h0]

theorem chooseSectors_single {i : Fin chunksPerRegion} {e : ChunkEntry}
    (hh : handle.header = RegionHeader.new.setEntry i e) (he : e.entryExists = true)
    (hend : e.endSector < 2 ^ 32) (needed : UInt32) (h0 : 0 < needed.toNat)
    (hn : 3 + needed.toNat < 2 ^ 32) :
    (handle.chooseSectors i needed).toNat =
      if needed.toNat ≤ e.sectorCount.toNat then e.sectorOffset.toNat
      else if 3 + needed.toNat ≤ e.sectorOffset.toNat then 3
      else max (max 3 e.endSector) handle.fileSectors.toNat := by
  have hne : needed ≠ 0 := by rintro rfl; simp at h0
  have hsum : (e.sectorOffset + e.sectorCount).toNat = e.endSector := by
    rw [toNat_add]; exact Nat.mod_eq_of_lt hend
  have hstart : (firstDataSector + needed).toNat = 3 + needed.toNat := by
    rw [toNat_add, toNat_firstDataSector]; exact Nat.mod_eq_of_lt hn
  simp only [RegionHandle.chooseSectors, hh, setEntry_self, he, true_and,
    RegionHeader.findFreeSectors, RegionHeader.usedRanges_single i he, if_neg hne,
    firstGap, UInt32.le_iff_toNat_le, ge_iff_le, hstart]
  split
  · rfl
  · split
    · rfl
    · rw [toNat_max, toNat_max, hsum]
      rfl

theorem OneChunk.place {off : ℕ} (h : m.OneChunk off n fs) (n' : ℕ) (h0' : 0 < n')
    (hn' : n' < maxChunkSize) :
    ∃ handle, m.regions (fromChunk origin) = some handle ∧ handle.fileSectors.toNat = fs ∧
      (∀ e, handle.header.setEntry (slot origin) e =
        RegionHeader.new.setEntry (slot origin) e) ∧
      (handle.chooseSectors (slot origin)
        (sectorsFor (0 :: (zeros n').persistent))).toNat =
        if (n' + 4095) / 4096 ≤ (n + 4095) / 4096 then off
        else if 3 + (n' + 4095) / 4096 ≤ off then 3
        else max (max 3 (off + (n + 4095) / 4096)) fs := by
  obtain ⟨h0, hn, h3, hend, handle, hm, hh, hfs⟩ := h
  refine ⟨handle, hm, hfs, fun e => by rw [hh, RegionHeader.setEntry_setEntry], ?_⟩
  have hoff : (entryOf (ofNat off) (0 :: (zeros n).persistent)
      .full).sectorOffset.toNat = off := by
    rw [entryOf, UInt32.toNat_ofNat']; exact Nat.mod_eq_of_lt (by omega)
  have hend' := endSector_entryOf (payloadOk_zeros h0 hn) (ofNat off) .full
  rw [sectors_zeros h0 hn, show (ofNat off).toNat = off from hoff] at hend'
  have hcount : (entryOf (ofNat off) (0 :: (zeros n).persistent)
      .full).sectorCount.toNat = (n + 4095) / 4096 := by
    have hsum := hend'
    rw [ChunkEntry.endSector, hoff] at hsum
    omega
  have hex : (entryOf (ofNat off) (0 :: (zeros n).persistent)
      .full).entryExists = true := by
    rw [ChunkEntry.entryExists_iff_toNat, hoff]
    omega
  have hneed := sectors_zeros h0' hn'
  have hmax : maxChunkSize = 16777216 := rfl
  rw [chooseSectors_single hh hex (by omega) _ (by omega) (by omega), hneed, hcount, hend', hfs,
    hoff]

theorem OneChunk.save {off : ℕ} (h : m.OneChunk off n fs) (n' off' fs' : ℕ) (h0' : 0 < n')
    (hn' : n' < maxChunkSize) (hoff : off' = if (n' + 4095) / 4096 ≤ (n + 4095) / 4096 then off
      else if 3 + (n' + 4095) / 4096 ≤ off then 3
      else max (max 3 (off + (n + 4095) / 4096)) fs) (hfit : off' + (n' + 4095) / 4096 < 2 ^ 32)
    (hfs : fs' = max fs (off' + (n' + 4095) / 4096)) :
    (step .framed m (.save (zeros n') .ok)).OneChunk off' n' fs' := by
  obtain ⟨handle, hm, hfs', hh, hchoose⟩ := h.place n' h0' hn'
  have hneed := sectors_zeros h0' hn'
  rw [← hoff] at hchoose
  have hfit' : handle.Fits (slot origin) (0 :: (zeros n').persistent) := by
    rw [RegionHandle.Fits, hchoose, hneed]; exact hfit
  have hgrow := toNat_storeChunk_fileSectors .full
    (m.disk.fileOf (fromChunk origin)) hfit'
  rw [hchoose, hneed, hfs', ← hfs] at hgrow
  rw [step, saveChunkData_open (encode_zeros h0' hn') (r := fromChunk origin)
    rfl hm]
  have h3 := h.start_ge
  refine ⟨h0', hn', by split_ifs at hoff <;> omega, hfit, _, put_regions_self .., ?_, hgrow⟩
  rw [← hchoose, UInt32.ofNat_toNat]
  exact hh _

/-- The sizes of the payloads: a start, then `n` rounds. The chunk is moved between the front of the
file and its end, and leaves gaps that nothing fills, so the file grows without bound. -/
def growSizes (n : ℕ) : List ℕ :=
  [4097, 8193, 1, 4097, 1] ++ (List.replicate n [4097, 8193, 1]).flatten

def growOps (n : ℕ) : List (StoreOp (List UInt8)) :=
  [.acquire origin, .save (zeros 1) .ok] ++ (growSizes n).map fun k => .save (zeros k) .ok

theorem OneChunk.round (h : m.OneChunk 3 1 fs) (h6 : 6 ≤ fs) (hlt : fs + 2 < 2 ^ 32) :
    (runSteps (step .framed) m
      ([4097, 8193, 1].map fun k => .save (zeros k) .ok)).OneChunk 3 1 (fs + 2) := by
  have h₁ := h.save 4097 fs (fs + 2) (by decide) (by decide) (by split_ifs <;> omega) (by omega)
    (by omega)
  have h₂ := h₁.save 8193 3 (fs + 2) (by decide) (by decide) (by split_ifs <;> omega) (by omega)
    (by omega)
  exact h₂.save 1 3 (fs + 2) (by decide) (by decide) (by split_ifs <;> omega) (by omega) (by omega)

theorem OneChunk.rounds (h : m.OneChunk 3 1 fs) (h6 : 6 ≤ fs) (hlt : fs + 2 * n < 2 ^ 32) :
    (runSteps (step .framed) m
      ((List.replicate n [4097, 8193, 1]).flatten.map fun k => .save (zeros k) .ok)).OneChunk 3 1
        (fs + 2 * n) := by
  induction n generalizing m fs with
  | zero => exact h
  | succ n ih =>
    rw [replicate_succ, flatten_cons, map_append, runSteps_append,
      show fs + 2 * (n + 1) = fs + 2 + 2 * n by ring]
    exact ih (h.round h6 (by omega)) (by omega) (by omega)

theorem oneChunk_start : (runSteps (step .framed) (new empty)
    [.acquire origin, .save (zeros 1) .ok]).OneChunk 3 1 4 := by
  have hgrow := toNat_storeChunk_fileSectors .full
    (openOrigin.disk.fileOf (fromChunk origin)) (fits_newHandle (slot origin))
  rw [chooseSectors_newHandle, toNat_sectorsFor_oneByte] at hgrow
  refine ⟨by decide, by decide, by decide, by decide, ?_⟩
  rw [run_origin, runSteps_cons, runSteps_nil, step, show zeros 1 = oneByte from rfl,
    saveChunkData_open encode_oneByte (r := fromChunk origin) rfl openOrigin_regions]
  refine ⟨_, put_regions_self .., ?_, hgrow⟩
  simp only [storeChunk_header]
  rw [show slot oneByte.pos = slot origin from rfl, chooseSectors_newHandle]
  rfl

theorem oneChunk_growOps (hn : 9 + 2 * n < 2 ^ 32) :
    (runSteps (step .framed) (new empty) (growOps n)).OneChunk 3 1 (9 + 2 * n) := by
  rw [growOps, runSteps_append, growSizes, map_append, runSteps_append]
  refine OneChunk.rounds ?_ (by omega) hn
  have h₁ := oneChunk_start.save 4097 4 6 (by decide) (by decide) (by decide) (by decide) rfl
  have h₂ := h₁.save 8193 6 9 (by decide) (by decide) (by decide) (by decide) rfl
  have h₃ := h₂.save 1 6 9 (by decide) (by decide) (by decide) (by decide) rfl
  have h₄ := h₃.save 4097 3 9 (by decide) (by decide) (by decide) (by decide) rfl
  exact h₄.save 1 3 9 (by decide) (by decide) (by decide) (by decide) rfl

theorem readChunk_error_of_end (hm : m.regions (fromChunk p) = some handle)
    (hex : (handle.header.entries (slot p)).entryExists = true)
    (hend : 2 ^ 32 ≤ (handle.header.entries (slot p)).endSector) :
    ∃ e, m.readChunk p = .error e := by
  cases hv : validateChunkEntry (handle.header.entries (slot p)) handle.fileSectors with
  | error e => exact ⟨e, by simp [readChunk, hm, hex, hv]⟩
  | ok u =>
    have hle := ((validateChunkEntry_eq_ok_iff _ _).mp hv).end_le
    have hlt := handle.fileSectors.toNat_lt
    omega

theorem OneChunk.overflow (h : m.OneChunk 3 1 fs) (hge : 2 ^ 32 ≤ fs + 2) :
    (step .framed m (.save (zeros 4097) .ok)).regions (fromChunk origin) ≠ none ∧
      ∃ e, (step .framed m (.save (zeros 4097) .ok)).readChunk origin = .error e := by
  obtain ⟨handle, hm, -, -, hchoose⟩ := h.place 4097 (by decide) (by decide)
  rw [if_neg (by decide), if_neg (by decide), max_eq_right (by omega)] at hchoose
  have hc : PayloadOk (0 :: (zeros 4097).persistent) := payloadOk_zeros (by decide) (by decide)
  rw [step, saveChunkData_open (encode_zeros (by decide) (by decide))
    (r := fromChunk origin) rfl hm]
  refine ⟨by simp, readChunk_error_of_end (put_regions_self ..) ?_ ?_⟩
  · simp only [storeChunk_header]
    rw [show slot (zeros 4097).pos = slot origin from rfl,
      setEntry_self, ChunkEntry.entryExists_iff_toNat, entryOf, hchoose]
    omega
  · simp only [storeChunk_header]
    rw [show slot (zeros 4097).pos = slot origin from rfl,
      setEntry_self, endSector_entryOf hc, hchoose,
      sectors_zeros (by decide) (by decide)]
    omega

theorem mem_growSizes {k : ℕ} (h : k ∈ growSizes n) : k = 1 ∨ k = 4097 ∨ k = 8193 := by
  rcases mem_append.mp h with h | h
  · simp only [mem_cons, not_mem_nil, or_false] at h
    omega
  · obtain ⟨l, hl, hk⟩ := mem_flatten.mp h
    rw [eq_of_mem_replicate hl] at hk
    simp only [mem_cons, not_mem_nil, or_false] at hk
    omega

theorem undisturbed_zeros {k : ℕ} (hk : k = 1 ∨ k = 4097 ∨ k = 8193) (m : RegionManager) :
    (save (zeros k) .ok).Undisturbed .framed m := by
  have hmax : maxChunkSize = 16777216 := rfl
  refine ⟨rfl, fun c hc => ?_⟩
  obtain rfl := Except.ok.inj ((encode_zeros (by omega) (by omega)).symm.trans hc)
  rw [length_zeros (by omega)]
  omega

theorem undisturbed_growOps (n : ℕ) :
    Guarded (step .framed) (fun m op => op.Undisturbed .framed m) (new empty)
      (growOps n ++ [.save (zeros 4097) .ok]) := by
  refine guarded_of_forall fun op hop m => ?_
  rcases mem_append.mp hop with hop | hop
  · rcases mem_append.mp hop with hop | hop
    · rcases mem_cons.mp hop with rfl | hop
      · trivial
      · rw [mem_singleton.mp hop]
        exact undisturbed_zeros (.inl rfl) m
    · obtain ⟨k, hk, rfl⟩ := mem_map.mp hop
      exact undisturbed_zeros (mem_growSizes hk) m
  · rw [mem_singleton.mp hop]
    exact undisturbed_zeros (.inr (.inl rfl)) m

theorem growOps_overflow (hlt : 9 + 2 * n < 2 ^ 32) (hge : 2 ^ 32 ≤ 9 + 2 * n + 2) (cell : Cell) :
    (runSteps (step .framed) (new empty)
        (growOps n ++ [.save (zeros 4097) .ok])).regions (fromChunk origin) ≠ none ∧
      ¬ LoadYields .framed (runSteps (step .framed) (new empty)
          (growOps n ++ [.save (zeros 4097) .ok])) origin cell := by
  obtain ⟨hopen, e, hread⟩ := (oneChunk_growOps hlt).overflow hge
  rw [runSteps_append, runSteps_cons, runSteps_nil]
  refine ⟨hopen, fun hy => ?_⟩
  have hy' := hy.1
  rw [hread] at hy'
  cases hy'

/-- Saving one chunk often enough loses it, although every file operation succeeds. -/
theorem last_save_lost_at_sector_limit :
    Guarded (step .framed) (fun m op => op.Undisturbed .framed m) (new empty)
        (growOps 2147483643 ++ [.save (zeros 4097) .ok]) ∧
      (runSteps (step .framed) (new empty)
        (growOps 2147483643 ++ [.save (zeros 4097) .ok])).regions (fromChunk origin) ≠
          none ∧
      ¬ LoadYields .framed (runSteps (step .framed) (new empty)
          (growOps 2147483643 ++ [.save (zeros 4097) .ok])) origin
        (runSteps (record .framed) (fun _ => none)
          (growOps 2147483643 ++ [.save (zeros 4097) .ok]) origin) :=
  ⟨undisturbed_growOps _, growOps_overflow (by norm_num) (by norm_num) _⟩

/-- A successful save survives failed table writes as long as no dirty region is closed by
one, and no clean region is left with a torn table. -/
theorem saved_survives_failed_headers (K : ChunkCodec χ Λ) (hK : K.Inverse)
    (ops ops' : List (StoreOp χ)) (prepared : PreparedChunkSave χ) (o : HeaderWrite)
    (hops : Guarded (step K) (fun m op => op.Tolerated K m) (new empty)
      (ops ++ .save prepared o :: ops'))
    (hok : ((runSteps (step K) (new empty) ops).saveChunkData K prepared o).1 =
      .ok true)
    (hspare : Guarded (step K) (fun m op => ¬ op.Replaces K m prepared.pos)
      ((runSteps (step K) (new empty) ops).saveChunkData K prepared o).2 ops') :
    ∃ c, encodeChunk K prepared = .ok c ∧
      ((runSteps (step K) (new empty) (ops ++ .save prepared o :: ops')).regions
          (fromChunk prepared.pos) ≠ none →
        LoadYields K (runSteps (step K) (new empty) (ops ++ .save prepared o :: ops'))
          prepared.pos (some (c, prepared.status))) ∧
      ((runSteps (step K) (new empty)
        (ops ++ .save prepared o :: ops')).acquireChunk prepared.pos).1 = .ok true := by
  rw [runSteps_append, runSteps_cons]
  obtain ⟨hbefore, hsave, hafter⟩ := guarded_append.mp hops
  generalize hm : runSteps (step K) (new empty) ops = m at *
  have hinv : m.Inv fun _ => none := by
    rw [← hm]
    exact hbefore.invariant (I := Inv fun _ => none)
      (fun m op h ht => h.step hK ht fun _ _ => rfl) (inv_new fun _ _ h => by simp at h)
  obtain ⟨c, he, hi⟩ : ∃ c, encodeChunk K prepared = .ok c ∧ (step K m
      (.save prepared o)).Inv (update (fun _ => none) prepared.pos
        (some (some (c, prepared.status)))) := by
    rcases hinv.save hK hsave.1 hsave.2.1 hsave.2.2 with
      ⟨e, -, hs⟩ | ⟨c, he, -, hi⟩ | ⟨-, ⟨e, hs⟩, -⟩
    · rw [hs] at hok; cases hok
    · exact ⟨c, he, hi⟩
    · rw [hs] at hok; cases hok
  refine ⟨c, he, ?_⟩
  have hend := (hafter.and hspare).invariant
    (I := Inv (update (fun _ => none) prepared.pos (some (some (c, prepared.status)))))
    (fun m op h hop => h.step hK hop.1 fun q hq =>
      update_of_ne (by rintro rfl; exact hop.2 hq) _ _) hi
  have hcell : update (fun _ => none) prepared.pos (some (some (c, prepared.status)))
      prepared.pos = some (some (c, prepared.status)) := update_self ..
  refine ⟨fun ho => hend.loadYields hcell ho, ?_⟩
  obtain ⟨-, -, found, hfound, hcell'⟩ := hend.acquire prepared.pos
  rw [hfound, hcell' _ hcell]
  rfl

def diskFull : HeaderWrite := .failed 0 ⟨.other, "No space left on device"⟩

theorem openOrigin_regions_of_ne {r : RegionPos} (hr : r ≠ fromChunk origin) :
    openOrigin.regions r = none ∧ openOrigin.disk.files r = none := by
  simp [openOrigin, acquireChunk, getOrOpen, new, openRegion, empty, createRegion, hr,
    setFile]

theorem enumerates_openOrigin_save :
    (openOrigin.saveChunkData .framed oneByte .ok).2.Enumerates [fromChunk origin] := by
  refine ⟨nodup_singleton _, fun r => ?_⟩
  rw [mem_singleton]
  by_cases hr : r = fromChunk origin
  · subst hr
    exact iff_of_true rfl openOrigin_save.2
  · refine iff_of_false hr fun hne => hne ?_
    exact (saveChunkData_of_ne hr .ok).1.trans (openOrigin_regions_of_ne hr).1

theorem saved_survives_failed_flush : ∃ c, encodeChunk .framed oneByte = .ok c ∧
      ((runSteps (step .framed) (new empty)
          [.acquire origin, .save oneByte .ok, .flushAll (fun _ => diskFull)
            [fromChunk origin]]).regions (fromChunk origin) ≠ none →
        LoadYields .framed (runSteps (step .framed) (new empty)
          [.acquire origin, .save oneByte .ok, .flushAll (fun _ => diskFull)
            [fromChunk origin]]) origin (some (c, .full))) ∧
      ((runSteps (step .framed) (new empty)
          [.acquire origin, .save oneByte .ok, .flushAll (fun _ => diskFull)
            [fromChunk origin]]).acquireChunk origin).1 = .ok true :=
  saved_survives_failed_headers .framed ChunkCodec.framed_inverse [.acquire origin]
    [.flushAll (fun _ => diskFull) [fromChunk origin]] oneByte .ok
    ⟨trivial, ⟨smallPayload_oneByte, saveFits_openOrigin, fun hnone =>
      absurd (openOrigin_regions.symm.trans hnone) (by simp)⟩, enumerates_openOrigin_save, trivial⟩
    openOrigin_save.1 ⟨id, trivial⟩

/-- A table without chunks describes a file in which nothing is known to be stored. -/
theorem describes_empty {r : RegionPos} {tracked : Tracked} {fs : UInt32} {file : ByteFile}
    (h : Describes r tracked .new fs file) : Describes r (fun _ => some none) .new fs file := by
  refine { h with leads := fun p cell _ hc => ?_ }
  obtain rfl := Option.some.inj hc
  exact ChunkEntry.entryExists_empty

theorem openOrigin_file : openOrigin.disk.files (fromChunk origin) =
    some (fileHeader ++ RegionHeader.new.toBytes) := by
  simp [openOrigin, acquireChunk, getOrOpen, new, openRegion, empty, createRegion]

theorem releaseChunk_diskFull (hm : m.regions (fromChunk p) = some handle)
    (hcount : handle.loadedChunkCount = 1) (hdirty : handle.headerDirty = true) :
    (m.releaseChunk p diskFull).2 =
      m.put (fromChunk p) none (m.disk.fileOf (fromChunk p)) := by
  simp [releaseChunk, hm, hcount, hdirty, diskFull, writeHeader]

theorem inv_failed_release :
    ((openOrigin.saveChunkData .framed oneByte .ok).2.releaseChunk origin diskFull).2.Inv
      fun _ => some none := by
  have hinv : openOrigin.Inv fun _ => some none :=
    (Inv.acquire (inv_new fun _ _ h => (Option.some.inj h).symm) origin).1
  have hfile : openOrigin.disk.fileOf (fromChunk origin) =
      fileHeader ++ RegionHeader.new.toBytes := by rw [fileOf, openOrigin_file]; rfl
  have hd : Describes (fromChunk origin) (fun _ => some none) newHandle.header
      newHandle.fileSectors (fileHeader ++ RegionHeader.new.toBytes) :=
    describes_new fun _ _ _ h => (Option.some.inj h).symm
  have hfit := fits_newHandle (slot origin)
  have hold := describes_empty (hd.overwritten .full payloadOk_oneByte hfit rfl)
  have hdisk := hd.onDisk_storeChunk .full payloadOk_oneByte hfit onDisk_new
  rw [saveChunkData_open encode_oneByte (r := fromChunk origin) rfl openOrigin_regions,
    releaseChunk_diskFull (put_regions_self ..) rfl rfl, hfile]
  refine hinv.region (fromChunk origin) (fun r hr => ⟨?_, ?_⟩) (fun _ _ => rfl) ?_
  · rw [put_regions_of_ne _ hr, put_regions_of_ne _ hr]
  · rw [put_files_of_ne _ hr, put_files_of_ne _ hr]
  · rw [put_regions_self, put_files_self, put_fileOf_self]
    exact ⟨_, _, hold, hdisk⟩

theorem run_save_release_acquire (m : RegionManager) (prepared : PreparedChunkSave χ)
    (p q : ChunkPos) (o o' : HeaderWrite) :
    runSteps (step K) m [.save prepared o, .release p o', .acquire q] =
      (((m.saveChunkData K prepared o).2.releaseChunk p o').2.acquireChunk q).2 := rfl

/-- Releasing the last chunk of a region when the table write fails loses the saves made
since the last flush: after the next acquire the chunk is not found. -/
theorem failed_release_loses_save : (openOrigin.saveChunkData .framed oneByte .ok).1 = .ok true ∧
      Guarded (step .framed) (fun m op => ¬ op.Replaces .framed m origin)
        (openOrigin.saveChunkData .framed oneByte .ok).2
        [.release origin diskFull, .acquire origin] ∧
      (runSteps (step .framed) (new empty) [.acquire origin, .save oneByte .ok,
        .release origin diskFull, .acquire origin]).regions (fromChunk origin) ≠ none ∧
      LoadYields .framed (runSteps (step .framed) (new empty) [.acquire origin,
        .save oneByte .ok, .release origin diskFull, .acquire origin]) origin none := by
  obtain ⟨hinv, hopen, -⟩ := inv_failed_release.acquire origin
  have ho := isSome_iff_ne_none.mp hopen
  rw [run_origin, run_save_release_acquire]
  exact ⟨openOrigin_save.1, ⟨id, id, trivial⟩, ho, hinv.loadYields rfl ho⟩

end RegionManager

end Steel
