import Steel.ChunkSaver.Format

/-! # Encoding of chunk payloads and of the table

The serializer, the compressor and the conversion to a runtime chunk are parameters. Decoding an
encoded table gives back every entry with its size reduced to 24 bits.
-/

namespace Steel

open Nat

section

/-- The external codecs: `wincode`, `zstd` and `try_persistent_to_chunk`. -/
structure ChunkCodec (χ Λ : Type) where
  serialize : χ → Except String (List UInt8)
  compress : List UInt8 → Except IoError (List UInt8)
  decompress : List UInt8 → Except String (List UInt8)
  deserialize : List UInt8 → Except String χ
  materialize : χ → ChunkPos → ChunkStatus → ℤ → ℤ → Except String Λ

/-- A chunk snapshot handed to the storage. -/
structure PreparedChunkSave (χ : Type) where
  pos : ChunkPos
  status : ChunkStatus
  persistent : χ

variable {χ Λ : Type} (K : ChunkCodec χ Λ)

def encodeChunk (prepared : PreparedChunkSave χ) : Except IoError (List UInt8) :=
  match K.serialize prepared.persistent with
  | .error e => .error ⟨.invalidData, e⟩
  | .ok data =>
    match K.compress data with
    | .error e => .error e
    | .ok compressed =>
      if maxChunkSize < compressed.length then
        .error ⟨.invalidData,
          s!"Chunk too large: {compressed.length} bytes (max {maxChunkSize})"⟩
      else .ok compressed

def decodeChunk (compressed : List UInt8) (pos : ChunkPos) (status : ChunkStatus)
    (minY height : ℤ) : Except String Λ :=
  match K.decompress compressed with
  | .error e => .error s!"zstd decode failed: {e}"
  | .ok data =>
    match K.deserialize data with
    | .error e => .error s!"chunk decode failed: {e}"
    | .ok persistent =>
      match K.materialize persistent pos status minY height with
      | .error e => .error s!"chunk materialization failed: {e}"
      | .ok loaded => .ok loaded

/-- What the source relies on: decoding inverts encoding, and a frame is never empty. -/
structure ChunkCodec.Inverse : Prop where
  decompress_compress : ∀ {data compressed},
    K.compress data = .ok compressed → K.decompress compressed = .ok data
  deserialize_serialize : ∀ {c data}, K.serialize c = .ok data → K.deserialize data = .ok c
  compress_ne_nil : ∀ {data compressed}, K.compress data = .ok compressed → compressed ≠ []

variable {K} {prepared : PreparedChunkSave χ} {compressed : List UInt8}

theorem encodeChunk_eq_ok_iff :
    encodeChunk K prepared = .ok compressed ↔
      ∃ data, K.serialize prepared.persistent = .ok data ∧ K.compress data = .ok compressed ∧
        compressed.length ≤ maxChunkSize := by
  unfold encodeChunk
  constructor
  · intro h
    split at h
    case h_1 => cases h
    case h_2 data hs =>
      split at h
      case h_1 => cases h
      case h_2 c hc =>
        split at h
        case isTrue => cases h
        case isFalse hle =>
          obtain rfl := Except.ok.inj h
          exact ⟨data, hs, hc, not_lt.mp hle⟩
  · rintro ⟨data, hs, hc, hle⟩
    simp [hs, hc, not_lt.mpr hle]

theorem ChunkCodec.Inverse.encode_ne_nil (hK : K.Inverse)
    (h : encodeChunk K prepared = .ok compressed) :
    compressed ≠ [] := by
  obtain ⟨_, _, hc, _⟩ := encodeChunk_eq_ok_iff.mp h
  exact hK.compress_ne_nil hc

/-- A codec that frames a byte string by one leading zero byte. -/
def ChunkCodec.framed : ChunkCodec (List UInt8) (List UInt8) where
  serialize c := .ok c
  compress data := .ok (0 :: data)
  decompress
    | 0 :: data => .ok data
    | _ => .error "unknown frame descriptor"
  deserialize data := .ok data
  materialize c _ _ _ _ := .ok c

theorem ChunkCodec.framed_inverse : ChunkCodec.framed.Inverse where
  decompress_compress h := by cases h; rfl
  deserialize_serialize h := by cases h; rfl
  compress_ne_nil h := by cases h; simp

theorem encodeChunk_framed {prepared : PreparedChunkSave (List UInt8)}
    (h : prepared.persistent.length < maxChunkSize) :
    encodeChunk .framed prepared = .ok (0 :: prepared.persistent) :=
  encodeChunk_eq_ok_iff.mpr ⟨prepared.persistent, rfl, rfl, by rwa [List.length_cons]⟩

end

open List LittleEndian

namespace ChunkEntry

/-- The entry that is read back after `e` was written. -/
def stored (e : ChunkEntry) : ChunkEntry :=
  ⟨e.sectorOffset, UInt32.ofNat (e.sizeBytes.toNat % 2 ^ 24),
    if e.sectorOffset = 0 then .empty else e.status⟩

theorem decode_sizeBytes (n : ℕ) :
    decode ((encode 4 n).take 3 ++ [0]) = n % 2 ^ 24 := by
  rw [take_encode (by decide), decode_append, decode_encode]
  simp [decode]

theorem fromBytes_toBytes (e : ChunkEntry) : fromBytes e.toBytes = some e.stored := by
  have ho : decode (encode 4 e.sectorOffset.toNat) =
      e.sectorOffset.toNat :=
    decode_encode_of_lt e.sectorOffset.toNat_lt
  have hs := decode_sizeBytes e.sizeBytes.toNat
  have hst : (UInt8.ofNat e.status.getIndex).toNat = e.status.getIndex := by
    rw [UInt8.toNat_ofNat']; exact mod_eq_of_lt e.status.getIndex_lt
  simp only [encode, take_succ_cons, take_zero, cons_append, nil_append] at ho hs
  simp only [toBytes, encode, take_succ_cons, take_zero, cons_append,
    nil_append, fromBytes, ho, hs, hst, UInt32.ofNat_toNat]
  by_cases h : e.sectorOffset = 0 <;> simp [h, stored]

theorem stored_eq_self {e : ChunkEntry} (h : e.sizeBytes.toNat < 2 ^ 24)
    (hs : e.sectorOffset = 0 → e.status = .empty) : e.stored = e := by
  obtain ⟨off, size, status⟩ := e
  simp only [stored, mk.injEq, true_and]
  refine ⟨?_, ?_⟩
  · rw [mod_eq_of_lt h, UInt32.ofNat_toNat]
  · split
    · exact (hs ‹_›).symm
    · rfl

end ChunkEntry

namespace RegionHeader

/-- The table that is read back after `h` was written. -/
def stored (h : RegionHeader) : RegionHeader := ⟨fun i => (h.entries i).stored⟩

@[simp] theorem stored_entries (h : RegionHeader) (i : Fin chunksPerRegion) :
    h.stored.entries i = (h.entries i).stored := rfl

theorem asChunks_toBytes_append (e : ChunkEntry) (bs : List UInt8) :
    asChunks (e.toBytes ++ bs) = e.toBytes :: asChunks bs := by
  simp [ChunkEntry.toBytes, encode, asChunks]

theorem asChunks_flatMap (es : List ChunkEntry) :
    asChunks (es.flatMap ChunkEntry.toBytes) = es.map ChunkEntry.toBytes := by
  induction es with
  | nil => rfl
  | cons e es ih => rw [flatMap_cons, asChunks_toBytes_append, ih, map_cons]

@[simp] theorem length_toBytes (h : RegionHeader) : h.toBytes.length = chunkTableSize := by
  have hc : ChunkEntry.toBytes ∘ h.entries = fun i => (h.entries i).toBytes := rfl
  rw [toBytes, List.flatMap, map_ofFn, hc, length_flatten, map_ofFn]
  simp [Function.comp_def, ofFn_const, chunkTableSize]

theorem fromChunks_drop (es : Fin chunksPerRegion → ChunkEntry) {i : ℕ}
    (hi : i ≤ chunksPerRegion) (h : RegionHeader) :
    fromChunks i (((List.ofFn es).drop i).map ChunkEntry.toBytes) h =
      .ok ⟨fun j => if i ≤ j then (es j).stored else h.entries j⟩ := by
  induction hi using Nat.decreasingInduction generalizing h with
  | self =>
    rw [drop_of_length_le (by simp)]
    refine congrArg Except.ok (RegionHeader.ext fun j => ?_)
    simp [not_le.mpr j.isLt]
  | of_succ i hi ih =>
    have hd : (List.ofFn es).drop i = es ⟨i, hi⟩ :: (List.ofFn es).drop (i + 1) := by
      rw [drop_eq_getElem_cons (by simpa using hi)]
      simp
    rw [hd, map_cons, fromChunks, ChunkEntry.fromBytes_toBytes]
    simp only [hi, ↓reduceDIte, ih]
    refine congrArg Except.ok (RegionHeader.ext fun j => ?_)
    dsimp only
    rcases lt_trichotomy i j with hlt | heq | hgt
    · rw [if_pos (by omega), if_pos (by omega)]
    · obtain rfl : (⟨i, hi⟩ : Fin chunksPerRegion) = j := Fin.ext heq
      simp
    · have hne : j ≠ ⟨i, hi⟩ := by rintro rfl; simp at hgt
      rw [if_neg (by omega), if_neg (by omega), setEntry_of_ne _ hne]

theorem fromBytes_toBytes_eq_stored (h : RegionHeader) : fromBytes h.toBytes = .ok h.stored := by
  have hl := fromChunks_drop h.entries (zero_le _) new
  simp only [drop_zero, zero_le, ↓reduceIte] at hl
  rw [fromBytes, toBytes, asChunks_flatMap, hl]
  rfl

/-- Every row fits the encoding: the size in 24 bits, and no status without a chunk. -/
def Storable (h : RegionHeader) : Prop :=
  ∀ i, (h.entries i).sizeBytes.toNat < 2 ^ 24 ∧
    ((h.entries i).sectorOffset = 0 → (h.entries i).status = .empty)

variable {h : RegionHeader}

theorem Storable.stored_eq (hs : h.Storable) : h.stored = h :=
  RegionHeader.ext fun i => ChunkEntry.stored_eq_self (hs i).1 (hs i).2

theorem Storable.fromBytes_toBytes (hs : h.Storable) : fromBytes h.toBytes = .ok h := by
  rw [fromBytes_toBytes_eq_stored, hs.stored_eq]

theorem storable_new : new.Storable := fun _ => ⟨Nat.two_pow_pos 24, fun _ => rfl⟩

def entryOf (sectorOffset : UInt32) (compressed : List UInt8) (status : ChunkStatus) :
    ChunkEntry := ⟨sectorOffset, UInt32.ofNat compressed.length, status⟩

/-- Every row is empty or describes a payload that passes the encoder's size limit. -/
def Written (h : RegionHeader) : Prop :=
  ∀ i, h.entries i = .empty ∨ ∃ off compressed status, firstDataSector ≤ off ∧
    compressed ≠ [] ∧ compressed.length ≤ maxChunkSize ∧
    h.entries i = entryOf off compressed status

/-- The written table reads back unchanged, and stays acceptable to the validation. -/
def Survives (h : RegionHeader) : Prop :=
  fromBytes h.toBytes = .ok h ∧
    ∀ fs, validateRegionEntries h fs = .ok () →
      ∃ h', fromBytes h.toBytes = .ok h' ∧ validateRegionEntries h' fs = .ok ()

theorem Written.size_le (hw : h.Written) (i : Fin chunksPerRegion) :
    (h.entries i).sizeBytes.toNat ≤ maxChunkSize := by
  rcases hw i with he | ⟨off, c, st, -, -, hle, he⟩
  · rw [he]; exact zero_le _
  · rw [he, entryOf, UInt32.toNat_ofNat']
    exact (mod_le _ _).trans hle

theorem Written.status_eq (hw : h.Written) {i : Fin chunksPerRegion}
    (h0 : (h.entries i).sectorOffset = 0) : (h.entries i).status = .empty := by
  rcases hw i with he | ⟨off, c, st, hoff, -, -, he⟩
  · rw [he]; rfl
  · rw [he] at h0
    rw [show off = 0 from h0] at hoff
    exact absurd hoff (by decide)

theorem Written.storable_iff (hw : h.Written) :
    h.Storable ↔ ∀ i, (h.entries i).sizeBytes.toNat ≠ maxChunkSize := by
  have hmax : maxChunkSize = 2 ^ 24 := rfl
  constructor
  · intro hs i he
    have := (hs i).1
    omega
  · intro hne i
    have h₁ := hw.size_le i
    have h₂ := hne i
    exact ⟨by omega, hw.status_eq⟩

theorem storable_iff_survives (hw : h.Written) : h.Storable ↔ h.Survives := by
  constructor
  · intro hs
    exact ⟨hs.fromBytes_toBytes, fun fs hv => ⟨h, hs.fromBytes_toBytes, hv⟩⟩
  · rintro ⟨hrt, -⟩ i
    rw [fromBytes_toBytes_eq_stored] at hrt
    have he : (h.entries i).stored = h.entries i :=
      congrArg (fun k : RegionHeader => k.entries i) (Except.ok.inj hrt)
    have hs := congrArg (fun e : ChunkEntry => e.sizeBytes.toNat) he
    simp only [ChunkEntry.stored, UInt32.toNat_ofNat'] at hs
    exact ⟨by omega, hw.status_eq⟩

/-- A table of encoder-accepted rows survives the format exactly when no payload has
the maximal accepted size, whose low 24 bits are zero. -/
theorem survives_iff_size_ne_max (h : RegionHeader) (hw : h.Written) :
    h.Survives ↔ ∀ i, (h.entries i).sizeBytes.toNat ≠ maxChunkSize := by
  rw [← storable_iff_survives hw, hw.storable_iff]

/-- A table with one chunk of the given payload at the first data sector. -/
def single (compressed : List UInt8) : RegionHeader :=
  new.setEntry ⟨0, by decide⟩ (entryOf firstDataSector compressed .full)

theorem written_single {compressed : List UInt8} (hne : compressed ≠ [])
    (hle : compressed.length ≤ maxChunkSize) : (single compressed).Written := by
  intro i
  by_cases hi : i = ⟨0, by decide⟩
  · subst hi
    exact .inr ⟨firstDataSector, compressed, .full, by decide, hne, hle, by simp [single]⟩
  · exact .inl (by rw [single, setEntry_of_ne _ hi, new_entries])

theorem survives_single_byte : (single [0]).Written ∧ (single [0]).Survives := by
  have hw : (single [0]).Written := written_single (by simp) (by decide)
  refine ⟨hw, (survives_iff_size_ne_max _ hw).mpr fun i => ?_⟩
  by_cases hi : i = ⟨0, by decide⟩
  · subst hi; simp [single, entryOf, maxChunkSize]
  · rw [single, setEntry_of_ne _ hi]; simp [ChunkEntry.empty, maxChunkSize]

theorem valid_single {compressed : List UInt8} (hne : compressed ≠ [])
    (hle : compressed.length ≤ maxChunkSize) : (single compressed).Valid 4099 := by
  have hlen : 0 < compressed.length := length_pos_iff.mpr hne
  have hmax : maxChunkSize = 16777216 := rfl
  have hsize : (UInt32.ofNat compressed.length).toNat = compressed.length := by
    rw [UInt32.toNat_ofNat']; omega
  have hout : ∀ i : Fin chunksPerRegion, i ≠ ⟨0, by decide⟩ →
      ((single compressed).entries i).entryExists = false := fun i hi => by
    rw [single, setEntry_of_ne _ hi, new_entries, ChunkEntry.entryExists_empty]
  refine ⟨fun i hex => ?_, fun i j hij hi hj => ?_⟩
  · obtain rfl : i = ⟨0, by decide⟩ := by
      by_contra hi
      simp [hout i hi] at hex
    rw [single, setEntry_self]
    refine ⟨by simp [entryOf], by simpa [entryOf, hsize] using hlen, by simpa [entryOf, hsize], ?_⟩
    rw [ChunkEntry.endSector, ChunkEntry.toNat_sectorCount, ceilDiv_eq_add_pred_div]
    simp only [entryOf, hsize, toNat_firstDataSector, sectorSize]
    omega
  · by_contra
    apply hij
    rw [show i = ⟨0, by decide⟩ by by_contra hc; simp [hout i hc] at hi,
      show j = ⟨0, by decide⟩ by by_contra hc; simp [hout j hc] at hj]

/-- A payload of `maxChunkSize` bytes passes the encoder's limit and the validation of
the table in memory, but the table read back is another one and is rejected. -/
theorem max_payload_not_survives : (single (List.replicate maxChunkSize 0)).Written ∧
      validateRegionEntries (single (List.replicate maxChunkSize 0)) 4099 = .ok () ∧
      ¬ (single (List.replicate maxChunkSize 0)).Survives ∧
      ∀ h', fromBytes (single (List.replicate maxChunkSize 0)).toBytes = .ok h' →
        validateRegionEntries h' 4099 ≠ .ok () := by
  have hlen : (List.replicate maxChunkSize (0 : UInt8)).length = maxChunkSize :=
    length_replicate
  have hne : List.replicate maxChunkSize (0 : UInt8) ≠ [] :=
    ne_nil_of_length_pos (by rw [hlen]; decide)
  generalize List.replicate maxChunkSize (0 : UInt8) = c at hlen hne
  have hw := written_single hne hlen.le
  have hsize : (((single c).entries ⟨0, by decide⟩).sizeBytes).toNat = maxChunkSize := by
    rw [single, setEntry_self, entryOf, hlen]; rfl
  refine ⟨hw, (validateRegionEntries_eq_ok_iff _ _).mpr (valid_single hne hlen.le), ?_, ?_⟩
  · rw [← storable_iff_survives hw]
    exact fun hs => hw.storable_iff.mp hs _ hsize
  · intro h' hrt hv
    rw [fromBytes_toBytes_eq_stored] at hrt
    obtain rfl := Except.ok.inj hrt
    have hval := (validateRegionEntries_eq_ok_iff _ _).mp hv
    have hz : (((single c).stored.entries ⟨0, by decide⟩).sizeBytes).toNat = 0 := by
      rw [stored_entries, ChunkEntry.stored, hsize]; rfl
    have hex : ((single c).stored.entries ⟨0, by decide⟩).entryExists = true := by
      rw [stored_entries, ChunkEntry.entryExists_iff, ChunkEntry.stored, single, setEntry_self]
      exact (by decide : firstDataSector ≠ 0)
    exact absurd (hval.validIn _ hex).size_pos (by omega)

end RegionHeader

end Steel
