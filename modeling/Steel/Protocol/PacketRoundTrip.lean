import Mathlib.Data.List.Forall2
import Steel.Protocol.PacketCodec

/-! # Encoded packets are read back

A frame is a length field and a body. The reader gives back the packet exactly when the body is
within the packet size.
-/

namespace Steel

open VarInt FrontVec List Option Nat
open Int32 (ofNat)

theorem asUsize_ofNat {n : ℕ} (h : n < 2 ^ 31) : asUsize (ofNat n) = n := by
  rw [asUsize, Int32.toInt_ofNat_of_lt h]
  omega

theorem toNat_toUInt32_ofNat {n : ℕ} (h : n < 2 ^ 32) :
    (ofNat n).toUInt32.toNat = n := by
  rw [Int32.toUInt32_ofNat']
  exact UInt32.toNat_ofNat_of_lt h

namespace EncodedPacket

variable {zlib : Zlib} {compression : Option CompressionInfo} {data body : List UInt8}

/-- What stands behind the length field, with what the encoder has checked. -/
inductive Frames (zlib : Zlib) (data : List UInt8) :
    Option CompressionInfo → List UInt8 → Prop
  | plain (h : data.length < MAX_PACKET_SIZE) : Frames zlib data none data
  | stored {c : CompressionInfo} (hmax : data.length < MAX_PACKET_DATA_SIZE)
      (h : data.length < c.threshold.toNat) : Frames zlib data (some c) (VarInt.write 0 ++ data)
  | compressed {c : CompressionInfo} {compressed : List UInt8}
      (hmax : data.length < MAX_PACKET_DATA_SIZE) (h : c.threshold.toNat ≤ data.length)
      (hdeflate : zlib.deflate c.level.toUInt32 data = .ok compressed) :
      Frames zlib data (some c) (VarInt.write (ofNat data.length) ++ compressed)

def frame (body : List UInt8) : List UInt8 :=
  VarInt.write (ofNat body.length) ++ body

theorem write_zero : VarInt.write 0 = [0] := by
  rw [VarInt.write, VarInt.writeLoop]
  rfl

/-- Two fields fit in the space that is reserved for two of the largest ones. -/
theorem setInFront_twice (v : FrontVec) (a b : Int32)
    (h : (VarInt.write a).length + (VarInt.write b).length ≤ v.frontSpace) :
    ∃ v', ((VarInt.setInFront a v (VarInt.writtenSize a)).bind fun v =>
        VarInt.setInFront b v (VarInt.writtenSize b)) = some v' ∧
      v'.asSlice = VarInt.write b ++ (VarInt.write a ++ v.asSlice) := by
  obtain ⟨v₁, h₁, hslice₁, hspace₁⟩ :=
    exists_setInFront v (VarInt.write a) (by omega)
  obtain ⟨v₂, h₂, hslice₂, -⟩ :=
    exists_setInFront v₁ (VarInt.write b) (by omega)
  refine ⟨v₂, ?_, ?_⟩
  · rw [setInFront_eq, h₁, bind_some, setInFront_eq, h₂]
  · rw [hslice₂, hslice₁]

theorem fromDataUncompressed_ok {v v' : FrontVec} (hspace : v.frontSpace = 6)
    (h : fromDataUncompressed v = some (.ok v')) :
    v.asSlice.length < MAX_PACKET_SIZE ∧ v'.asSlice = frame v.asSlice := by
  unfold fromDataUncompressed at h
  simp only [len_eq] at h
  have hsize := writtenSize_pos (ofNat v.asSlice.length)
  have hmax := length_write_le (ofNat v.asSlice.length)
  obtain ⟨v₁, h₁, hslice₁, -⟩ := v.exists_setInFront
    (VarInt.write (ofNat v.asSlice.length)) (by rw [hspace]; exact le_succ_of_le hmax)
  split_ifs at h with hlong
  · simp at h
  · rw [setInFront_eq, h₁, map_some] at h
    obtain rfl := Except.ok.inj (Option.some.inj h)
    exact ⟨by omega, hslice₁⟩

theorem fromCompressed_eq (data compressed : List UInt8) :
    ∃ v, fromCompressed data.length compressed = some v ∧
      v.asSlice = frame (VarInt.write (ofNat data.length) ++ compressed) := by
  have h₁ := length_write_le (ofNat data.length)
  have h₂ := length_write_le
    (ofNat (VarInt.writtenSize (ofNat data.length) + compressed.length))
  obtain ⟨v, hv, hslice⟩ := setInFront_twice ((FrontVec.new 10).extendFromSlice compressed)
    (ofNat data.length)
    (ofNat (VarInt.writtenSize (ofNat data.length) + compressed.length))
    (by simp only [frontSpace_extendFromSlice, frontSpace_new, VarInt.MAX_SIZE] at *
        omega)
  refine ⟨v, ?_, ?_⟩
  · simp only [fromCompressed, len_eq, asSlice_extendFromSlice,
      asSlice_new, nil_append]
    exact hv
  · rw [hslice, frame, length_append, writtenSize_eq]
    simp

variable {v : FrontVec}

theorem fromUncompressed_eq (hspace : v.frontSpace = 6) :
    ∃ v', fromUncompressed v = some v' ∧ v'.asSlice = frame (VarInt.write 0 ++ v.asSlice) := by
  have hmax := length_write_le (ofNat (v.asSlice.length + 1))
  obtain ⟨v', hv, hslice⟩ := setInFront_twice v 0 (ofNat (v.asSlice.length + 1))
    (by simp only [write_zero, hspace, VarInt.MAX_SIZE, length_singleton] at *
        omega)
  refine ⟨v', ?_, ?_⟩
  · simp only [fromUncompressed, len_eq]
    exact hv
  · rw [hslice, frame, write_zero]
    simp

theorem frames_of_fromData {v v' : FrontVec} (hspace : v.frontSpace = 6)
    (h : fromData zlib v compression = some (.ok v')) :
    ∃ body, Frames zlib v.asSlice compression body ∧ v'.asSlice = frame body := by
  cases compression with
  | none =>
    obtain ⟨hlength, hslice⟩ := fromDataUncompressed_ok hspace h
    exact ⟨v.asSlice, .plain hlength, hslice⟩
  | some c =>
    simp only [fromData, fromPacketData, len_eq, VarInt.MAX_SIZE] at h
    split_ifs at h with hlong hthreshold
    · simp at h
    · cases hdeflate : zlib.deflate c.level.toUInt32 v.asSlice with
      | error message => simp [hdeflate] at h
      | ok compressed =>
        obtain ⟨w, hw, hslice⟩ := fromCompressed_eq v.asSlice compressed
        simp only [hdeflate, hw, map_some] at h
        obtain rfl := Except.ok.inj (Option.some.inj h)
        exact ⟨_, .compressed (by omega) hthreshold hdeflate, hslice⟩
    · obtain ⟨w, hw, hslice⟩ := fromUncompressed_eq hspace
      rw [hw, map_some] at h
      obtain rfl := Except.ok.inj (Option.some.inj h)
      exact ⟨_, .stored (by omega) (by omega), hslice⟩

theorem exists_fromData_stored {c : CompressionInfo} (hspace : v.frontSpace = 6)
    (hmax : v.asSlice.length + 10 ≤ MAX_PACKET_DATA_SIZE)
    (h : v.asSlice.length < c.threshold.toNat) :
    ∃ v', fromData zlib v (some c) = some (.ok v') := by
  obtain ⟨v', hv', -⟩ := fromUncompressed_eq hspace
  have hlong : ¬ MAX_PACKET_DATA_SIZE < v.asSlice.length + VarInt.MAX_SIZE * 2 := by
    simp only [VarInt.MAX_SIZE]
    omega
  refine ⟨v', ?_⟩
  simp only [fromData, fromPacketData, len_eq, hlong, not_le.mpr h, hv', if_false,
    map_some]

theorem exists_fromData_compressed {c : CompressionInfo} {compressed : List UInt8}
    (hmax : v.asSlice.length + 10 ≤ MAX_PACKET_DATA_SIZE) (h : c.threshold.toNat ≤ v.asSlice.length)
    (hdeflate : zlib.deflate c.level.toUInt32 v.asSlice = .ok compressed) :
    ∃ v', fromData zlib v (some c) = some (.ok v') := by
  obtain ⟨v', hv', -⟩ := fromCompressed_eq v.asSlice compressed
  have hlong : ¬ MAX_PACKET_DATA_SIZE < v.asSlice.length + VarInt.MAX_SIZE * 2 := by
    simp only [VarInt.MAX_SIZE]
    omega
  refine ⟨v', ?_⟩
  simp only [fromData, fromPacketData, len_eq, hlong, h, hdeflate, hv', if_true, if_false,
    map_some]

/-- The condition that the encoder does not check with compression. -/
def Fits (zlib : Zlib) (compression : Option CompressionInfo) (data : List UInt8) : Prop :=
  match compression with
  | none => True
  | some c =>
    if c.threshold.toNat ≤ data.length then
      ∀ compressed, zlib.deflate c.level.toUInt32 data = .ok compressed →
        VarInt.writtenSize (ofNat data.length) + compressed.length < MAX_PACKET_SIZE
    else data.length + 1 < MAX_PACKET_SIZE

theorem Frames.fits_iff (hframes : Frames zlib data compression body) :
    Fits zlib compression data ↔ body.length < MAX_PACKET_SIZE := by
  cases hframes with
  | plain h => exact iff_of_true trivial h
  | stored hmax h =>
    rw [Fits, if_neg (by omega), write_zero, length_append, length_singleton,
      add_comm]
  | compressed hmax h hdeflate =>
    rw [Fits, if_pos h, length_append, writtenSize_eq]
    constructor
    · exact fun hfits => hfits _ hdeflate
    · intro hlength compressed' hdeflate'
      obtain rfl := Except.ok.inj (hdeflate.symm.trans hdeflate')
      exact hlength

end EncodedPacket

open EncodedPacket

namespace TCPNetworkDecoder

variable {zlib : Zlib} {compression : Option CompressionInfo} {id : Int32}
  {payload body rest : List UInt8}

theorem readLength_write (value : Int32) (rest : List UInt8) :
    readLength (VarInt.write value ++ rest) = .ok (value, rest) := by
  rw [readLength, read_write]

theorem readValue_write (value : Int32) (rest : List UInt8) :
    readValue (VarInt.write value ++ rest) = .ok (value, rest) := by
  rw [readValue, read_write]

theorem payload_eq (front : List UInt8) (hfront : front.length ≤ 1) :
    RawPacket.payload ⟨id, front ++ (VarInt.write id ++ payload),
      UInt32.ofNat (front.length + ((VarInt.write id ++ payload).length - payload.length))⟩ =
      payload := by
  have hid := length_write_le id
  have hstart : (VarInt.write id ++ payload).length - payload.length =
      (VarInt.write id).length := by simp
  have hlt : front.length + (VarInt.write id).length < UInt32.size := by
    simp only [VarInt.MAX_SIZE, UInt32.size] at hid ⊢
    omega
  simp only [RawPacket.payload]
  rw [hstart, UInt32.toNat_ofNat_of_lt' hlt, ← append_assoc, ← length_append,
    drop_left]

theorem decompress_stored (threshold : UInt32) (data : List UInt8)
    (h : data.length ≤ threshold.toNat) :
    decompress zlib threshold (VarInt.write 0 ++ data) = .ok (VarInt.write 0 ++ data, 1) := by
  have hraw : ¬ threshold.toNat < (VarInt.write 0 ++ data).length - VarInt.writtenSize 0 := by
    simp only [write_zero, writtenSize_eq, length_append, length_singleton]
    omega
  have hstart : (VarInt.write 0 ++ data).length - data.length = 1 := by
    simp [write_zero]
  have hzero : asUsize 0 = 0 := rfl
  simp only [decompress, readValue_write, hstart, hraw, hzero, not_lt_zero, lt_irrefl,
    if_false]

variable {data compressed : List UInt8}

theorem readExactly_deflate (hzlib : zlib.Inverse) {level : UInt32}
    (h : zlib.deflate level data = .ok compressed) :
    readExactly zlib data.length compressed = .ok data := by
  simp [readExactly, hzlib level data compressed h]

theorem decompress_compressed (hzlib : zlib.Inverse) (threshold level : UInt32)
    (hpos : 0 < data.length)
    (hmax : data.length < MAX_PACKET_DATA_SIZE) (h : zlib.deflate level data = .ok compressed) :
    decompress zlib threshold (VarInt.write (ofNat data.length) ++ compressed) =
      .ok (data, 0) := by
  have hsize : asUsize (ofNat data.length) = data.length :=
    asUsize_ofNat (lt_trans hmax (by decide))
  have hlong : ¬ MAX_PACKET_DATA_SIZE < data.length := by omega
  simp only [decompress, readValue_write, hsize, hlong, hpos, if_true, if_false,
    readExactly_deflate hzlib h, Except.map]

section

variable (hzlib : zlib.Inverse)
  (hframes : Frames zlib (VarInt.write id ++ payload) compression body)

include hzlib hframes

/-- The buffer of a body holds the packet behind a front of at most one byte. -/
theorem packetBuffer_body :
    ∃ front, front.length ≤ 1 ∧ packetBuffer zlib (compression.map (·.threshold)) body =
      .ok (front ++ (VarInt.write id ++ payload), front.length) := by
  cases hframes with
  | plain h => exact ⟨[], zero_le 1, rfl⟩
  | stored hmax h =>
    refine ⟨VarInt.write 0, by rw [write_zero]; exact le_refl 1, ?_⟩
    have hlength : (VarInt.write 0).length = 1 := by rw [write_zero]; rfl
    rw [hlength]
    exact decompress_stored _ _ (le_of_lt h)
  | compressed hmax h hdeflate =>
    have hpos : 0 < (VarInt.write id ++ payload).length := by
      rw [length_append]
      exact Nat.add_pos_left (length_writeLoop_pos _) _
    exact ⟨[], Nat.zero_le 1, decompress_compressed hzlib _ _ hpos hmax hdeflate⟩

theorem parsePacket_body :
    ∃ packet, parsePacket zlib (compression.map (·.threshold)) body = .ok packet ∧
      packet.id = id ∧ packet.payload = payload := by
  obtain ⟨front, hfront, hbuffer⟩ := packetBuffer_body hzlib hframes
  refine ⟨_, ?_, rfl, payload_eq front hfront⟩
  simp only [parsePacket, hbuffer, bind, Except.bind, drop_left, readValue_write]
  rfl

end

theorem getRawPacket_frame (threshold : Option UInt32) {packet : RawPacket}
    (hlength : body.length ≤ MAX_PACKET_SIZE)
    (hparse : parsePacket zlib threshold body = .ok packet) (rest : List UInt8) :
    getRawPacket zlib threshold (frame body ++ rest) = .ok (packet, rest) := by
  have hsize : asUsize (ofNat body.length) = body.length :=
    asUsize_ofNat (lt_of_le_of_lt hlength (by decide))
  have hlong : ¬ MAX_PACKET_SIZE < body.length := by omega
  have hshort : ¬ (body ++ rest).length < body.length := by simp
  simp only [getRawPacket, frame, append_assoc, readLength_write, hsize, hlong, hshort,
    if_false, take_left, hparse, drop_left, Except.map]

theorem length_le_of_getRawPacket {threshold : Option UInt32} {packet : RawPacket}
    (h : getRawPacket zlib threshold (frame body) = .ok (packet, [])) :
    body.length ≤ MAX_PACKET_SIZE := by
  simp only [getRawPacket, frame, readLength_write] at h
  split_ifs at h with hlong hshort
  cases hparse : parsePacket zlib threshold
      (body.take (asUsize (ofNat body.length))) with
  | error e => simp [hparse, Except.map] at h
  | ok packet' =>
    simp only [hparse, Except.map, Except.ok.injEq, Prod.mk.injEq] at h
    have hdrop := drop_eq_nil_iff.mp h.2
    omega

/-- The length field of a frame, and the frame read back with the same setting. -/
structure RoundTrips (zlib : Zlib) (compression : Option CompressionInfo) (frame : List UInt8)
    (id : Int32) (payload : List UInt8) : Prop where
  field : ∃ length body, frame = VarInt.write length ++ body ∧
    asUsize length ≤ MAX_PACKET_SIZE ∧ (VarInt.write length).length ≤ 3
  read : ∀ rest, ∃ packet,
    getRawPacket zlib (compression.map (·.threshold)) (frame ++ rest) = .ok (packet, rest) ∧
      packet.id = id ∧ packet.payload = payload

theorem roundTrips_frame (hzlib : zlib.Inverse)
    (hframes : Frames zlib (VarInt.write id ++ payload) compression body)
    (hlength : body.length < MAX_PACKET_SIZE) :
    RoundTrips zlib compression (frame body) id payload where
  field := by
    refine ⟨ofNat body.length, body, rfl, ?_, ?_⟩
    · rw [asUsize_ofNat (lt_trans hlength (by decide))]
      exact le_of_lt hlength
    · rw [length_write_le_iff 2, toNat_toUInt32_ofNat (lt_trans hlength (by decide))]
      exact hlength
  read := by
    intro rest
    obtain ⟨packet, hparse, hid, hpayload⟩ := parsePacket_body hzlib hframes
    exact ⟨packet, getRawPacket_frame _ (le_of_lt hlength) hparse rest, hid, hpayload⟩

theorem length_lt_of_roundTrips
    (h : RoundTrips zlib compression (frame body) id payload) : body.length < MAX_PACKET_SIZE := by
  obtain ⟨packet, hread, -, -⟩ := h.read []
  rw [append_nil] at hread
  have hle := length_le_of_getRawPacket hread
  obtain ⟨length, body', heq, -, hfield⟩ := h.field
  have hsame : readLength (frame body) = .ok (length, body') := by
    rw [heq, readLength_write]
  rw [frame, readLength_write] at hsame
  obtain ⟨rfl, -⟩ := Prod.mk.inj (Except.ok.inj hsame)
  rw [length_write_le_iff 2,
    toNat_toUInt32_ofNat (lt_of_le_of_lt hle (by decide))] at hfield
  exact hfield

theorem getRawPackets_flatMap {packets : List (Int32 × List UInt8)} {frames : List (List UInt8)}
    (h : List.Forall₂ (fun packet frame => RoundTrips zlib compression frame packet.1 packet.2)
      packets frames) (rest : List UInt8) :
    ∃ raws, getRawPackets zlib (compression.map (·.threshold)) packets.length
        (frames.flatten ++ rest) = .ok (raws, rest) ∧
      raws.map (fun raw => (raw.id, raw.payload)) = packets := by
  induction h with
  | nil => exact ⟨[], rfl, rfl⟩
  | @cons packet frame packets frames hhead htail ih =>
    obtain ⟨raws, hraws, hpackets⟩ := ih
    obtain ⟨raw, hraw, hid, hpayload⟩ := hhead.read (frames.flatten ++ rest)
    refine ⟨raw :: raws, ?_, ?_⟩
    · simp only [flatten_cons, append_assoc, length_cons, getRawPackets, hraw,
        bind, Except.bind, hraws]
      rfl
    · rw [map_cons, hpackets, hid, hpayload]

theorem asSlice_packetData (id : Int32) (payload : List UInt8) :
    (packetData id payload).asSlice = VarInt.write id ++ payload := by
  simp [packetData]

theorem roundTrips_iff (hzlib : zlib.Inverse) {v : FrontVec}
    (h : fromData zlib (packetData id payload) compression = some (.ok v)) :
    RoundTrips zlib compression v.asSlice id payload ↔
      Fits zlib compression (VarInt.write id ++ payload) := by
  obtain ⟨body, hframes, hv⟩ := frames_of_fromData rfl h
  rw [asSlice_packetData] at hframes
  rw [hv, hframes.fits_iff]
  exact ⟨length_lt_of_roundTrips, roundTrips_frame hzlib hframes⟩

/-- An accepted packet has a length field within the limits and is read back behind any other
bytes exactly when its frame fits, which is checked without compression only. Packets that fit
are read back from their concatenation. -/
theorem fromData_getRawPacket (zlib : Zlib) (hzlib : zlib.Inverse)
    (compression : Option CompressionInfo) :
    (∀ id payload v, fromData zlib (packetData id payload) compression = some (.ok v) →
      (RoundTrips zlib compression v.asSlice id payload ↔
        Fits zlib compression (VarInt.write id ++ payload))) ∧
    (∀ (packets : List (Int32 × List UInt8)) (frames : List FrontVec) (rest : List UInt8),
      List.Forall₂ (fun packet v =>
        fromData zlib (packetData packet.1 packet.2) compression = some (.ok v) ∧
        Fits zlib compression (VarInt.write packet.1 ++ packet.2)) packets frames →
      ∃ raws, getRawPackets zlib (compression.map (·.threshold)) packets.length
          ((frames.map FrontVec.asSlice).flatten ++ rest) = .ok (raws, rest) ∧
        raws.map (fun raw => (raw.id, raw.payload)) = packets) := by
  constructor
  · intro id payload v h
    exact roundTrips_iff hzlib h
  · intro packets frames rest h
    apply getRawPackets_flatMap
    rw [forall₂_map_right_iff]
    apply h.imp
    rintro packet v ⟨hencode, hfits⟩
    exact (roundTrips_iff hzlib hencode).mpr hfits

/-- The library on texts that it stores without compression: a header, one stored block and a
checksum. -/
def storedZlib : Zlib where
  deflate _ data :=
    if data.length < 65536 then
      let lo := UInt8.ofNat (data.length % 256)
      let hi := UInt8.ofNat (data.length / 256)
      let a := data.foldl (fun a byte => (a + byte.toNat) % 65521) 1
      let b := (data.foldl (fun (s : ℕ × ℕ) byte =>
        ((s.1 + byte.toNat) % 65521, (s.2 + (s.1 + byte.toNat) % 65521) % 65521)) (1, 0)).2
      .ok ([0x78, 0x01, 0x01, lo, hi, ~~~ lo, ~~~ hi] ++ data ++
        [UInt8.ofNat (b / 256), UInt8.ofNat b, UInt8.ofNat (a / 256), UInt8.ofNat a])
    else .error "too long for one block"
  inflate
    | 0x78 :: 0x01 :: 0x01 :: lo :: hi :: _ :: _ :: rest =>
      (rest.take (lo.toNat + 256 * hi.toNat), none)
    | _ => ([], some "corrupt deflate stream")

theorem storedZlib_inverse : storedZlib.Inverse := by
  intro level data compressed h
  simp only [storedZlib] at h
  split_ifs at h with hlength
  obtain rfl := Except.ok.inj h
  have hlo : (UInt8.ofNat (data.length % 256)).toNat = data.length % 256 :=
    UInt8.toNat_ofNat_of_lt' (mod_lt _ (by decide))
  have hhi : (UInt8.ofNat (data.length / 256)).toNat = data.length / 256 :=
    UInt8.toNat_ofNat_of_lt' (by simp only [UInt8.size]; omega)
  simp only [storedZlib, cons_append, nil_append, hlo, hhi,
    mod_add_div, take_left]

theorem fromData_getRawPacket_stored : ∃ v,
    fromData storedZlib (packetData 0 [104, 105]) (some ⟨2, by decide, 0⟩) = some (.ok v) ∧
      RoundTrips storedZlib (some ⟨2, by decide, 0⟩) v.asSlice 0 [104, 105] := by
  have hdata : (packetData 0 [104, 105]).asSlice = [0, 104, 105] := by
    rw [asSlice_packetData, write_zero]
    rfl
  obtain ⟨compressed, hdeflate⟩ : ∃ compressed,
      storedZlib.deflate 0 (packetData 0 [104, 105]).asSlice = .ok compressed := by
    rw [hdata]
    exact ⟨_, rfl⟩
  obtain ⟨v, hv⟩ := exists_fromData_compressed (c := ⟨2, by decide, 0⟩)
    (by rw [hdata]; decide) (by rw [hdata]; decide) hdeflate
  refine ⟨v, hv, ?_⟩
  apply ((fromData_getRawPacket storedZlib storedZlib_inverse _).1 _ _ v hv).mpr
  rw [← asSlice_packetData, hdata, Fits, if_pos (by decide)]
  rintro compressed ⟨⟩
  decide

/-- A packet of more than two megabytes below a higher threshold is accepted, but its length
is out of bounds for the reader. -/
theorem fromData_not_roundTrips : ∃ v,
    fromData storedZlib (packetData 0 (List.replicate 2097152 0))
      (some ⟨4194304, by decide, 4⟩) = some (.ok v) ∧
    ¬ RoundTrips storedZlib (some ⟨4194304, by decide, 4⟩) v.asSlice 0
      (List.replicate 2097152 0) := by
  have hlength : (VarInt.write 0 ++ List.replicate 2097152 0).length = 2097153 := by
    rw [write_zero, length_append, length_replicate, length_singleton]
  obtain ⟨v, hv⟩ := exists_fromData_stored (v := packetData 0 (List.replicate 2097152 0))
    (c := ⟨4194304, by decide, 4⟩) rfl
    (by rw [asSlice_packetData, hlength]; decide) (by rw [asSlice_packetData, hlength]; decide)
  refine ⟨v, hv, ?_⟩
  rw [roundTrips_iff storedZlib_inverse hv, Fits, hlength, if_neg (by decide)]
  decide

end TCPNetworkDecoder

end Steel
