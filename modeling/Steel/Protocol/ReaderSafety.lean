import Steel.Protocol.PacketCodec

/-! # Reading packets from hostile streams

The lengths of a frame come from the other side of the connection. Here every
operation of the reader that could panic is checked, and no check ever fails:
an overlong field is never shorter than the value it holds, so the sizes that are
subtracted and the starts of the slices stay within the frame.
-/

namespace Steel

open Option List Nat
open TCPNetworkDecoder (readExactly)

namespace VarInt

theorem readLoop_ok {n : ℕ} (hn : n ≤ 5) {val : BitVec 32} (hval : val.toNat < 128 ^ (5 - n))
    {bytes rest : List UInt8} {value : Int32} (h : readLoop n val bytes = .ok (value, rest)) :
    ∃ field, bytes = field ++ rest ∧ field ≠ [] ∧ readLoop n val field = .ok (value, []) ∧
      value.toUInt32.toNat < 128 ^ (5 - n + field.length) := by
  induction n generalizing val bytes with
  | zero => simp [readLoop] at h
  | succ n ih =>
    cases bytes with
    | nil => simp [readLoop] at h
    | cons byte bytes =>
      have hsub : 5 - (n + 1) = 4 - n := by omega
      have hgroup : (val ||| ((byte.toBitVec.setWidth 32 &&& 0x7F#32) <<< ((4 - n) * 7))).toNat <
          128 ^ (4 - n + 1) := by
        have hpow : ∀ k, 128 ^ k = 2 ^ (k * 7) := fun k => by rw [Nat.mul_comm, Nat.pow_mul]
        rw [hsub, hpow] at hval
        rw [hpow, BitVec.toNat_or]
        refine Nat.or_lt_two_pow (hval.trans_le (Nat.pow_le_pow_right (by decide) (by omega))) ?_
        rw [BitVec.toNat_shiftLeft]
        refine (mod_le _ _).trans_lt ?_
        have hlow : (byte.toBitVec.setWidth 32 &&& 0x7F#32).toNat < 2 ^ 7 := by
          rw [BitVec.toNat_and]
          exact (and_seven_ones _).trans_lt (mod_lt _ (by decide))
        rw [Nat.shiftLeft_eq, Nat.add_mul, Nat.one_mul, Nat.pow_add, Nat.mul_comm (2 ^ _)]
        exact Nat.mul_lt_mul_of_pos_right hlow (Nat.pow_pos (by decide))
      rw [readLoop] at h
      split at h
      case isTrue hlast =>
        obtain ⟨rfl, rfl⟩ := Prod.mk.inj (Except.ok.inj h)
        refine ⟨[byte], rfl, by simp, by rw [readLoop, if_pos hlast], ?_⟩
        rw [hsub]
        exact hgroup
      case isFalse hmore =>
        have hstep : 4 - n + 1 = 5 - n := by omega
        rw [hstep] at hgroup
        obtain ⟨field, rfl, -, hfield, hlt⟩ := ih (by omega) hgroup h
        refine ⟨byte :: field, rfl, by simp, by rw [readLoop, if_neg hmore, hfield], ?_⟩
        rw [length_cons, show 5 - (n + 1) + (field.length + 1) = 5 - n + field.length by omega]
        exact hlt

theorem read_ok {bytes rest : List UInt8} {value : Int32} (h : read bytes = .ok (value, rest)) :
    ∃ field, bytes = field ++ rest ∧ read field = .ok (value, []) ∧
      writtenSize value ≤ field.length := by
  obtain ⟨field, hbytes, hne, hfield, hlt⟩ := readLoop_ok le_rfl (by decide) h
  refine ⟨field, hbytes, hfield, ?_⟩
  have hpos := length_pos_iff.mpr hne
  obtain ⟨k, hk⟩ : ∃ k, field.length = k + 1 := ⟨field.length - 1, by omega⟩
  rw [hk, writtenSize_le_iff, ← hk]
  rwa [Nat.sub_self, Nat.zero_add] at hlt

end VarInt

namespace Checked

/-- A difference of `usize` values. -/
def sub (a b : ℕ) : Option ℕ := if b ≤ a then some (a - b) else none

/-- A sum of `usize` values. -/
def add (a b : ℕ) : Option ℕ := if a + b < 2 ^ 64 then some (a + b) else none

/-- `value << amount` for `i32`. -/
def shl (value : BitVec 32) (amount : ℕ) : Option (BitVec 32) :=
  if amount < 32 then some (value <<< amount) else none

/-- `bytes[start..]`. -/
def sliceFrom (bytes : List UInt8) (start : ℕ) : Option (List UInt8) :=
  if start ≤ bytes.length then some (bytes.drop start) else none

theorem sub_of_le {a b : ℕ} (h : b ≤ a) : sub a b = some (a - b) := if_pos h

theorem add_of_lt {a b : ℕ} (h : a + b < 2 ^ 64) : add a b = some (a + b) := if_pos h

theorem sliceFrom_of_le {bytes : List UInt8} {start : ℕ} (h : start ≤ bytes.length) :
    sliceFrom bytes start = some (bytes.drop start) := if_pos h

def writtenSize (val : Int32) : Option ℕ :=
  if val = 0 then some 1
  else (sub 31 val.toBitVec.clz.toNat).bind fun bits => add (bits / 7) 1

theorem writtenSize_eq (val : Int32) : writtenSize val = some (VarInt.writtenSize val) := by
  unfold writtenSize VarInt.writtenSize
  split
  case isTrue => rfl
  case isFalse hval =>
    have hne : val.toBitVec ≠ 0#32 := fun h => hval (Int32.toBitVec_inj.mp h)
    have hzeros : val.toBitVec.clz.toNat < 32 := BitVec.clz_lt_iff_ne_zero.mpr hne
    have hlow := BitVec.two_pow_sub_clz_le_toNat_of_ne_zero (by decide) hne
    have hhigh := val.toBitVec.toNat_lt_two_pow_sub_clz
    have hlog : val.toUInt32.toNat.log2 = 31 - val.toBitVec.clz.toNat := by
      have hpos := Nat.two_pow_pos (32 - 1 - val.toBitVec.clz.toNat)
      change val.toBitVec.toNat.log2 = _
      rw [log2_eq_iff (hpos.trans_le hlow).ne',
        show 31 - val.toBitVec.clz.toNat + 1 = 32 - val.toBitVec.clz.toNat by omega]
      exact ⟨hlow, hhigh⟩
    rw [sub_of_le (by omega), bind_some, add_of_lt (by omega), hlog]

/-- The loop of `VarInt::read` and of `read_async`, with `n` of the five bytes left. -/
def readLoop : ℕ → BitVec 32 → List UInt8 → Option (Except VarInt.ReadError (Int32 × List UInt8))
  | 0, _, _ => some (.error .tooLong)
  | _ + 1, _, [] => some (.error .unexpectedEof)
  | n + 1, val, byte :: bytes => do
    let i ← sub 4 n
    let group ← shl (byte.toBitVec.setWidth 32 &&& 0x7F#32) (i * 7)
    let val := val ||| group
    if byte &&& 0x80 = 0 then return .ok (Int32.ofBitVec val, bytes) else readLoop n val bytes

theorem readLoop_eq {n : ℕ} (hn : n ≤ 5) (val : BitVec 32) (bytes : List UInt8) :
    readLoop n val bytes = some (VarInt.readLoop n val bytes) := by
  induction n generalizing val bytes with
  | zero => rfl
  | succ n ih =>
    cases bytes with
    | nil => rfl
    | cons byte bytes =>
      have hshift : shl (byte.toBitVec.setWidth 32 &&& 0x7F#32) ((4 - n) * 7) =
          some ((byte.toBitVec.setWidth 32 &&& 0x7F#32) <<< ((4 - n) * 7)) := if_pos (by omega)
      simp only [readLoop, VarInt.readLoop, sub_of_le (show n ≤ 4 by omega), hshift,
        bind_eq_bind, bind_some, ih (by omega)]
      split <;> rfl

/-- A connection: the bytes that arrive, and the message of the error behind them. -/
structure Connection where
  bytes : List UInt8
  ending : String

/-- `VarInt::read_async`. Every error of the stream becomes the same one. -/
def readLength (reader : Connection) : Option (Except PacketError (Int32 × Connection)) :=
  (readLoop 5 0 reader.bytes).map fun
    | .ok (value, bytes) => .ok (value, ⟨bytes, reader.ending⟩)
    | .error _ => .error (.malformedValue "VarInt")

/-- `VarInt::read` with its error as a packet error. -/
def readValue (cursor : List UInt8) : Option (Except PacketError (Int32 × List UInt8)) :=
  (readLoop 5 0 cursor).map fun
    | .ok result => .ok result
    | .error .unexpectedEof => .error (.malformedValue "failed to fill whole buffer")
    | .error .tooLong => .error (.malformedValue "VarInt to long")

/-- `read_exact` with its error as a packet error. -/
def readExact (reader : Connection) (len : ℕ) : Except PacketError (List UInt8 × Connection) :=
  if reader.bytes.length < len then .error (.other reader.ending)
  else .ok (reader.bytes.take len, ⟨reader.bytes.drop len, reader.ending⟩)

/-- `from_buffer` with its debug assertions. -/
def fromBuffer (id : Int32) (buffer : List UInt8) (payloadStart : ℕ) : Option RawPacket :=
  if payloadStart ≤ buffer.length ∧ payloadStart ≤ MAX_PACKET_DATA_SIZE then
    some ⟨id, buffer, UInt32.ofNat payloadStart⟩
  else none

section Reader

variable (zlib : Zlib)

/-- The buffer that owns the packet and where the packet starts in it, with compression. -/
def decompress (threshold : UInt32) (packetData : List UInt8) :
    Option (Except PacketError (List UInt8 × ℕ)) := do
  match ← readValue packetData with
  | .error e => return .error e
  | .ok (value, cursor) =>
    let decompressedLen := asUsize value
    let rawPacketLen ← sub packetData.length (← writtenSize (Int32.ofNat decompressedLen))
    if MAX_PACKET_DATA_SIZE < decompressedLen then return .error (.tooLong decompressedLen)
    else if 0 < decompressedLen then
      return (readExactly zlib decompressedLen cursor).map fun decompressed =>
        (decompressed, 0)
    else if threshold.toNat < rawPacketLen then return .error .notCompressed
    else return .ok (packetData, packetData.length - cursor.length)

def packetBuffer (compression : Option UInt32) (packetData : List UInt8) :
    Option (Except PacketError (List UInt8 × ℕ)) :=
  match compression with
  | some threshold => decompress zlib threshold packetData
  | none => some (.ok (packetData, 0))

def parsePacket (compression : Option UInt32) (packetData : List UInt8) :
    Option (Except PacketError RawPacket) := do
  match ← packetBuffer zlib compression packetData with
  | .error e => return .error e
  | .ok (buffer, packetDataStart) =>
    let packet ← sliceFrom buffer packetDataStart
    match ← readValue packet with
    | .error e => return .error e
    | .ok (id, cursor) =>
      let payloadStart ← add packetDataStart (packet.length - cursor.length)
      return .ok (← fromBuffer id buffer payloadStart)

/-- `get_raw_packet`, with what it leaves of the connection. -/
def getRawPacket (compression : Option UInt32) (reader : Connection) :
    Option (Except PacketError (RawPacket × Connection)) := do
  match ← readLength reader with
  | .error e => return .error e
  | .ok (value, reader) =>
    let packetLen := asUsize value
    if MAX_PACKET_SIZE < packetLen then return .error .outOfBounds
    else
      match readExact reader packetLen with
      | .error e => return .error e
      | .ok (packetData, reader) =>
        return (← parsePacket zlib compression packetData).map fun packet => (packet, reader)

end Reader

theorem readValue_eq (cursor : List UInt8) : readValue cursor = some (Steel.readValue cursor) := by
  rw [readValue, readLoop_eq le_rfl, map_some]
  unfold Steel.readValue VarInt.read
  rcases VarInt.readLoop 5 0 cursor with (_ | _) | _ <;> rfl

theorem ofNat_asUsize (value : Int32) : Int32.ofNat (asUsize value) = value := by
  have hlow := value.le_toInt
  have hhigh := value.toInt_lt
  have hsize : ((Int32.size : ℕ) : ℤ) = 2 ^ 32 := by decide
  rw [← Int32.toInt_inj, Int32.toInt_ofNat', asUsize, Int.toNat_of_nonneg (by omega), Int.bmod,
    hsize]
  omega

theorem readValue_ok {cursor rest : List UInt8} {value : Int32}
    (h : Steel.readValue cursor = .ok (value, rest)) :
    VarInt.writtenSize value ≤ cursor.length ∧ rest.length ≤ cursor.length := by
  have hread : VarInt.read cursor = .ok (value, rest) := by
    unfold Steel.readValue at h
    split at h
    case h_1 hread =>
      obtain rfl := Except.ok.inj h
      exact hread
    all_goals simp at h
  obtain ⟨field, rfl, -, hsize⟩ := VarInt.read_ok hread
  rw [length_append]
  omega

variable {zlib : Zlib} {compression : Option UInt32} {packetData : List UInt8}

theorem decompress_eq (threshold : UInt32) : decompress zlib threshold packetData =
      some (TCPNetworkDecoder.decompress zlib threshold packetData) := by
  rw [decompress, TCPNetworkDecoder.decompress, readValue_eq]
  dsimp only [bind_eq_bind, bind_some]
  cases h : Steel.readValue packetData with
  | error e => rfl
  | ok result =>
    obtain ⟨value, cursor⟩ := result
    have hsize := (readValue_ok h).1
    dsimp only
    rw [ofNat_asUsize, writtenSize_eq, bind_some, sub_of_le hsize, bind_some]
    split_ifs <;> rfl

theorem readExactly_length {decompressedLen : ℕ} {cursor bytes : List UInt8}
    (h : readExactly zlib decompressedLen cursor = .ok bytes) :
    bytes.length = decompressedLen := by
  unfold readExactly at h
  dsimp only at h
  split_ifs at h with hshort hlong
  split at h
  case h_1 => simp at h
  case h_2 =>
    obtain rfl := Except.ok.inj h
    omega

theorem packetBuffer_ok (hlen : packetData.length ≤ MAX_PACKET_SIZE) {buffer : List UInt8}
    {packetDataStart : ℕ} (h : TCPNetworkDecoder.packetBuffer zlib compression packetData =
      .ok (buffer, packetDataStart)) :
    packetDataStart ≤ buffer.length ∧ buffer.length ≤ MAX_PACKET_DATA_SIZE := by
  have hmax : MAX_PACKET_SIZE ≤ MAX_PACKET_DATA_SIZE := by decide
  cases compression with
  | none =>
    obtain ⟨rfl, rfl⟩ := Prod.mk.inj (Except.ok.inj h)
    exact ⟨zero_le _, hlen.trans hmax⟩
  | some threshold =>
    rw [TCPNetworkDecoder.packetBuffer, TCPNetworkDecoder.decompress] at h
    split at h
    case h_1 => simp at h
    case h_2 value cursor _ =>
      dsimp only at h
      split_ifs at h with hlong hpos
      case pos =>
        cases hexact : readExactly zlib (asUsize value) cursor with
        | error e => simp [hexact, Except.map] at h
        | ok bytes =>
          rw [hexact] at h
          obtain ⟨rfl, rfl⟩ := Prod.mk.inj (Except.ok.inj h)
          rw [readExactly_length hexact]
          exact ⟨zero_le _, not_lt.mp hlong⟩
      case neg =>
        obtain ⟨rfl, rfl⟩ := Prod.mk.inj (Except.ok.inj h)
        exact ⟨sub_le _ _, hlen.trans hmax⟩

theorem parsePacket_eq (hlen : packetData.length ≤ MAX_PACKET_SIZE) :
    parsePacket zlib compression packetData =
      some (TCPNetworkDecoder.parsePacket zlib compression packetData) := by
  have hbuffer : packetBuffer zlib compression packetData =
      some (TCPNetworkDecoder.packetBuffer zlib compression packetData) := by
    cases compression with
    | none => rfl
    | some threshold => exact decompress_eq threshold
  rw [parsePacket, TCPNetworkDecoder.parsePacket, hbuffer]
  dsimp only [bind_eq_bind, bind_some]
  cases h : TCPNetworkDecoder.packetBuffer zlib compression packetData with
  | error e => rfl
  | ok result =>
    obtain ⟨buffer, packetDataStart⟩ := result
    obtain ⟨hstart, hsmall⟩ := packetBuffer_ok hlen h
    dsimp only [bind, Except.bind]
    rw [sliceFrom_of_le hstart, bind_some, readValue_eq, bind_some]
    cases hread : Steel.readValue (buffer.drop packetDataStart) with
    | error e => rfl
    | ok result =>
      obtain ⟨id, cursor⟩ := result
      have hlength := (readValue_ok hread).2
      rw [length_drop] at hlength
      have hstart' : packetDataStart + ((buffer.drop packetDataStart).length - cursor.length) ≤
          buffer.length := by
        rw [length_drop]
        omega
      have hin := hstart'.trans hsmall
      dsimp only
      rw [add_of_lt (hin.trans_lt (by decide)), bind_some, fromBuffer, if_pos ⟨hstart', hin⟩]
      rfl

def answer (zlib : Zlib) (compression : Option UInt32) (reader : Connection) :
    Except PacketError (RawPacket × Connection) :=
  match VarInt.read reader.bytes with
  | .error _ => .error (.malformedValue "VarInt")
  | .ok (value, bytes) =>
    if MAX_PACKET_SIZE < asUsize value then .error .outOfBounds
    else if bytes.length < asUsize value then .error (.other reader.ending)
    else (TCPNetworkDecoder.parsePacket zlib compression (bytes.take (asUsize value))).map
      fun packet => (packet, ⟨bytes.drop (asUsize value), reader.ending⟩)

theorem getRawPacket_eq (reader : Connection) :
    getRawPacket zlib compression reader = some (answer zlib compression reader) := by
  rw [getRawPacket, readLength, readLoop_eq le_rfl, answer, VarInt.read]
  cases VarInt.readLoop 5 0 reader.bytes with
  | error e => rfl
  | ok result =>
    obtain ⟨value, bytes⟩ := result
    dsimp only [bind_eq_bind, map_some, bind_some, readExact]
    split_ifs with hlong hshort
    · rfl
    · rfl
    · dsimp only
      rw [parsePacket_eq ((length_take_le _ _).trans (not_lt.mp hlong))]
      rfl

theorem asUsize_le {value : Int32} (h : asUsize value ≤ MAX_PACKET_SIZE) :
    value.toInt = asUsize value := by
  have hlow := value.le_toInt
  have hhigh := value.toInt_lt
  rw [asUsize, MAX_PACKET_SIZE] at h
  rw [asUsize]
  omega

/-- A packet has taken its length field and as many bytes as that field says. -/
theorem answer_ok {reader rest : Connection} {packet : RawPacket}
    (h : answer zlib compression reader = .ok (packet, rest)) :
    ∃ packetLen field packetData, VarInt.read field = .ok (packetLen, []) ∧
      packetLen.toInt = (packetData : List UInt8).length ∧
      reader.bytes = field ++ packetData ++ rest.bytes ∧ rest.ending = reader.ending := by
  unfold answer at h
  split at h
  case h_1 => simp at h
  case h_2 value bytes hread =>
    split_ifs at h with hlong hshort
    obtain ⟨field, hbytes, hfield, -⟩ := VarInt.read_ok hread
    have hlen : (bytes.take (asUsize value)).length = asUsize value :=
      length_take_of_le (not_lt.mp hshort)
    cases hparse : TCPNetworkDecoder.parsePacket zlib compression
        (bytes.take (asUsize value)) with
    | error e => simp [hparse, Except.map] at h
    | ok packet' =>
      rw [hparse] at h
      obtain ⟨-, rfl⟩ := Prod.mk.inj (Except.ok.inj h)
      refine ⟨value, field, bytes.take (asUsize value), hfield, ?_, ?_, rfl⟩
      · rw [hlen]
        exact asUsize_le (not_lt.mp hlong)
      · rw [append_assoc, take_append_drop, hbytes]

/-- The reader answers every stream: no check fails, and a packet takes its frame and no more. -/
theorem getRawPacket_total (zlib : Zlib) (compression : Option UInt32) (reader : Connection) :
    ∃ answer, getRawPacket zlib compression reader = some answer ∧
      ∀ packet rest, answer = .ok (packet, rest) → ∃ packetLen field packetData,
        VarInt.read field = .ok (packetLen, []) ∧
        packetLen.toInt = (packetData : List UInt8).length ∧
        reader.bytes = field ++ packetData ++ rest.bytes ∧ rest.ending = reader.ending :=
  ⟨answer zlib compression reader, getRawPacket_eq reader, fun _ _ => answer_ok⟩

end Checked

end Steel
