import Steel.Utils.FrontVec

/-! # Encoding packets and reading them back

A packet is its id and payload behind a length field. With compression there is a second field with
the uncompressed length, or zero for a packet below the threshold.
-/

namespace Steel

open VarInt
open Int32 (ofNat)

def MAX_PACKET_SIZE : ℕ := 2097152

def MAX_PACKET_DATA_SIZE : ℕ := 8388608

inductive PacketError where
  | tooLong (length : ℕ)
  | outOfBounds
  | malformedValue (message : String)
  | decompressionFailed (message : String)
  | compressionFailed (message : String)
  | notCompressed
  | other (message : String)
  | invalidProtocol (message : String)
  deriving DecidableEq

/-- A compressor for every level, and what a decoder yields before it ends or fails. -/
structure Zlib where
  deflate : UInt32 → List UInt8 → Except String (List UInt8)
  inflate : List UInt8 → List UInt8 × Option String

/-- Inflating a compressed text yields the text and then the end of the stream. -/
def Zlib.Inverse (zlib : Zlib) : Prop :=
  ∀ level data compressed, zlib.deflate level data = .ok compressed →
    zlib.inflate compressed = (data, none)

structure CompressionInfo where
  threshold : UInt32
  threshold_ne_zero : threshold ≠ 0
  level : Int32

namespace EncodedPacket

variable (zlib : Zlib)

/-- A packet with its id, behind the reserved space of `write_vec`. -/
def packetData (id : Int32) (payload : List UInt8) : FrontVec :=
  (FrontVec.new 6).extendFromSlice (write id ++ payload)

/-- `from_data_uncompressed`. Here and below `none` is a panic of `set_in_front`. -/
def fromDataUncompressed (packetData : FrontVec) : Option (Except PacketError FrontVec) :=
  let dataLen := packetData.len
  let varintSize := writtenSize (ofNat dataLen)
  let completeLen := varintSize + dataLen
  if MAX_PACKET_SIZE < completeLen then some (.error (.tooLong completeLen))
  else (setInFront (ofNat dataLen) packetData varintSize).map .ok

/-- The compressed branch of `from_packet_data`. -/
def fromCompressed (dataLen : ℕ) (compressed : List UInt8) : Option FrontVec :=
  let buf := (FrontVec.new 10).extendFromSlice compressed
  let varintSize := writtenSize (ofNat dataLen)
  let fullLen := varintSize + buf.len
  let fullVarintSize := writtenSize (ofNat fullLen)
  (setInFront (ofNat dataLen) buf varintSize).bind fun buf =>
    setInFront (ofNat fullLen) buf fullVarintSize

/-- The branch of `from_packet_data` for packets below the threshold. -/
def fromUncompressed (packetData : FrontVec) : Option FrontVec :=
  let dataLenWithHeader := packetData.len + 1
  let varintSize := writtenSize (ofNat dataLenWithHeader)
  (setInFront 0 packetData 1).bind fun packetData =>
    setInFront (ofNat dataLenWithHeader) packetData varintSize

def fromPacketData (packetData : FrontVec) (compression : CompressionInfo) :
    Option (Except PacketError FrontVec) :=
  let dataLen := packetData.len
  if MAX_PACKET_DATA_SIZE < dataLen + VarInt.MAX_SIZE * 2 then
    some (.error (.tooLong dataLen))
  else if compression.threshold.toNat ≤ dataLen then
    match zlib.deflate compression.level.toUInt32 packetData.asSlice with
    | .error message => some (.error (.compressionFailed message))
    | .ok compressed => (fromCompressed dataLen compressed).map .ok
  else (fromUncompressed packetData).map .ok

def fromData (buf : FrontVec) : Option CompressionInfo → Option (Except PacketError FrontVec)
  | some compression => fromPacketData zlib buf compression
  | none => fromDataUncompressed buf

end EncodedPacket

structure RawPacket where
  id : Int32
  buffer : List UInt8
  payloadStart : UInt32
  deriving DecidableEq

def RawPacket.payload (packet : RawPacket) : List UInt8 :=
  packet.buffer.drop packet.payloadStart.toNat

/-- An `i32` cast to `usize`. -/
def asUsize (value : Int32) : ℕ := (value.toInt % 2 ^ 64).toNat

/-- `VarInt::read_async` with its error as a packet error. -/
def readLength (reader : List UInt8) : Except PacketError (Int32 × List UInt8) :=
  match read reader with
  | .ok result => .ok result
  | .error _ => .error (.malformedValue "VarInt")

/-- `VarInt::read` with its error as a packet error. -/
def readValue (cursor : List UInt8) : Except PacketError (Int32 × List UInt8) :=
  match read cursor with
  | .ok result => .ok result
  | .error .unexpectedEof => .error (.malformedValue "failed to fill whole buffer")
  | .error .tooLong => .error (.malformedValue "VarInt to long")

namespace TCPNetworkDecoder

variable (zlib : Zlib)

/-- Exactly `decompressedLen` bytes are read from the decoder, and then its end. -/
def readExactly (decompressedLen : ℕ) (cursor : List UInt8) : Except PacketError (List UInt8) :=
  let (bytes, ending) := zlib.inflate cursor
  if bytes.length < decompressedLen then
    .error (.decompressionFailed (ending.getD "failed to fill whole buffer"))
  else if decompressedLen < bytes.length then
    .error (.decompressionFailed
      ("decompressed packet exceeds declared length of " ++ toString decompressedLen))
  else
    match ending with
    | some message => .error (.decompressionFailed message)
    | none => .ok bytes

/-- The buffer that owns the packet and where the packet starts in it, with compression. -/
def decompress (threshold : UInt32) (packetData : List UInt8) :
    Except PacketError (List UInt8 × ℕ) :=
  match readValue packetData with
  | .error e => .error e
  | .ok (value, cursor) =>
    let decompressedLen := asUsize value
    let rawPacketLen := packetData.length - writtenSize value
    if MAX_PACKET_DATA_SIZE < decompressedLen then .error (.tooLong decompressedLen)
    else if 0 < decompressedLen then
      (readExactly zlib decompressedLen cursor).map fun decompressed => (decompressed, 0)
    else if threshold.toNat < rawPacketLen then .error .notCompressed
    else .ok (packetData, packetData.length - cursor.length)

def packetBuffer (compression : Option UInt32) (packetData : List UInt8) :
    Except PacketError (List UInt8 × ℕ) :=
  match compression with
  | some threshold => decompress zlib threshold packetData
  | none => .ok (packetData, 0)

/-- Everything of `get_raw_packet` after the packet has been read from the stream. -/
def parsePacket (compression : Option UInt32) (packetData : List UInt8) :
    Except PacketError RawPacket := do
  let (buffer, packetDataStart) ← packetBuffer zlib compression packetData
  let (id, cursor) ← readValue (buffer.drop packetDataStart)
  let position := (buffer.drop packetDataStart).length - cursor.length
  return ⟨id, buffer, UInt32.ofNat (packetDataStart + position)⟩

/-- `get_raw_packet`, with what it leaves in the stream. -/
def getRawPacket (compression : Option UInt32) (reader : List UInt8) :
    Except PacketError (RawPacket × List UInt8) :=
  match readLength reader with
  | .error e => .error e
  | .ok (value, reader) =>
    let packetLen := asUsize value
    if MAX_PACKET_SIZE < packetLen then .error .outOfBounds
    else if reader.length < packetLen then .error (.other "early eof")
    else (parsePacket zlib compression (reader.take packetLen)).map fun packet =>
      (packet, reader.drop packetLen)

def getRawPackets (compression : Option UInt32) :
    ℕ → List UInt8 → Except PacketError (List RawPacket × List UInt8)
  | 0, reader => .ok ([], reader)
  | n + 1, reader => do
    let (packet, reader) ← getRawPacket zlib compression reader
    let (packets, reader) ← getRawPackets compression n reader
    return (packet :: packets, reader)

end TCPNetworkDecoder

end Steel
