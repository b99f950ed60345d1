import Mathlib.Algebra.Group.Int.Defs
import Steel.Nbt.NbtTag

/-! # Numbers in the text form of NBT

A scanner finds the end of a number, and a parser finds the value of what the scanner has cut off.
-/

namespace Steel

namespace SnbtNumber

def ascii (c : Char) : UInt8 := c.toNat.toUInt8

inductive IntegerKind where
  | byte
  | short
  | int
  | long
  deriving DecidableEq

inductive DefaultIntegerKind where
  | byte
  | int
  | long
  deriving DecidableEq

def DefaultIntegerKind.kind : DefaultIntegerKind → IntegerKind
  | byte => .byte
  | int => .int
  | long => .long

inductive IntegerSignedness where
  | default
  | signed
  | unsigned
  deriving DecidableEq

inductive SnbtErrorKind where
  | expectedNumber
  | expectedBinaryNumeral
  | expectedDecimalNumeral
  | expectedHexNumeral
  | invalidFloatingPoint
  | nonFiniteNumber
  | invalidUnderscore
  | invalidInteger
  | invalidNumber
  | leadingZero
  | expectedNonNegativeNumber
  | integerTooLarge
  | numberOutOfRange (numberType : IntegerKind) (unsigned : Bool)
  deriving DecidableEq

structure NumberScanError where
  cursor : ℕ
  kind : SnbtErrorKind
  deriving DecidableEq

/-- An error that is returned, or a panic. -/
inductive Failure (ε : Type) where
  | error (error : ε)
  | panic
  deriving DecidableEq

section Access

variable {ε : Type}

def byteAt (bytes : List UInt8) (i : ℕ) : Except (Failure ε) UInt8 :=
  match bytes[i]? with
  | some byte => .ok byte
  | none => .error .panic

/-- `&bytes[start..]` -/
def sliceFrom (bytes : List UInt8) (start : ℕ) : Except (Failure ε) (List UInt8) :=
  if start ≤ bytes.length then .ok (bytes.drop start) else .error .panic

/-- `&bytes[start..stop]` -/
def slice (bytes : List UInt8) (start stop : ℕ) : Except (Failure ε) (List UInt8) :=
  if start ≤ stop ∧ stop ≤ bytes.length then .ok ((bytes.drop start).take (stop - start))
  else .error .panic

/-- Where a text in UTF-8 may be cut: not before a continuation byte. -/
def isCharBoundary (text : List UInt8) (i : ℕ) : Bool :=
  match text[i]? with
  | some byte => byte < 128 || 192 ≤ byte
  | none => i = text.length

/-- `&text[start..]` -/
def strFrom (text : List UInt8) (start : ℕ) : Except (Failure ε) (List UInt8) :=
  if isCharBoundary text start then .ok (text.drop start) else .error .panic

/-- `&text[..stop]` -/
def strTo (text : List UInt8) (stop : ℕ) : Except (Failure ε) (List UInt8) :=
  if isCharBoundary text stop then .ok (text.take stop) else .error .panic

end Access

def isAsciiDigit (byte : UInt8) : Bool := ascii '0' ≤ byte && byte ≤ ascii '9'

def isAsciiHexdigit (byte : UInt8) : Bool :=
  isAsciiDigit byte || (ascii 'a' ≤ byte && byte ≤ ascii 'f') ||
    (ascii 'A' ≤ byte && byte ≤ ascii 'F')

def isBinaryDigit (byte : UInt8) : Bool := byte = ascii '0' || byte = ascii '1'

def toAsciiLowercase (byte : UInt8) : UInt8 :=
  if ascii 'A' ≤ byte ∧ byte ≤ ascii 'Z' then byte + 32 else byte

def oneOf (chars : List Char) (byte : UInt8) : Bool := (chars.map ascii).contains byte

def startsWith (text : List UInt8) (chars : List Char) : Bool :=
  (chars.map ascii).isPrefixOf text

def endsWithOneOf (text : List UInt8) (chars : List Char) : Bool :=
  text.getLast?.any (oneOf chars)

def stripSign : List UInt8 → List UInt8
  | [] => []
  | first :: rest => if oneOf ['+', '-'] first then rest else first :: rest

def stripSuffix (text : List UInt8) (chars : List Char) : Option (List UInt8) :=
  if (chars.map ascii).isSuffixOf text then some (text.take (text.length - chars.length)) else none

section Scan

variable (bytes : List UInt8)

def scanRequiredNumeral (start : ℕ) (acceptsDigit : UInt8 → Bool) (expected : SnbtErrorKind) :
    Except (Failure NumberScanError) ℕ :=
  let cursor := start +
    ((bytes.drop start).takeWhile fun byte => acceptsDigit byte || oneOf ['_'] byte).length
  if cursor = start then .error (.error ⟨start, expected⟩)
  else do
    let first ← byteAt bytes start
    let last ← byteAt bytes (cursor - 1)
    if oneOf ['_'] first || oneOf ['_'] last then .error (.error ⟨start, .invalidUnderscore⟩)
    else .ok cursor

/-- A numeral that may be left out. A panic is not an error that is swallowed. -/
def tryScanNumeral (start : ℕ) (acceptsDigit : UInt8 → Bool) :
    Except (Failure NumberScanError) (Option ℕ) :=
  match scanRequiredNumeral bytes start acceptsDigit .expectedDecimalNumeral with
  | .ok cursor => .ok (some cursor)
  | .error (.error _) => .ok none
  | .error .panic => .error .panic

def tryScanExponent (cursor : ℕ) : Except (Failure NumberScanError) (Option ℕ) :=
  if !(bytes[cursor]?.any (oneOf ['e', 'E'])) then .ok none
  else
    let numeralStart := cursor + 1 + (bytes[cursor + 1]?.any (oneOf ['+', '-'])).toNat
    tryScanNumeral bytes numeralStart isAsciiDigit

def scanOptionalExponent (cursor : ℕ) : Except (Failure NumberScanError) ℕ := do
  let exponent ← tryScanExponent bytes cursor
  .ok (exponent.getD cursor)

def floatSuffixLen (bytes : List UInt8) : ℕ := (bytes.head?.any (oneOf ['f', 'F', 'd', 'D'])).toNat

def integerSuffixes : List Char := ['b', 'B', 's', 'S', 'i', 'I', 'l', 'L']

def integerSuffixLen (bytes : List UInt8) : ℕ :=
  if bytes.head?.any (oneOf ['u', 'U', 's', 'S']) && bytes[1]?.any (oneOf integerSuffixes) then 2
  else (bytes.head?.any (oneOf integerSuffixes)).toNat

def withFloatSuffix (cursor : ℕ) : Except (Failure NumberScanError) ℕ := do
  .ok (cursor + floatSuffixLen (← sliceFrom bytes cursor))

def withIntegerSuffix (cursor : ℕ) : Except (Failure NumberScanError) ℕ := do
  .ok (cursor + integerSuffixLen (← sliceFrom bytes cursor))

/-- The end of a float whose integer part ends at the cursor, if there is one. -/
def scanFloatTail (cursor : ℕ) : Except (Failure NumberScanError) (Option ℕ) :=
  match bytes[cursor]? with
  | none => .ok none
  | some byte =>
    if oneOf ['.'] byte then do
      let fraction ← tryScanNumeral bytes (cursor + 1) isAsciiDigit
      let cursor ← scanOptionalExponent bytes (fraction.getD (cursor + 1))
      some <$> withFloatSuffix bytes cursor
    else if oneOf ['e', 'E'] byte then do
      match ← tryScanExponent bytes cursor with
      | some exponentEnd => some <$> withFloatSuffix bytes exponentEnd
      | none => .ok none
    else if oneOf ['f', 'F', 'd', 'D'] byte then .ok (some (cursor + 1))
    else .ok none

def scanDecimal (numeralStart : ℕ) (first : UInt8) (allowFloat : Bool) :
    Except (Failure NumberScanError) ℕ := do
  let cursor ← scanRequiredNumeral bytes numeralStart isAsciiDigit .expectedDecimalNumeral
  let float ← if allowFloat then scanFloatTail bytes cursor else .ok none
  match float with
  | some floatEnd => .ok floatEnd
  | none =>
    let digitCount := (← slice bytes numeralStart cursor).countP fun byte => !oneOf ['_'] byte
    if oneOf ['0'] first && 1 < digitCount then .error (.error ⟨cursor, .leadingZero⟩)
    else withIntegerSuffix bytes cursor

def scanNumberToken (allowFloat : Bool) : Except (Failure NumberScanError) ℕ :=
  let hasSign := bytes.head?.any (oneOf ['+', '-'])
  let cursor := hasSign.toNat
  match bytes[cursor]? with
  | none => .error (.error ⟨cursor, .expectedDecimalNumeral⟩)
  | some first =>
    if oneOf ['.'] first then
      if !allowFloat then .error (.error ⟨0, .expectedNumber⟩)
      else do
        let cursor ← scanRequiredNumeral bytes (cursor + 1) isAsciiDigit .expectedDecimalNumeral
        let cursor ← scanOptionalExponent bytes cursor
        withFloatSuffix bytes cursor
    else if !isAsciiDigit first then
      .error (.error ⟨cursor, if hasSign then .expectedDecimalNumeral else .expectedNumber⟩)
    else if oneOf ['0'] first && bytes[cursor + 1]?.any (oneOf ['x', 'X']) then do
      let cursor ← scanRequiredNumeral bytes (cursor + 2) isAsciiHexdigit .expectedHexNumeral
      withIntegerSuffix bytes cursor
    else if oneOf ['0'] first && bytes[cursor + 1]?.any (oneOf ['b', 'B']) &&
        bytes[cursor + 2]?.any (oneOf ['0', '1', '_']) then do
      let cursor ← scanRequiredNumeral bytes (cursor + 2) isBinaryDigit .expectedBinaryNumeral
      withIntegerSuffix bytes cursor
    else scanDecimal bytes cursor first allowFloat

end Scan

def hasHexRadixPrefix (token : List UInt8) : Bool :=
  startsWith (stripSign token) ['0', 'x'] || startsWith (stripSign token) ['0', 'X']

def hasRadixPrefix (token : List UInt8) : Bool :=
  hasHexRadixPrefix token || startsWith (stripSign token) ['0', 'b'] ||
    startsWith (stripSign token) ['0', 'B']

def shouldParseAsFloat (token : List UInt8) : Bool :=
  !hasRadixPrefix token && (token.any (oneOf ['.', 'e', 'E']) ||
    endsWithOneOf token ['f', 'F', 'd', 'D'])

def normalizeNumberDigits (input : List UInt8) : Except (Failure SnbtErrorKind) (List UInt8) :=
  if input.isEmpty then .error (.error .invalidNumber)
  else if input.head?.any (oneOf ['_']) || input.getLast?.any (oneOf ['_']) then
    .error (.error .invalidUnderscore)
  else .ok (input.filter fun byte => !oneOf ['_'] byte)

/-- Why the standard library rejects a numeral. -/
inductive IntErrorKind where
  | empty
  | invalidDigit
  | posOverflow
  | negOverflow
  deriving DecidableEq

def integerParseErrorKind : IntErrorKind → SnbtErrorKind
  | .posOverflow | .negOverflow => .integerTooLarge
  | _ => .invalidInteger

def digitValue (byte : UInt8) : ℕ :=
  if isAsciiDigit byte then byte.toNat - (ascii '0').toNat
  else (toAsciiLowercase byte).toNat - (ascii 'a').toNat + 10

/-- `char::to_digit` -/
def toDigit (radix : ℕ) (byte : UInt8) : Option ℕ :=
  if (isAsciiDigit byte || (ascii 'a' ≤ toAsciiLowercase byte &&
      toAsciiLowercase byte ≤ ascii 'z')) && digitValue byte < radix then
    some (digitValue byte)
  else none

def accumulate (bound radix : ℕ) (overflow : IntErrorKind) : List UInt8 → ℕ → Except IntErrorKind ℕ
  | [], value => .ok value
  | byte :: bytes, value =>
    match toDigit radix byte with
    | none => .error .invalidDigit
    | some digit =>
      if bound < value * radix + digit then .error overflow
      else accumulate bound radix overflow bytes (value * radix + digit)

def parseDigits (bound radix : ℕ) (overflow : IntErrorKind) (digits : List UInt8) :
    Except IntErrorKind ℕ :=
  if digits.isEmpty then .error .invalidDigit else accumulate bound radix overflow digits 0

/-- `i128::from_str_radix` -/
def i128FromStrRadix (text : List UInt8) (radix : ℕ) : Except IntErrorKind ℤ :=
  match text with
  | [] => .error .empty
  | first :: rest =>
    if oneOf ['-'] first then
      (parseDigits (2 ^ 127) radix .negOverflow rest).map fun magnitude => -(magnitude : ℤ)
    else
      let digits := if oneOf ['+'] first then rest else text
      (parseDigits (2 ^ 127 - 1) radix .posOverflow digits).map Int.ofNat

/-- `u128::from_str_radix` -/
def u128FromStrRadix (text : List UInt8) (radix : ℕ) : Except IntErrorKind ℕ :=
  match text with
  | [] => .error .empty
  | first :: rest =>
    let digits := if oneOf ['+'] first then rest else text
    parseDigits (2 ^ 128 - 1) radix .posOverflow digits

/-- `-value` in 128 bits. -/
def negate (value : ℤ) : Except (Failure SnbtErrorKind) ℤ :=
  if value = -2 ^ 127 then .error .panic else .ok (-value)

namespace IntegerKind

def bits : IntegerKind → ℕ
  | byte => 8
  | short => 16
  | int => 32
  | long => 64

def tag : IntegerKind → ℤ → NbtTag
  | byte, value => .byte (Int8.ofInt value)
  | short, value => .short (Int16.ofInt value)
  | int, value => .int (Int32.ofInt value)
  | long, value => .long (Int64.ofInt value)

def toSignedTag (kind : IntegerKind) (value : ℤ) : Except (Failure SnbtErrorKind) NbtTag :=
  if -2 ^ (kind.bits - 1) ≤ value ∧ value < 2 ^ (kind.bits - 1) then .ok (kind.tag value)
  else .error (.error (.numberOutOfRange kind false))

def toUnsignedTag (kind : IntegerKind) (value : ℕ) : Except (Failure SnbtErrorKind) NbtTag :=
  if 2 ^ kind.bits - 1 < value then .error (.error (.numberOutOfRange kind true))
  else .ok (kind.tag value)

end IntegerKind

def fromIntErrorKind {α : Type} : Except IntErrorKind α → Except (Failure SnbtErrorKind) α :=
  Except.mapError fun kind => .error (integerParseErrorKind kind)

/-- Whether a numeral has a minus sign, and what follows its sign. -/
def takeSign (body : List UInt8) : Except (Failure SnbtErrorKind) (Bool × List UInt8) :=
  if body.head?.any (oneOf ['-']) then do .ok (true, ← strFrom body 1)
  else if body.head?.any (oneOf ['+']) then do .ok (false, ← strFrom body 1)
  else .ok (false, body)

/-- The radix of a numeral without a sign, and its digits. -/
def parseRadix (body : List UInt8) : Except (Failure SnbtErrorKind) (ℕ × List UInt8) :=
  if startsWith body ['0', 'x'] || startsWith body ['0', 'X'] then do
    .ok (16, ← strFrom body 2)
  else if startsWith body ['0', 'b'] || startsWith body ['0', 'B'] then do
    .ok (2, ← strFrom body 2)
  else .ok (10, body)

def parseIntegerBody (body : List UInt8) (kind : IntegerKind) (signedness : IntegerSignedness) :
    Except (Failure SnbtErrorKind) NbtTag := do
  let (negative, body) ← takeSign body
  if body.isEmpty then .error (.error .invalidInteger)
  else
    let (radix, digits) ← parseRadix body
    if digits.isEmpty then .error (.error .invalidInteger)
    else if radix = 10 ∧ 1 < digits.length ∧ startsWith digits ['0'] = true then
      .error (.error .leadingZero)
    else
      let digits ← normalizeNumberDigits digits
      let signed := signedness = .signed ∨ (radix = 10 ∧ signedness ≠ .unsigned)
      if negative ∧ ¬ signed then .error (.error .expectedNonNegativeNumber)
      else if signed then do
        let magnitude ← fromIntErrorKind (i128FromStrRadix digits radix)
        let value ← if negative then negate magnitude else .ok magnitude
        kind.toSignedTag value
      else
        let value ← fromIntErrorKind (u128FromStrRadix digits radix)
        kind.toUnsignedTag value

def suffixes : List (List Char × IntegerKind × IntegerSignedness) :=
  [(['u', 'b'], .byte, .unsigned), (['u', 's'], .short, .unsigned),
    (['u', 'i'], .int, .unsigned), (['u', 'l'], .long, .unsigned),
    (['s', 'b'], .byte, .signed), (['s', 's'], .short, .signed),
    (['s', 'i'], .int, .signed), (['s', 'l'], .long, .signed),
    (['b'], .byte, .default), (['s'], .short, .default),
    (['i'], .int, .default), (['l'], .long, .default)]

def parseSuffixes (token : List UInt8) (defaultKind : DefaultIntegerKind) :
    List (List Char × IntegerKind × IntegerSignedness) → Except (Failure SnbtErrorKind) NbtTag
  | [] => parseIntegerBody token defaultKind.kind .default
  | (suffix, kind, signedness) :: suffixes =>
    -- the digits of a hexadecimal numeral include `b`
    if suffix = ['b'] ∧ hasHexRadixPrefix token = true then
      parseSuffixes token defaultKind suffixes
    else
      match stripSuffix (token.map toAsciiLowercase) suffix with
      | none => parseSuffixes token defaultKind suffixes
      | some body => do
        let originalBody ← strTo token body.length
        if originalBody.isEmpty then parseSuffixes token defaultKind suffixes
        else parseIntegerBody originalBody kind signedness

def parseIntegerToken (token : List UInt8) (defaultKind : DefaultIntegerKind) :
    Except (Failure SnbtErrorKind) NbtTag :=
  parseSuffixes token defaultKind suffixes

/-- Reading floats in the standard library, with values given by their bits. -/
structure FloatFormat where
  parseF64 : List UInt8 → Option UInt64
  toF32 : UInt64 → UInt32

def isFiniteF64 (bits : UInt64) : Bool := (bits >>> 52) &&& 0x7ff != 0x7ff

def isFiniteF32 (bits : UInt32) : Bool := (bits >>> 23) &&& 0xff != 0xff

/-- The loop over the runs of underscores, from an index on. -/
def validateUnderscoresFrom (bytes : List UInt8) : ℕ → ℕ → Except (Failure SnbtErrorKind) Unit
  | 0, _ => .ok ()
  | fuel + 1, index =>
    if index < bytes.length then do
      if !oneOf ['_'] (← byteAt bytes index) then validateUnderscoresFrom bytes fuel (index + 1)
      else
        let runStart := index
        let index := index + ((bytes.drop index).takeWhile (oneOf ['_'])).length
        let surroundedByDigits ←
          if 0 < runStart ∧ index < bytes.length then do
            .ok (isAsciiDigit (← byteAt bytes (runStart - 1)) &&
              isAsciiDigit (← byteAt bytes index))
          else .ok false
        if !surroundedByDigits then .error (.error .invalidUnderscore)
        else validateUnderscoresFrom bytes fuel index
    else .ok ()

def validateFloatUnderscorePlacement (input : List UInt8) : Except (Failure SnbtErrorKind) Unit :=
  validateUnderscoresFrom input (input.length + 1) 0

def parseFloatToken (format : FloatFormat) (token : List UInt8) :
    Except (Failure SnbtErrorKind) NbtTag := do
  let isFloat := endsWithOneOf token ['f', 'F']
  let body ← if isFloat || endsWithOneOf token ['d', 'D'] then strTo token (token.length - 1)
    else .ok token
  validateFloatUnderscorePlacement body
  let body ← normalizeNumberDigits body
  match format.parseF64 body with
  | none => .error (.error .invalidFloatingPoint)
  | some value =>
    if !isFiniteF64 value then .error (.error .nonFiniteNumber)
    else if isFloat then
      if !isFiniteF32 (format.toF32 value) then .error (.error .nonFiniteNumber)
      else .ok (.float (format.toF32 value))
    else .ok (.double value)

def parseNumberToken (format : FloatFormat) (token : List UInt8)
    (defaultKind : DefaultIntegerKind) : Except (Failure SnbtErrorKind) NbtTag :=
  if shouldParseAsFloat token then parseFloatToken format token
  else parseIntegerToken token defaultKind

end SnbtNumber

end Steel
