import Mathlib.Data.List.Lex
import Mathlib.Data.Char
import Steel.Command.StringReader
import Steel.Lib.StableSort

/-! # Command suggestions

A suggestion replaces a range of the input, counted in UTF-16 code units, by a text.
-/

namespace Steel

/-- The loop of `byte_index`, with the UTF-16 and the byte index of the rest of the input. -/
def byteIndexFrom (position : ℕ) : List Char → ℕ → ℕ → Option ℕ
  | [], utf16Index, byteIndex => if utf16Index = position then some byteIndex else none
  | c :: input, utf16Index, byteIndex =>
    if utf16Index = position then some byteIndex
    else
      let utf16Index := utf16Index + charLenUtf16 c
      if position < utf16Index then none
      else byteIndexFrom position input utf16Index (byteIndex + c.utf8Size)

def byteIndex (input : List Char) (position : ℕ) : Option ℕ := byteIndexFrom position input 0 0

def StringRange.byteRange (range : StringRange) (input : List Char) : Option (ℕ × ℕ) := do
  let start ← byteIndex input range.start
  let stop ← byteIndex input range.stop
  return (start, stop)

/-- A text split at a byte; a split within a character panics. -/
def splitAtByte : List Char → ℕ → Option (List Char × List Char)
  | input, 0 => some ([], input)
  | [], _ + 1 => none
  | c :: input, byte + 1 =>
    if c.utf8Size ≤ byte + 1 then
      (splitAtByte input (byte + 1 - c.utf8Size)).map fun (before, after) => (c :: before, after)
    else none

/-- `input[start..stop]`. -/
def sliceBytes (input : List Char) (bytes : ℕ × ℕ) : Option (List Char) := do
  let (before, _) ← splitAtByte input bytes.2
  let (_, slice) ← splitAtByte before bytes.1
  return slice

inductive SuggestionError where
  | invalidRange (range : StringRange) (inputLength : ℕ)
  | nonEncompassingRange (outer inner : StringRange)
  deriving DecidableEq

/-- `to_string` of an integer. -/
def decimal : ℤ → List Char
  | .ofNat n => Nat.toDigits 10 n
  | .negSucc n => '-' :: Nat.toDigits 10 (n + 1)

/-- A replacement for a range of the input. One with an integer has its digits as text. -/
structure Suggestion (τ : Type) where
  range : StringRange
  text : List Char
  tooltip : Option τ
  integer : Option ℤ
  text_of_integer : ∀ value, integer = some value → text = decimal value
  deriving DecidableEq

namespace Suggestion

variable {τ : Type}

def new (range : StringRange) (text : List Char) : Suggestion τ := ⟨range, text, none, none, nofun⟩

def ofInteger (range : StringRange) (value : ℤ) : Suggestion τ :=
  ⟨range, decimal value, none, some value, fun _ h => Option.some.inj h ▸ rfl⟩

def checkedByteRange (input : List Char) (range : StringRange) : Except SuggestionError (ℕ × ℕ) :=
  match range.byteRange input with
  | some bytes => .ok bytes
  | none => .error (.invalidRange range (lenUtf16 input))

/-- The input with the replacement. Here and below `none` is a panic. -/
def apply (s : Suggestion τ) (input : List Char) : Option (Except SuggestionError (List Char)) :=
  match checkedByteRange input s.range with
  | .error e => some (.error e)
  | .ok (start, stop) => do
    let (before, _) ← splitAtByte input start
    let (_, after) ← splitAtByte input stop
    return .ok (before ++ s.text ++ after)

def expand (s : Suggestion τ) (input : List Char) (range : StringRange) :
    Option (Except SuggestionError (Suggestion τ)) :=
  if s.range.start < range.start ∨ range.stop < s.range.stop then
    some (.error (.nonEncompassingRange range s.range))
  else if range = s.range then some (.ok s)
  else do
    let before ← StringRange.between range.start s.range.start
    match checkedByteRange input before with
    | .error e => return .error e
    | .ok pre =>
      let after ← StringRange.between s.range.stop range.stop
      match checkedByteRange input after with
      | .error e => return .error e
      | .ok suffix =>
        let text := (← sliceBytes input pre) ++ s.text ++ (← sliceBytes input suffix)
        return .ok ⟨range, text, s.tooltip, none, nofun⟩

variable (toLowercase : List Char → List Char)

def compareIgnoreCase (first second : Suggestion τ) : Ordering :=
  match first.integer, second.integer with
  | some first, some second => cmp first second
  | _, _ => cmp (toLowercase first.text) (toLowercase second.text)

end Suggestion

structure Suggestions (τ : Type) where
  range : StringRange
  list : List (Suggestion τ)

namespace Suggestions

variable {τ : Type} [DecidableEq τ]

def empty : Suggestions τ := ⟨.atPosition 0, []⟩

/-- The loop of `create` that widens the suggestions and leaves out repeated ones. -/
def expandAll (input : List Char) (range : StringRange) :
    List (Suggestion τ) → List (Suggestion τ) →
      Option (Except SuggestionError (List (Suggestion τ)))
  | [], expanded => some (.ok expanded)
  | s :: suggestions, expanded => do
    match ← s.expand input range with
    | .error e => return .error e
    | .ok s =>
      expandAll input range suggestions (if s ∈ expanded then expanded else expanded ++ [s])

variable (sortBy : (Suggestion τ → Suggestion τ → Ordering) → List (Suggestion τ) →
    Option (List (Suggestion τ))) (toLowercase : List Char → List Char) (input : List Char)

/-- `create`. The first suggestion takes the place of the largest and the smallest `usize` from
which the loop over the ranges starts. -/
def create (suggestions : List (Suggestion τ)) : Option (Except SuggestionError (Suggestions τ)) :=
  match suggestions with
  | [] => some (.ok empty)
  | first :: others => do
    let start := others.foldl (fun start s => min start s.range.start) first.range.start
    let stop := others.foldl (fun stop s => max stop s.range.stop) first.range.stop
    let range ← StringRange.between start stop
    match ← expandAll input range suggestions [] with
    | .error e => return .error e
    | .ok expanded =>
      return .ok ⟨range, ← sortBy (Suggestion.compareIgnoreCase toLowercase) expanded⟩

def merge : List (Suggestions τ) → Option (Except SuggestionError (Suggestions τ))
  | [] => some (.ok empty)
  | [first] => some (.ok first)
  | sets => create sortBy toLowercase input (sets.flatMap list)

end Suggestions

end Steel
