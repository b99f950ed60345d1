import Mathlib.Algebra.Ring.Nat
import Mathlib.Data.List.Basic

/-! # Reading command input

A reader holds the input of a command split at its cursor. Positions are counted in
UTF-16 code units, and the cursor stands between two characters.
-/

namespace Steel

def charLenUtf16 (c : Char) : ℕ := if c.toNat < 0x10000 then 1 else 2

def lenUtf16 (text : List Char) : ℕ := (text.map charLenUtf16).sum

def lenUtf8 (text : List Char) : ℕ := (text.map fun c => c.utf8Size).sum

/-- A half-open range in UTF-16 code units. -/
structure StringRange where
  start : ℕ
  stop : ℕ
  start_le : start ≤ stop
  deriving DecidableEq

namespace StringRange

def atPosition (position : ℕ) : StringRange := ⟨position, position, Nat.le_refl _⟩

/-- A range that ends before it starts is an assertion failure. -/
def between (start stop : ℕ) : Option StringRange :=
  if h : start ≤ stop then some ⟨start, stop, h⟩ else none

def encompassing (first second : StringRange) : StringRange where
  start := if first.start < second.start then first.start else second.start
  stop := if first.stop > second.stop then first.stop else second.stop
  start_le := by
    have := first.start_le
    have := second.start_le
    grind

def isEmpty (range : StringRange) : Bool := range.start = range.stop

end StringRange

/-- Why a command is rejected. Argument parsers have kinds of errors of their own. -/
inductive CommandSyntaxErrorKind (K : Type) where
  | unknownCommand
  | unknownArgument
  | literalIncorrect (literal : List Char)
  | expectedArgumentSeparator
  | argument (kind : K)

/-- An error with the input and the cursor where it was found, if it has one. -/
structure CommandSyntaxError (K : Type) where
  kind : CommandSyntaxErrorKind K
  context : Option (List Char × ℕ × ℕ)

/-- An input that has been read up to a position. -/
structure StringReader where
  readSoFar : List Char
  remaining : List Char

namespace StringReader

variable {K : Type}

def new (input : List Char) : StringReader := ⟨[], input⟩

variable (reader : StringReader)

def input : List Char := reader.readSoFar ++ reader.remaining

def cursor : ℕ := lenUtf16 reader.readSoFar

def byteCursor : ℕ := lenUtf8 reader.readSoFar

def totalLength : ℕ := lenUtf16 reader.input

def canRead : Bool := !reader.remaining.isEmpty

def canReadLength (length : ℕ) : Bool :=
  reader.cursor + length ≤ reader.totalLength

def peek : Option Char := reader.remaining.head?

def skip : StringReader :=
  match reader.remaining with
  | [] => reader
  | c :: rest => ⟨reader.readSoFar ++ [c], rest⟩

/-- Reads a literal that ends at a space or at the end of the input. -/
def tryReadLiteral (literal : List Char) : Option StringReader :=
  if literal.isPrefixOf reader.remaining then
    let rest := reader.remaining.drop literal.length
    if rest.head?.all (· = ' ') then some ⟨reader.readSoFar ++ literal, rest⟩ else none
  else none

def error (kind : CommandSyntaxErrorKind K) : CommandSyntaxError K :=
  ⟨kind, some (reader.input, reader.cursor, reader.byteCursor)⟩

end StringReader

end Steel
