import Steel.Nbt.SnbtNumber

/-! # Integer literals

An integer literal has a sign, a numeral with underscores between its digits, and a suffix.
-/

namespace Steel

open List Option

namespace SnbtNumber

inductive Radix where
  | decimal
  | hex
  | binary
  deriving DecidableEq

namespace Radix

def value : Radix → ℕ
  | decimal => 10
  | hex => 16
  | binary => 2

def isDigit : Radix → UInt8 → Bool
  | decimal => isAsciiDigit
  | hex => isAsciiHexdigit
  | binary => isBinaryDigit

end Radix

def letter (c : Char) (upper : Bool) : UInt8 := ascii (if upper then c.toUpper else c)

def Radix.prefixText : Radix → Bool → List UInt8
  | decimal, _ => []
  | hex, upper => [ascii '0', letter 'x' upper]
  | binary, upper => [ascii '0', letter 'b' upper]

def IntegerKind.char : IntegerKind → Char
  | byte => 'b'
  | short => 's'
  | int => 'i'
  | long => 'l'

/-- The suffix of a literal. The letter of its signedness may be left out. -/
structure Suffix where
  signedness : IntegerSignedness
  signednessUpper : Bool
  kind : IntegerKind
  kindUpper : Bool
  deriving DecidableEq

namespace Suffix

def signednessText (suffix : Suffix) : List UInt8 :=
  match suffix.signedness with
  | .default => []
  | .signed => [letter 's' suffix.signednessUpper]
  | .unsigned => [letter 'u' suffix.signednessUpper]

def text (suffix : Suffix) : List UInt8 :=
  suffix.signednessText ++ [letter suffix.kind.char suffix.kindUpper]

end Suffix

/-- Digits with underscores between them. -/
structure IsNumeral (isDigit : UInt8 → Bool) (run : List UInt8) : Prop where
  ne_nil : run ≠ []
  digits : ∀ byte ∈ run, isDigit byte = true ∨ byte = ascii '_'
  head : ∀ byte ∈ run.head?, isDigit byte = true
  last : ∀ byte ∈ run.getLast?, isDigit byte = true

/-- An integer literal. Digits come before suffixes: there is no suffix `b` right after a
hexadecimal numeral. -/
structure IntegerLiteral where
  /-- The sign, and whether it is a minus. -/
  sign : Option Bool
  radix : Radix
  prefixUpper : Bool
  run : List UInt8
  suffix : Option Suffix
  isNumeral : IsNumeral radix.isDigit run
  noLeadingZero : radix = .decimal → run.head? = some (ascii '0') → run = [ascii '0']
  digitsFirst : radix = .hex → ∀ s ∈ suffix, s.signedness = .default → s.kind ≠ .byte

namespace IntegerLiteral

variable (literal : IntegerLiteral)

def signText : List UInt8 :=
  match literal.sign with
  | none => []
  | some false => [ascii '+']
  | some true => [ascii '-']

def suffixText : List UInt8 := (literal.suffix.map Suffix.text).getD []

def body : List UInt8 := literal.radix.prefixText literal.prefixUpper ++ literal.run

def text : List UInt8 := literal.signText ++ literal.body ++ literal.suffixText

def isExtendedBy (allowFloat : Bool) (next : UInt8) : Bool :=
  match literal.suffix with
  | none =>
    literal.radix.isDigit next || oneOf ['_', 'u', 'U'] next || oneOf integerSuffixes next ||
      (literal.radix = .decimal && allowFloat && oneOf ['.', 'e', 'E', 'f', 'F', 'd', 'D'] next) ||
      (literal.radix = .decimal && literal.run = [ascii '0'] && oneOf ['x', 'X'] next)
  | some suffix =>
    match suffix.signedness, suffix.kind with
    | .default, .short => oneOf integerSuffixes next
    | .default, .byte =>
      literal.radix = .decimal && literal.run = [ascii '0'] && oneOf ['0', '1', '_'] next
    | _, _ => false

end IntegerLiteral

variable {byte : UInt8} {after : List UInt8}

theorem oneOf_eq_false {chars : List Char} {p : UInt8 → Bool} (hp : p byte = true)
    (hchars : (chars.map ascii).all (fun c => !p c) = true) : oneOf chars byte = false := by
  rw [oneOf, contains_eq_mem, decide_eq_false_iff_not]
  intro hmem
  have hnot := List.all_eq_true.1 hchars byte hmem
  rw [hp] at hnot
  cases hnot

theorem Radix.isDigit_hex {radix : Radix} (h : radix.isDigit byte = true) :
    isAsciiHexdigit byte = true := by
  cases radix with
  | decimal => simp only [isDigit] at h; simp [isAsciiHexdigit, h]
  | hex => exact h
  | binary =>
    simp only [isDigit, isBinaryDigit, Bool.or_eq_true, decide_eq_true_eq] at h
    rcases h with rfl | rfl <;> decide

section Numerals

variable {isDigit : UInt8 → Bool} {run before after : List UInt8}

theorem IsNumeral.takeWhile_eq (h : IsNumeral isDigit run)
    (hafter : ∀ byte ∈ after.head?, isDigit byte = false ∧ oneOf ['_'] byte = false) :
    (run ++ after).takeWhile (fun byte => isDigit byte || oneOf ['_'] byte) = run := by
  rw [takeWhile_append_of_pos]
  · cases after with
    | nil => simp
    | cons byte after =>
      obtain ⟨hdigit, hunderscore⟩ := hafter byte rfl
      rw [takeWhile_cons_of_neg (by simp [hdigit, hunderscore]), append_nil]
  · intro byte hbyte
    rcases h.digits byte hbyte with hdigit | rfl
    · rw [hdigit, Bool.true_or]
    · rw [show oneOf ['_'] (ascii '_') = true by decide, Bool.or_true]

theorem scanRequiredNumeral_eq (h : IsNumeral isDigit run)
    (hunderscore : isDigit (ascii '_') = false)
    (hafter : ∀ byte ∈ after.head?, isDigit byte = false ∧ oneOf ['_'] byte = false)
    (expected : SnbtErrorKind) :
    scanRequiredNumeral (before ++ (run ++ after)) before.length isDigit expected =
      .ok (before.length + run.length) := by
  have hpos : 0 < run.length := length_pos_iff.2 h.ne_nil
  have hnot {byte : UInt8} (hdigit : isDigit byte = true) : oneOf ['_'] byte = false :=
    oneOf_eq_false hdigit (by simp [hunderscore])
  have hfirst : (byteAt (before ++ (run ++ after)) before.length :
      Except (Failure NumberScanError) UInt8) = .ok (run.head h.ne_nil) := by
    rw [byteAt, List.getElem?_append_right (Nat.le_refl _), Nat.sub_self,
      List.getElem?_append_left hpos, ← List.head?_eq_getElem?, List.head?_eq_some_head h.ne_nil]
  have hlast : (byteAt (before ++ (run ++ after)) (before.length + run.length - 1) :
      Except (Failure NumberScanError) UInt8) = .ok (run.getLast h.ne_nil) := by
    rw [byteAt, List.getElem?_append_right (by omega), List.getElem?_append_left (by omega),
      show before.length + run.length - 1 - before.length = run.length - 1 by omega,
      ← List.getLast?_eq_getElem?, List.getLast?_eq_some_getLast h.ne_nil]
  rw [scanRequiredNumeral, drop_left, h.takeWhile_eq hafter]
  rw [if_neg (by omega), hfirst, hlast]
  have hhead := hnot (h.head _ (List.head?_eq_some_head h.ne_nil))
  have htail := hnot (h.last _ (List.getLast?_eq_some_getLast h.ne_nil))
  simp [bind, Except.bind, hhead, htail]

end Numerals

theorem withIntegerSuffix_eq (before after : List UInt8) :
    withIntegerSuffix (before ++ after) before.length =
      .ok (before.length + integerSuffixLen after) := by
  have hslice : (sliceFrom (before ++ after) before.length :
      Except (Failure NumberScanError) (List UInt8)) = .ok after := by
    rw [sliceFrom, if_pos (by simp), drop_left]
  rw [withIntegerSuffix, hslice]
  rfl

theorem getElem?_before_add (before after : List UInt8) (i : ℕ) :
    (before ++ after)[before.length + i]? = after[i]? := by
  rw [List.getElem?_append_right (Nat.le_add_right _ _), Nat.add_sub_cancel_left]

theorem scanNumberToken_digit {sign : List UInt8}
    (hsign : sign = [] ∨ sign = [ascii '+'] ∨ sign = [ascii '-']) {first : UInt8}
    (hfirst : isAsciiDigit first = true) (rest : List UInt8) (allowFloat : Bool) :
    scanNumberToken (sign ++ first :: rest) allowFloat =
      if oneOf ['0'] first && rest[0]?.any (oneOf ['x', 'X']) then do
        let cursor ← scanRequiredNumeral (sign ++ first :: rest) (sign.length + 2) isAsciiHexdigit
          .expectedHexNumeral
        withIntegerSuffix (sign ++ first :: rest) cursor
      else if oneOf ['0'] first && rest[0]?.any (oneOf ['b', 'B']) &&
          rest[1]?.any (oneOf ['0', '1', '_']) then do
        let cursor ← scanRequiredNumeral (sign ++ first :: rest) (sign.length + 2) isBinaryDigit
          .expectedBinaryNumeral
        withIntegerSuffix (sign ++ first :: rest) cursor
      else scanDecimal (sign ++ first :: rest) sign.length first allowFloat := by
  have hnotSign : oneOf ['+', '-'] first = false := oneOf_eq_false hfirst (by decide)
  have hnotPoint : oneOf ['.'] first = false := oneOf_eq_false hfirst (by decide)
  have hhead : ((sign ++ first :: rest).head?.any (oneOf ['+', '-'])).toNat = sign.length := by
    rcases hsign with rfl | rfl | rfl
    · simp [hnotSign]
    · rfl
    · rfl
  have hget := getElem?_before_add sign (first :: rest)
  have hget0 : (sign ++ first :: rest)[sign.length]? = some first := hget 0
  have hget1 : (sign ++ first :: rest)[sign.length + 1]? = rest[0]? := hget 1
  have hget2 : (sign ++ first :: rest)[sign.length + 2]? = rest[1]? := hget 2
  rw [scanNumberToken, hhead, hget0]
  dsimp only
  rw [hnotPoint, hfirst, if_neg Bool.false_ne_true, if_neg (by decide), hget1, hget2]

theorem scanFloatTail_eq_none (before : List UInt8)
    (hafter : ∀ byte ∈ after.head?, oneOf ['.', 'e', 'E', 'f', 'F', 'd', 'D'] byte = false) :
    scanFloatTail (before ++ after) before.length = .ok none := by
  have hget : (before ++ after)[before.length]? = after[0]? := getElem?_before_add before after 0
  rw [scanFloatTail, hget]
  cases after with
  | nil => rfl
  | cons byte after =>
    have hbyte := hafter byte rfl
    have hclass (chars : List Char) (hchars : chars ⊆ ['.', 'e', 'E', 'f', 'F', 'd', 'D']) :
        oneOf chars byte = false := by
      rw [oneOf, contains_eq_mem, decide_eq_false_iff_not] at hbyte ⊢
      exact fun hmem => hbyte (map_subset ascii hchars hmem)
    rw [List.getElem?_cons_zero]
    dsimp only
    rw [hclass ['.'] (by decide), hclass ['e', 'E'] (by decide),
      hclass ['f', 'F', 'd', 'D'] (by decide)]
    rfl

/-- A decimal number that is not a float, and does not have more digits after a zero. -/
theorem scanDecimal_eq {run before : List UInt8} (h : IsNumeral isAsciiDigit run)
    (hafter : ∀ byte ∈ after.head?, isAsciiDigit byte = false ∧ oneOf ['_'] byte = false)
    {first : UInt8} (hzero : oneOf ['0'] first = true → run = [ascii '0']) {allowFloat : Bool}
    (hfloat : allowFloat = true → ∀ byte ∈ after.head?,
      oneOf ['.', 'e', 'E', 'f', 'F', 'd', 'D'] byte = false) :
    scanDecimal (before ++ (run ++ after)) before.length first allowFloat =
      .ok (before.length + run.length + integerSuffixLen after) := by
  have hnumeral : scanRequiredNumeral (before ++ (run ++ after)) before.length isAsciiDigit
      .expectedDecimalNumeral = .ok (before.length + run.length) :=
    scanRequiredNumeral_eq h (by decide) hafter _
  have hslice : (slice (before ++ (run ++ after)) before.length (before.length + run.length) :
      Except (Failure NumberScanError) (List UInt8)) = .ok run := by
    rw [slice, if_pos (by simp), drop_left, Nat.add_sub_cancel_left, take_left]
  have hsuffix := withIntegerSuffix_eq (before ++ run) after
  rw [append_assoc, length_append] at hsuffix
  have hleading : (oneOf ['0'] first &&
      decide (1 < run.countP fun byte => !oneOf ['_'] byte)) = false := by
    by_cases hfirst : oneOf ['0'] first = true
    · have hcount : ([ascii '0'].countP fun byte => !oneOf ['_'] byte) = 1 := by decide
      rw [hzero hfirst, hcount]
      simp
    · rw [eq_false_of_ne_true hfirst, Bool.false_and]
  rw [scanDecimal, hnumeral]
  cases allowFloat with
  | true =>
    have htail := scanFloatTail_eq_none (before ++ run) (hfloat rfl)
    rw [append_assoc, length_append] at htail
    simp only [bind, Except.bind, if_true, htail, hslice, hleading, Bool.false_eq_true, if_false]
    exact hsuffix
  | false =>
    simp only [bind, Except.bind, hslice, hleading, Bool.false_eq_true, if_false]
    exact hsuffix

theorem integerSuffixLen_nil (hafter : ∀ byte ∈ after.head?, oneOf ['u', 'U'] byte = false ∧
      oneOf integerSuffixes byte = false) : integerSuffixLen after = 0 := by
  cases after with
  | nil => rfl
  | cons byte after =>
    obtain ⟨hunsigned, hsuffix⟩ := hafter byte rfl
    have hsigned : oneOf ['u', 'U', 's', 'S'] byte = false := by
      simp only [oneOf, integerSuffixes, map_cons, map_nil, contains_cons,
        contains_nil, Bool.or_false, Bool.or_eq_false_iff] at hunsigned hsuffix ⊢
      tauto
    simp [integerSuffixLen, hsigned, hsuffix]

theorem integerSuffixLen_one (hbyte : oneOf integerSuffixes byte = true)
    (hafter : oneOf ['u', 'U', 's', 'S'] byte = false ∨
      ∀ next ∈ after.head?, oneOf integerSuffixes next = false) :
    integerSuffixLen (byte :: after) = 1 := by
  have hnot : ¬ (oneOf ['u', 'U', 's', 'S'] byte &&
      after[0]?.any (oneOf integerSuffixes)) = true := by
    rcases hafter with h | h
    · simp [h]
    · cases after with
      | nil => simp
      | cons next after => simp [h next rfl]
  have hhead : ((byte :: after).head?.any (oneOf integerSuffixes)).toNat = 1 := by
    rw [List.head?_cons, any_some, hbyte]
    rfl
  rw [integerSuffixLen, hhead]
  exact if_neg hnot

theorem integerSuffixLen_two {next : UInt8} (hbyte : oneOf ['u', 'U', 's', 'S'] byte = true)
    (hnext : oneOf integerSuffixes next = true) : integerSuffixLen (byte :: next :: after) = 2 := by
  rw [integerSuffixLen, List.head?_cons, List.getElem?_cons_succ, List.getElem?_cons_zero,
    any_some, any_some, hbyte, hnext]
  rfl

theorem oneOf_integerSuffixes_letter (kind : IntegerKind) (upper : Bool) :
    oneOf integerSuffixes (letter kind.char upper) = true := by
  cases kind <;> cases upper <;> decide

theorem oneOf_signedness_letter {kind : IntegerKind} (hkind : kind ≠ .short) (upper : Bool) :
    oneOf ['u', 'U', 's', 'S'] (letter kind.char upper) = false := by
  cases kind with
  | short => exact absurd rfl hkind
  | byte => cases upper <;> decide
  | int => cases upper <;> decide
  | long => cases upper <;> decide

theorem Suffix.integerSuffixLen_text (suffix : Suffix)
    (hafter : suffix.signedness = .default → suffix.kind = .short →
      ∀ byte ∈ after.head?, oneOf integerSuffixes byte = false) :
    integerSuffixLen (suffix.text ++ after) = suffix.text.length := by
  obtain ⟨signedness, signednessUpper, kind, kindUpper⟩ := suffix
  have hkind := oneOf_integerSuffixes_letter kind kindUpper
  have hsigned : ∀ upper, oneOf ['u', 'U', 's', 'S'] (letter 's' upper) = true := by decide
  have hunsigned : ∀ upper, oneOf ['u', 'U', 's', 'S'] (letter 'u' upper) = true := by decide
  cases signedness with
  | default =>
    refine integerSuffixLen_one hkind ?_
    by_cases hshort : kind = .short
    · exact .inr (hafter rfl hshort)
    · exact .inl (oneOf_signedness_letter hshort kindUpper)
  | signed => exact integerSuffixLen_two (hsigned _) hkind
  | unsigned => exact integerSuffixLen_two (hunsigned _) hkind

namespace IntegerLiteral

variable {literal : IntegerLiteral} {allowFloat : Bool} {after : List UInt8}

theorem isExtendedBy_of_suffix_none (hsuffix : literal.suffix = none) {next : UInt8}
    (hnext : literal.isExtendedBy allowFloat next = false) :
    literal.radix.isDigit next = false ∧ oneOf ['_', 'u', 'U'] next = false ∧
      oneOf integerSuffixes next = false ∧
      (literal.radix = .decimal → allowFloat = true →
        oneOf ['.', 'e', 'E', 'f', 'F', 'd', 'D'] next = false) ∧
      (literal.radix = .decimal → literal.run = [ascii '0'] → oneOf ['x', 'X'] next = false) := by
  simp only [isExtendedBy, hsuffix, Bool.or_eq_false_iff, Bool.and_eq_false_iff,
    decide_eq_false_iff_not] at hnext
  obtain ⟨⟨⟨⟨hdigit, hletter⟩, hinteger⟩, hfloat⟩, hradix⟩ := hnext
  refine ⟨hdigit, hletter, hinteger, fun hdecimal hallow => ?_, fun hdecimal hrun => ?_⟩
  · rcases hfloat with (h | h) | h
    · exact absurd hdecimal h
    · rw [hallow] at h
      cases h
    · exact h
  · rcases hradix with (h | h) | h
    · exact absurd hdecimal h
    · exact absurd hrun h
    · exact h

section

variable (hafter : ∀ byte ∈ after.head?, literal.isExtendedBy allowFloat byte = false)

include hafter

theorem integerSuffixLen_suffixText :
    integerSuffixLen (literal.suffixText ++ after) = literal.suffixText.length := by
  rw [suffixText]
  cases hsuffix : literal.suffix with
  | none =>
    refine integerSuffixLen_nil fun byte hbyte => ?_
    obtain ⟨-, hletter, hinteger, -⟩ := isExtendedBy_of_suffix_none hsuffix (hafter byte hbyte)
    refine ⟨?_, hinteger⟩
    simp only [oneOf, map_cons, map_nil, contains_cons, contains_nil,
      Bool.or_false, Bool.or_eq_false_iff] at hletter ⊢
    exact hletter.2
  | some suffix =>
    refine suffix.integerSuffixLen_text fun hsignedness hkind byte hbyte => ?_
    have hnext := hafter byte hbyte
    rw [isExtendedBy, hsuffix] at hnext
    dsimp only at hnext
    rw [hsignedness, hkind] at hnext
    exact hnext

theorem head?_suffixText_append :
    ∀ byte ∈ (literal.suffixText ++ after).head?,
      literal.radix.isDigit byte = false ∧ oneOf ['_'] byte = false := by
  intro byte hbyte
  cases hsuffix : literal.suffix with
  | none =>
    rw [suffixText, hsuffix] at hbyte
    obtain ⟨hdigit, hletter, -⟩ := isExtendedBy_of_suffix_none hsuffix (hafter byte hbyte)
    refine ⟨hdigit, ?_⟩
    simp only [oneOf, map_cons, map_nil, contains_cons, contains_nil,
      Bool.or_false, Bool.or_eq_false_iff] at hletter ⊢
    exact hletter.1
  | some suffix =>
    have hdigitsFirst := literal.digitsFirst
    rw [suffixText, hsuffix] at hbyte
    rw [hsuffix] at hdigitsFirst
    obtain ⟨signedness, signednessUpper, kind, kindUpper⟩ := suffix
    cases signedness with
    | default =>
      cases hbyte
      have hkind := fun hradix => hdigitsFirst hradix _ rfl rfl
      dsimp only at hkind ⊢
      cases kind with
      | byte =>
        have hradix : literal.radix ≠ .hex := fun hradix => hkind hradix rfl
        cases hr : literal.radix with
        | hex => exact absurd hr hradix
        | decimal => cases kindUpper <;> exact ⟨rfl, rfl⟩
        | binary => cases kindUpper <;> exact ⟨rfl, rfl⟩
      | short => cases literal.radix <;> cases kindUpper <;> exact ⟨rfl, rfl⟩
      | int => cases literal.radix <;> cases kindUpper <;> exact ⟨rfl, rfl⟩
      | long => cases literal.radix <;> cases kindUpper <;> exact ⟨rfl, rfl⟩
    | signed =>
      cases hbyte
      cases literal.radix <;> cases signednessUpper <;> exact ⟨rfl, rfl⟩
    | unsigned =>
      cases hbyte
      cases literal.radix <;> cases signednessUpper <;> exact ⟨rfl, rfl⟩

end

theorem signText_cases (literal : IntegerLiteral) : literal.signText = [] ∨
    literal.signText = [ascii '+'] ∨ literal.signText = [ascii '-'] := by
  rw [signText]
  rcases literal.sign with _ | _ | _
  · exact .inl rfl
  · exact .inr (.inl rfl)
  · exact .inr (.inr rfl)

end IntegerLiteral

section Whole

variable {sign run rest : List UInt8}

theorem scan_prefixed {isDigit : UInt8 → Bool} (hnumeral : IsNumeral isDigit run)
    (hunderscore : isDigit (ascii '_') = false)
    (hrest : ∀ byte ∈ rest.head?, isDigit byte = false ∧ oneOf ['_'] byte = false)
    (zero letter : UInt8) (expected : SnbtErrorKind) :
    (do
      let cursor ← scanRequiredNumeral (sign ++ zero :: letter :: (run ++ rest))
        (sign.length + 2) isDigit expected
      withIntegerSuffix (sign ++ zero :: letter :: (run ++ rest)) cursor) =
      .ok (sign.length + 2 + run.length + integerSuffixLen rest) := by
  have htext : sign ++ [zero, letter] ++ (run ++ rest) = sign ++ zero :: letter :: (run ++ rest) :=
    append_assoc _ _ _
  have hlength : (sign ++ [zero, letter]).length = sign.length + 2 := length_append
  have hscan : scanRequiredNumeral (sign ++ [zero, letter] ++ (run ++ rest))
      (sign ++ [zero, letter]).length isDigit expected =
        .ok ((sign ++ [zero, letter]).length + run.length) :=
    scanRequiredNumeral_eq hnumeral hunderscore hrest expected
  have hsuffix := withIntegerSuffix_eq (sign ++ [zero, letter] ++ run) rest
  rw [htext, hlength] at hscan
  rw [append_assoc, htext, length_append, hlength] at hsuffix
  rw [hscan]
  exact hsuffix

variable (hsign : sign = [] ∨ sign = [ascii '+'] ∨ sign = [ascii '-'])
include hsign

theorem scanNumberToken_hex (hnumeral : IsNumeral isAsciiHexdigit run)
    (hrest : ∀ byte ∈ rest.head?, isAsciiHexdigit byte = false ∧ oneOf ['_'] byte = false)
    (upper allowFloat : Bool) :
    scanNumberToken (sign ++ ascii '0' :: letter 'x' upper :: (run ++ rest)) allowFloat =
      .ok (sign.length + 2 + run.length + integerSuffixLen rest) := by
  have hx : ∀ upper, oneOf ['x', 'X'] (letter 'x' upper) = true := by decide
  have hzero : oneOf ['0'] (ascii '0') = true := by decide
  rw [scanNumberToken_digit hsign (by decide), hzero, List.getElem?_cons_zero, any_some,
    hx, if_pos (by decide)]
  exact scan_prefixed hnumeral (by decide) hrest _ _ _

theorem scanNumberToken_binary (hnumeral : IsNumeral isBinaryDigit run)
    (hrest : ∀ byte ∈ rest.head?, isBinaryDigit byte = false ∧ oneOf ['_'] byte = false)
    (upper allowFloat : Bool) :
    scanNumberToken (sign ++ ascii '0' :: letter 'b' upper :: (run ++ rest)) allowFloat =
      .ok (sign.length + 2 + run.length + integerSuffixLen rest) := by
  have hx : ∀ upper, oneOf ['x', 'X'] (letter 'b' upper) = false := by decide
  have hb : ∀ upper, oneOf ['b', 'B'] (letter 'b' upper) = true := by decide
  have hzero : oneOf ['0'] (ascii '0') = true := by decide
  obtain ⟨first, hfirst⟩ : ∃ first, run.head? = some first :=
    ⟨_, List.head?_eq_some_head hnumeral.ne_nil⟩
  have hget : (run ++ rest)[0]? = some first := by
    rw [List.getElem?_append_left (length_pos_iff.2 hnumeral.ne_nil), ← List.head?_eq_getElem?,
      hfirst]
  have hdigit : oneOf ['0', '1', '_'] first = true := by
    have hbinary := hnumeral.head first hfirst
    simp only [isBinaryDigit, Bool.or_eq_true, decide_eq_true_eq] at hbinary
    rcases hbinary with rfl | rfl <;> decide
  rw [scanNumberToken_digit hsign (by decide), hzero, List.getElem?_cons_zero,
    List.getElem?_cons_succ, any_some, hx, any_some, hb, hget, any_some,
    hdigit, if_neg (by decide), if_pos (by decide)]
  exact scan_prefixed hnumeral (by decide) hrest _ _ _

theorem scanNumberToken_decimal (hnumeral : IsNumeral isAsciiDigit run)
    (hrest : ∀ byte ∈ rest.head?, isAsciiDigit byte = false ∧ oneOf ['_'] byte = false)
    (hzero : run.head? = some (ascii '0') → run = [ascii '0'])
    {allowFloat : Bool} (hfloat : allowFloat = true → ∀ byte ∈ rest.head?,
      oneOf ['.', 'e', 'E', 'f', 'F', 'd', 'D'] byte = false)
    (hhex : run = [ascii '0'] → ∀ byte ∈ rest.head?, oneOf ['x', 'X'] byte = false)
    (hbinary : run = [ascii '0'] → ∀ byte ∈ rest.head?, oneOf ['b', 'B'] byte = true →
      ∀ next ∈ rest[1]?, oneOf ['0', '1', '_'] next = false) :
    scanNumberToken (sign ++ (run ++ rest)) allowFloat =
      .ok (sign.length + run.length + integerSuffixLen rest) := by
  obtain ⟨first, digits, rfl⟩ := exists_cons_of_ne_nil hnumeral.ne_nil
  have hfirst := hnumeral.head first rfl
  have honly (h : oneOf ['0'] first = true) : first :: digits = [ascii '0'] := by
    refine hzero ?_
    simp only [oneOf, map_cons, map_nil, contains_cons, contains_nil,
      Bool.or_false, beq_iff_eq] at h
    rw [List.head?_cons, h]
  have hdecimal : scanDecimal (sign ++ (first :: digits ++ rest)) sign.length first allowFloat =
      .ok (sign.length + (first :: digits).length + integerSuffixLen rest) :=
    scanDecimal_eq hnumeral hrest honly hfloat
  rw [cons_append, scanNumberToken_digit hsign hfirst]
  by_cases h : oneOf ['0'] first = true
  · have hrun := honly h
    obtain ⟨rfl, rfl⟩ := List.cons.inj hrun
    rw [nil_append, if_neg ?_, if_neg ?_]
    · exact hdecimal
    · rw [h, Bool.true_and, Bool.and_eq_true, not_and]
      intro hb
      cases rest with
      | nil => cases hb
      | cons byte rest =>
        cases rest with
        | nil => exact nofun
        | cons next rest =>
          have hnext := hbinary hrun byte rfl hb next rfl
          rw [List.getElem?_cons_succ, List.getElem?_cons_zero, any_some, hnext]
          exact Bool.false_ne_true
    · rw [h, Bool.true_and]
      cases rest with
      | nil => exact nofun
      | cons byte rest =>
        have hx := hhex hrun byte rfl
        rw [List.getElem?_cons_zero, any_some, hx]
        exact Bool.false_ne_true
  · rw [eq_false_of_ne_true h, if_neg (by simp), if_neg (by simp)]
    exact hdecimal

end Whole

namespace IntegerLiteral

variable {literal : IntegerLiteral} {allowFloat : Bool} {after : List UInt8}

theorem head?_suffixText_cases {byte : UInt8}
    (hbyte : byte ∈ (literal.suffixText ++ after).head?) :
    (literal.suffix = none ∧ byte ∈ after.head?) ∨
      ∃ suffix, literal.suffix = some suffix ∧
        ((suffix.signedness = .default ∧ byte = letter suffix.kind.char suffix.kindUpper) ∨
          ∃ upper, byte = letter 's' upper ∨ byte = letter 'u' upper) := by
  rw [suffixText] at hbyte
  cases hsuffix : literal.suffix with
  | none =>
    rw [hsuffix] at hbyte
    exact .inl ⟨rfl, hbyte⟩
  | some suffix =>
    rw [hsuffix] at hbyte
    refine .inr ⟨suffix, rfl, ?_⟩
    obtain ⟨signedness, signednessUpper, kind, kindUpper⟩ := suffix
    cases signedness with
    | default =>
      cases hbyte
      exact .inl ⟨rfl, rfl⟩
    | signed =>
      cases hbyte
      exact .inr ⟨signednessUpper, .inl rfl⟩
    | unsigned =>
      cases hbyte
      exact .inr ⟨signednessUpper, .inr rfl⟩

theorem oneOf_head?_suffixText {chars : List Char}
    (hkind : ∀ (kind : IntegerKind) upper, oneOf chars (letter kind.char upper) = false)
    (hsigned : ∀ upper, oneOf chars (letter 's' upper) = false ∧
      oneOf chars (letter 'u' upper) = false)
    (hnone : literal.suffix = none → ∀ byte ∈ after.head?, oneOf chars byte = false) :
    ∀ byte ∈ (literal.suffixText ++ after).head?, oneOf chars byte = false := by
  intro byte hbyte
  rcases head?_suffixText_cases hbyte with
    ⟨hsuffix, hbyte⟩ | ⟨suffix, -, ⟨-, rfl⟩ | ⟨upper, rfl | rfl⟩⟩
  · exact hnone hsuffix byte hbyte
  · exact hkind _ _
  · exact (hsigned upper).1
  · exact (hsigned upper).2

section

variable (hafter : ∀ byte ∈ after.head?, literal.isExtendedBy allowFloat byte = false)

include hafter

theorem binary_suffixText (hradix : literal.radix = .decimal) (hrun : literal.run = [ascii '0']) :
    ∀ byte ∈ (literal.suffixText ++ after).head?, oneOf ['b', 'B'] byte = true →
      ∀ next ∈ (literal.suffixText ++ after)[1]?, oneOf ['0', '1', '_'] next = false := by
  intro byte hbyte hb next hnext
  have hs : ∀ upper, oneOf ['b', 'B'] (letter 's' upper) = false := by decide
  have hu : ∀ upper, oneOf ['b', 'B'] (letter 'u' upper) = false := by decide
  rcases head?_suffixText_cases hbyte with
    ⟨hsuffix, hbyte⟩ | ⟨suffix, hsuffix, ⟨hsignedness, rfl⟩ | ⟨upper, rfl | rfl⟩⟩
  · have hnot := (isExtendedBy_of_suffix_none hsuffix (hafter byte hbyte)).2.2.1
    rw [oneOf, contains_eq_mem, decide_eq_false_iff_not] at hnot
    rw [oneOf, contains_eq_mem, decide_eq_true_eq] at hb
    have hsubset : ['b', 'B'] ⊆ integerSuffixes := by decide
    exact absurd (map_subset ascii hsubset hb) hnot
  · have hkind : suffix.kind = .byte := by
      revert hb
      cases suffix.kind with
      | byte => exact fun _ => rfl
      | short => cases suffix.kindUpper <;> exact nofun
      | int => cases suffix.kindUpper <;> exact nofun
      | long => cases suffix.kindUpper <;> exact nofun
    have htext : suffix.text = [letter suffix.kind.char suffix.kindUpper] := by
      rw [Suffix.text, Suffix.signednessText, hsignedness]
      rfl
    rw [suffixText, hsuffix, map_some, getD_some, htext, singleton_append,
      List.getElem?_cons_succ, ← List.head?_eq_getElem?] at hnext
    have hextended := hafter next hnext
    rw [isExtendedBy, hsuffix] at hextended
    dsimp only at hextended
    rw [hsignedness, hkind] at hextended
    simpa [hradix, hrun] using hextended
  · rw [hs] at hb
    cases hb
  · rw [hu] at hb
    cases hb

theorem scanNumberToken_text :
    scanNumberToken (literal.text ++ after) allowFloat = .ok literal.text.length := by
  have hsuffix := integerSuffixLen_suffixText hafter
  have hdigits := head?_suffixText_append hafter
  have hsign : literal.signText = [] ∨ literal.signText = [ascii '+'] ∨
    literal.signText = [ascii '-'] := literal.signText_cases
  have hnumeral := literal.isNumeral
  have hlength : literal.text.length = literal.signText.length +
      (literal.radix.prefixText literal.prefixUpper).length + literal.run.length +
        literal.suffixText.length := by
    simp only [text, body, length_append]
    omega
  rw [hlength, text, append_assoc, append_assoc, body, ← hsuffix, append_assoc]
  cases hradix : literal.radix with
  | hex =>
    rw [hradix] at hnumeral hdigits
    exact scanNumberToken_hex hsign hnumeral hdigits _ _
  | binary =>
    rw [hradix] at hnumeral hdigits
    exact scanNumberToken_binary hsign hnumeral hdigits _ _
  | decimal =>
    rw [hradix] at hnumeral hdigits
    refine scanNumberToken_decimal hsign hnumeral hdigits (literal.noLeadingZero hradix) ?_ ?_ ?_
    · intro hallow
      refine oneOf_head?_suffixText ?_ (by decide) fun hsuffix byte hbyte => ?_
      · intro kind upper
        cases kind <;> cases upper <;> decide
      · exact (isExtendedBy_of_suffix_none hsuffix (hafter byte hbyte)).2.2.2.1 hradix hallow
    · intro hrun
      refine oneOf_head?_suffixText ?_ (by decide) fun hsuffix byte hbyte => ?_
      · intro kind upper
        cases kind <;> cases upper <;> decide
      · exact (isExtendedBy_of_suffix_none hsuffix (hafter byte hbyte)).2.2.2.2 hradix hrun
    · intro hrun
      exact binary_suffixText hafter hradix hrun

end

end IntegerLiteral

end SnbtNumber

end Steel
