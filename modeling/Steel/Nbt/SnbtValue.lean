import Mathlib.Algebra.Order.Ring.Int
import Mathlib.Tactic.FinCases
import Mathlib.Tactic.Ring
import Steel.Nbt.SnbtLiteral

/-! # Values of integer literals

The parser finds the suffix of a literal again, from its end, and the value of the numeral.
-/

namespace Steel

open List Option Nat

namespace SnbtNumber

namespace IntegerLiteral

variable (literal : IntegerLiteral)

def magnitude : ℕ :=
  (literal.run.filter fun byte => !oneOf ['_'] byte).foldl
    (fun value byte => value * literal.radix.value + digitValue byte) 0

def negative : Bool := literal.sign = some true

def value : ℤ := if literal.negative then -literal.magnitude else literal.magnitude

def signedness : IntegerSignedness := (literal.suffix.map Suffix.signedness).getD .default

/-- Decimal literals are signed if they are not marked otherwise, and others if they are marked. -/
def isSigned : Bool :=
  literal.signedness = .signed || (literal.radix = .decimal && literal.signedness ≠ .unsigned)

def kind (defaultKind : DefaultIntegerKind) : IntegerKind :=
  (literal.suffix.map Suffix.kind).getD defaultKind.kind

def Fits (defaultKind : DefaultIntegerKind) : Prop :=
  if literal.isSigned then
    -2 ^ ((literal.kind defaultKind).bits - 1) ≤ literal.value ∧
      literal.value < 2 ^ ((literal.kind defaultKind).bits - 1)
  else 0 ≤ literal.value ∧ literal.value < 2 ^ (literal.kind defaultKind).bits

instance (defaultKind : DefaultIntegerKind) : Decidable (literal.Fits defaultKind) :=
  inferInstanceAs (Decidable (ite _ _ _))

end IntegerLiteral

theorem forall_byte {p : UInt8 → Prop} (h : ∀ n < 256, p (UInt8.ofNat n)) (byte : UInt8) :
    p byte := by
  have hbyte := h byte.toNat byte.toNat_lt
  rwa [UInt8.ofNat_toNat] at hbyte

theorem toDigit_of_isDigit (radix : Radix) (byte : UInt8) :
    radix.isDigit byte = true → toDigit radix.value byte = some (digitValue byte) :=
  @forall_byte (fun byte => radix.isDigit byte = true →
    toDigit radix.value byte = some (digitValue byte)) (by cases radix <;> decide +kernel) byte

theorem Radix.isDigit_underscore (radix : Radix) : radix.isDigit (ascii '_') = false := by
  cases radix <;> decide

theorem le_foldl_digits {radix : ℕ} (hradix : 0 < radix) (digits : List UInt8) (value : ℕ) :
    value ≤ digits.foldl (fun value byte => value * radix + digitValue byte) value := by
  induction digits generalizing value with
  | nil => exact le_refl _
  | cons byte digits ih =>
    have hstep : value ≤ value * radix + digitValue byte :=
      Nat.le_trans (Nat.le_mul_of_pos_right value hradix) (Nat.le_add_right _ _)
    exact Nat.le_trans hstep (ih _)

variable {radix : Radix} {digits text : List UInt8}

theorem accumulate_eq {bound : ℕ} (overflow : IntErrorKind)
    (hdigits : ∀ byte ∈ digits, radix.isDigit byte = true) {value : ℕ} (hvalue : value ≤ bound) :
    accumulate bound radix.value overflow digits value =
      if digits.foldl (fun value byte => value * radix.value + digitValue byte) value ≤ bound then
        .ok (digits.foldl (fun value byte => value * radix.value + digitValue byte) value)
      else .error overflow := by
  induction digits generalizing value with
  | nil => rw [foldl_nil, if_pos hvalue, accumulate]
  | cons byte digits ih =>
    rw [accumulate, toDigit_of_isDigit radix byte (hdigits byte mem_cons_self), foldl_cons]
    dsimp only
    split_ifs with hover hfinal hfinal
    · have hradix : 0 < radix.value := by cases radix <;> decide
      have hle := le_foldl_digits hradix digits (value * radix.value + digitValue byte)
      omega
    · rfl
    · rw [ih (fun b hb => hdigits b (mem_cons_of_mem _ hb)) (by omega), if_pos hfinal]
    · rw [ih (fun b hb => hdigits b (mem_cons_of_mem _ hb)) (by omega), if_neg hfinal]

theorem parseDigits_eq (bound : ℕ) (overflow : IntErrorKind) (hne : digits ≠ [])
    (hdigits : ∀ byte ∈ digits, radix.isDigit byte = true) :
    parseDigits bound radix.value overflow digits =
      if digits.foldl (fun value byte => value * radix.value + digitValue byte) 0 ≤ bound then
        .ok (digits.foldl (fun value byte => value * radix.value + digitValue byte) 0)
      else .error overflow := by
  rw [parseDigits, if_neg (by simpa using hne), accumulate_eq overflow hdigits (zero_le _)]

theorem oneOf_sign_of_isDigit {byte : UInt8} (h : radix.isDigit byte = true) :
    oneOf ['-'] byte = false ∧ oneOf ['+'] byte = false := by
  have hhex := Radix.isDigit_hex h
  exact ⟨oneOf_eq_false hhex (by decide), oneOf_eq_false hhex (by decide)⟩

theorem i128FromStrRadix_eq (hne : digits ≠ [])
    (hdigits : ∀ byte ∈ digits, radix.isDigit byte = true) :
    i128FromStrRadix digits radix.value =
      (parseDigits (2 ^ 127 - 1) radix.value .posOverflow digits).map Int.ofNat := by
  obtain ⟨first, rest, rfl⟩ := exists_cons_of_ne_nil hne
  obtain ⟨hminus, hplus⟩ := oneOf_sign_of_isDigit (hdigits first mem_cons_self)
  rw [i128FromStrRadix, hminus, if_neg Bool.false_ne_true]
  rw [hplus, if_neg Bool.false_ne_true]

theorem u128FromStrRadix_eq (hne : digits ≠ [])
    (hdigits : ∀ byte ∈ digits, radix.isDigit byte = true) :
    u128FromStrRadix digits radix.value =
      parseDigits (2 ^ 128 - 1) radix.value .posOverflow digits := by
  obtain ⟨first, rest, rfl⟩ := exists_cons_of_ne_nil hne
  obtain ⟨-, hplus⟩ := oneOf_sign_of_isDigit (hdigits first mem_cons_self)
  rw [u128FromStrRadix, hplus, if_neg Bool.false_ne_true]

theorem startsWith_two (first second : UInt8) (text : List UInt8) (c d : Char) :
    startsWith (first :: second :: text) [c, d] = (ascii c == first && ascii d == second) := by
  simp [startsWith, List.isPrefixOf]

variable {c : Char}

theorem startsWith_eq_false {chars : List Char} (hc : c ∈ chars) (htext : ascii c ∉ text) :
    startsWith text chars = false := by
  rw [startsWith, Bool.eq_false_iff, ne_eq, isPrefixOf_iff_prefix]
  intro hstarts
  exact htext (hstarts.subset (List.mem_map_of_mem hc))

namespace IntegerLiteral

variable {literal : IntegerLiteral}

theorem filter_run (literal : IntegerLiteral) :
    (literal.run.filter fun byte => !oneOf ['_'] byte) ≠ [] ∧
    ∀ byte ∈ literal.run.filter fun byte => !oneOf ['_'] byte,
      literal.radix.isDigit byte = true := by
  have hnumeral := literal.isNumeral
  constructor
  · obtain ⟨first, rest, hrun⟩ := exists_cons_of_ne_nil hnumeral.ne_nil
    have hfirst := hnumeral.head first (by rw [hrun]; rfl)
    have hkeep : oneOf ['_'] first = false :=
      oneOf_eq_false hfirst (by simp [Radix.isDigit_underscore])
    rw [hrun, filter_cons_of_pos (by rw [hkeep]; rfl)]
    exact cons_ne_nil _ _
  · intro byte hbyte
    obtain ⟨hmem, hkeep⟩ := mem_filter.1 hbyte
    rcases hnumeral.digits byte hmem with hdigit | rfl
    · exact hdigit
    · exact absurd hkeep (by decide)

theorem normalizeNumberDigits_run : normalizeNumberDigits literal.run =
    .ok (literal.run.filter fun byte => !oneOf ['_'] byte) := by
  have hnumeral := literal.isNumeral
  have hnot {byte : UInt8} (hdigit : literal.radix.isDigit byte = true) :
      oneOf ['_'] byte = false := oneOf_eq_false hdigit (by simp [Radix.isDigit_underscore])
  have hhead := hnot (hnumeral.head _ (List.head?_eq_some_head hnumeral.ne_nil))
  have hlast := hnot (hnumeral.last _ (List.getLast?_eq_some_getLast hnumeral.ne_nil))
  rw [normalizeNumberDigits, if_neg (by simpa using hnumeral.ne_nil),
    List.head?_eq_some_head hnumeral.ne_nil, List.getLast?_eq_some_getLast hnumeral.ne_nil,
    any_some, any_some, hhead, hlast]
  rfl

theorem isCharBoundary_one {byte : UInt8} {text : List UInt8}
    (h : ∀ next ∈ text.head?, next < 128) : isCharBoundary (byte :: text) 1 = true := by
  cases text with
  | nil => rfl
  | cons next text =>
    rw [isCharBoundary, List.getElem?_cons_succ, List.getElem?_cons_zero]
    simp [h next rfl]

theorem lt_of_isAsciiHexdigit {byte : UInt8} (h : isAsciiHexdigit byte = true) : byte < 128 :=
  @forall_byte (fun byte => isAsciiHexdigit byte = true → byte < 128) (by decide +kernel) byte h

theorem parseRadix_body : parseRadix literal.body = .ok (literal.radix.value, literal.run) := by
  have hnumeral := literal.isNumeral
  obtain ⟨first, rest, hrun⟩ := exists_cons_of_ne_nil hnumeral.ne_nil
  have hdigit := hnumeral.head first (by rw [hrun]; rfl)
  have hfirst : first < 128 := lt_of_isAsciiHexdigit (Radix.isDigit_hex hdigit)
  have hboundary (zero letter : UInt8) :
      isCharBoundary (zero :: letter :: literal.run) 2 = true := by
    rw [hrun, isCharBoundary, List.getElem?_cons_succ, List.getElem?_cons_succ,
      List.getElem?_cons_zero]
    simp [hfirst]
  have hzero : (ascii '0' == ascii '0') = true := by decide
  rw [body, parseRadix]
  cases hradix : literal.radix with
  | hex =>
    have hx : ∀ upper, (ascii 'x' == letter 'x' upper || ascii 'X' == letter 'x' upper) = true := by
      decide
    rw [Radix.prefixText, cons_append, cons_append, nil_append, startsWith_two,
      startsWith_two, hzero, Bool.true_and, Bool.true_and, hx, if_pos rfl, strFrom, hboundary]
    rfl
  | binary =>
    have hx : ∀ upper, (ascii 'x' == letter 'b' upper ||
        ascii 'X' == letter 'b' upper) = false := by decide
    have hb : ∀ upper, (ascii 'b' == letter 'b' upper || ascii 'B' == letter 'b' upper) = true := by
      decide
    simp only [Radix.prefixText, cons_append, nil_append, startsWith_two, hzero,
      Bool.true_and, hx, hb, if_pos, Bool.false_eq_true, if_false]
    rw [strFrom, hboundary]
    rfl
  | decimal =>
    have hnot {c : Char} (hc : isAsciiDigit (ascii c) = false) (hne : ascii c ≠ ascii '_') :
        startsWith (Radix.decimal.prefixText literal.prefixUpper ++ literal.run) ['0', c] =
          false := by
      refine startsWith_eq_false (mem_cons_of_mem _ (mem_singleton_self c)) fun hmem => ?_
      rw [hradix] at hnumeral
      rcases hnumeral.digits _ hmem with hdigit | h
      · rw [Radix.isDigit, hc] at hdigit
        cases hdigit
      · exact hne h
    rw [hnot (by decide) (by decide), hnot (by decide) (by decide), hnot (by decide) (by decide),
      hnot (by decide) (by decide)]
    rfl

theorem i128_run :
    fromIntErrorKind (i128FromStrRadix (literal.run.filter fun byte => !oneOf ['_'] byte)
        literal.radix.value) =
      if literal.magnitude < 2 ^ 127 then .ok (literal.magnitude : ℤ)
      else .error (.error .integerTooLarge) := by
  obtain ⟨hne, hdigits⟩ := literal.filter_run
  rw [i128FromStrRadix_eq hne hdigits, parseDigits_eq _ _ hne hdigits]
  change fromIntErrorKind (Except.map Int.ofNat (if literal.magnitude ≤ 2 ^ 127 - 1 then
    .ok literal.magnitude else .error .posOverflow)) = _
  by_cases hlt : literal.magnitude < 2 ^ 127
  · rw [if_pos (by omega), if_pos hlt]
    rfl
  · rw [if_neg (by omega), if_neg hlt]
    rfl

theorem u128_run :
    fromIntErrorKind (u128FromStrRadix (literal.run.filter fun byte => !oneOf ['_'] byte)
        literal.radix.value) =
      if literal.magnitude < 2 ^ 128 then .ok literal.magnitude
      else .error (.error .integerTooLarge) := by
  obtain ⟨hne, hdigits⟩ := literal.filter_run
  rw [u128FromStrRadix_eq hne hdigits, parseDigits_eq _ _ hne hdigits]
  change fromIntErrorKind (if literal.magnitude ≤ 2 ^ 128 - 1 then
    .ok literal.magnitude else .error .posOverflow) = _
  by_cases hlt : literal.magnitude < 2 ^ 128
  · rw [if_pos (by omega), if_pos hlt]
    rfl
  · rw [if_neg (by omega), if_neg hlt]
    rfl

theorem exists_body_eq_cons (literal : IntegerLiteral) :
    ∃ first rest, literal.body = first :: rest ∧ isAsciiHexdigit first = true := by
  have hnumeral := literal.isNumeral
  obtain ⟨first, rest, hrun⟩ := exists_cons_of_ne_nil hnumeral.ne_nil
  have hfirst := hnumeral.head first (by rw [hrun]; rfl)
  rw [body]
  cases hradix : literal.radix with
  | hex => exact ⟨_, _, rfl, by decide⟩
  | binary => exact ⟨_, _, rfl, by decide⟩
  | decimal => exact ⟨first, rest, hrun, Radix.isDigit_hex hfirst⟩

theorem leading_zero : ¬ (literal.radix.value = 10 ∧ 1 < literal.run.length ∧
    startsWith literal.run ['0'] = true) := by
  rintro ⟨hradix, hlength, hzero⟩
  have hdecimal : literal.radix = .decimal := by
    revert hradix
    cases literal.radix <;> decide
  have hrun := literal.noLeadingZero hdecimal
  obtain ⟨first, rest, hcons⟩ := exists_cons_of_ne_nil literal.isNumeral.ne_nil
  rw [hcons] at hlength hzero hrun
  have hfirst : ascii '0' = first := by simpa [startsWith, List.isPrefixOf] using hzero
  rw [← hfirst] at hrun
  obtain ⟨-, rfl⟩ := List.cons.inj (hrun rfl)
  simp at hlength

theorem takeSign_text : takeSign (literal.signText ++ literal.body) =
    .ok (literal.negative, literal.body) := by
  obtain ⟨first, rest, hbody, hfirst⟩ := literal.exists_body_eq_cons
  have hminus : oneOf ['-'] first = false := oneOf_eq_false hfirst (by decide)
  have hplus : oneOf ['+'] first = false := oneOf_eq_false hfirst (by decide)
  have hascii : first < 128 := lt_of_isAsciiHexdigit hfirst
  have hstr (sign : UInt8) : (strFrom (sign :: literal.body) 1 :
      Except (Failure SnbtErrorKind) (List UInt8)) = .ok literal.body := by
    rw [strFrom, isCharBoundary_one (by rw [hbody]; simpa using hascii), if_pos rfl]
    rfl
  rw [signText, negative]
  rcases literal.sign with _ | _ | _
  · dsimp only
    rw [nil_append, takeSign, hbody, List.head?_cons, any_some, any_some, hminus, hplus]
    rfl
  · dsimp only
    have hsign : oneOf ['-'] (ascii '+') = false ∧ oneOf ['+'] (ascii '+') = true := by decide
    rw [singleton_append, takeSign, List.head?_cons, any_some, any_some, hsign.1, hsign.2, hstr]
    rfl
  · dsimp only
    have hsign : oneOf ['-'] (ascii '-') = true := by decide
    rw [singleton_append, takeSign, List.head?_cons, any_some, hsign, hstr]
    rfl

theorem parseIntegerBody_body (kind : IntegerKind) (signedness : IntegerSignedness) :
    parseIntegerBody (literal.signText ++ literal.body) kind signedness =
      if literal.negative = true ∧
          ¬ (signedness = .signed ∨ literal.radix.value = 10 ∧ signedness ≠ .unsigned) then
        .error (.error .expectedNonNegativeNumber)
      else if signedness = .signed ∨ literal.radix.value = 10 ∧ signedness ≠ .unsigned then
        if literal.magnitude < 2 ^ 127 then kind.toSignedTag literal.value
        else .error (.error .integerTooLarge)
      else if literal.magnitude < 2 ^ 128 then kind.toUnsignedTag literal.magnitude
      else .error (.error .integerTooLarge) := by
  have hempty : literal.body.isEmpty = false := by
    obtain ⟨first, rest, hbody, -⟩ := literal.exists_body_eq_cons
    rw [hbody]
    rfl
  have hrun : literal.run.isEmpty = false := by simpa using literal.isNumeral.ne_nil
  have hnegate : negate (literal.magnitude : ℤ) = .ok (-literal.magnitude) := if_neg (by omega)
  simp only [parseIntegerBody, bind, Except.bind, takeSign_text, hempty, parseRadix_body, hrun,
    leading_zero, normalizeNumberDigits_run, i128_run, u128_run, Bool.false_eq_true, if_false,
    value]
  by_cases hsigned : signedness = .signed ∨ literal.radix.value = 10 ∧ signedness ≠ .unsigned
  · simp only [hsigned, not_true, and_false, if_false, if_true]
    by_cases hlt : literal.magnitude < 2 ^ 127
    · simp only [hlt, if_true, hnegate]
      split_ifs <;> rfl
    · simp only [hlt, if_false]
  · simp only [hsigned, not_false_eq_true, and_true, if_false]
    by_cases hlt : literal.magnitude < 2 ^ 128
    · simp only [hlt, if_true]
    · simp only [hlt, if_false]

end IntegerLiteral

theorem toAsciiLowercase_of_isDigit (byte : UInt8) : isAsciiHexdigit byte = true →
    oneOf ['u', 's', 'i', 'l'] (toAsciiLowercase byte) = false :=
  @forall_byte (fun byte => isAsciiHexdigit byte = true →
    oneOf ['u', 's', 'i', 'l'] (toAsciiLowercase byte) = false) (by decide +kernel) byte

theorem stripSuffix_eq_none {chars : List Char} (hc : c ∈ chars) (htext : ascii c ∉ text) :
    stripSuffix text chars = none := by
  rw [stripSuffix, if_neg]
  rw [isSuffixOf_iff_suffix]
  intro hsuffix
  exact htext (hsuffix.subset (List.mem_map_of_mem hc))

theorem stripSuffix_one (text : List UInt8) (last : UInt8) (c : Char) :
    stripSuffix (text ++ [last]) [c] = if ascii c = last then some text else none := by
  have hsuffix : ([c].map ascii).isSuffixOf (text ++ [last]) = (ascii c == last) := by
    simp [List.isSuffixOf, List.isPrefixOf]
  rw [stripSuffix, hsuffix]
  by_cases hc : ascii c = last
  · rw [if_pos (by simpa using hc), if_pos hc]
    simp
  · rw [if_neg (by simpa using hc), if_neg hc]

theorem stripSuffix_two (text : List UInt8) (previous last : UInt8) (c d : Char) :
    stripSuffix (text ++ [previous, last]) [c, d] =
      if ascii c = previous ∧ ascii d = last then some text else none := by
  have hsuffix : ([c, d].map ascii).isSuffixOf (text ++ [previous, last]) =
      (ascii d == last && ascii c == previous) := by
    simp [List.isSuffixOf, List.isPrefixOf]
  rw [stripSuffix, hsuffix]
  by_cases hc : ascii c = previous ∧ ascii d = last
  · rw [if_pos (by simp [hc.1, hc.2]), if_pos hc]
    simp
  · rw [if_neg (by simpa [and_comm] using hc), if_neg hc]

/-- A suffix of two letters is not found after a text without the first of them. -/
theorem stripSuffix_two_eq_none (hc : ascii c ∉ text) (last : UInt8) (d : Char) :
    stripSuffix (text ++ [last]) [c, d] = none := by
  rcases eq_nil_or_concat text with rfl | ⟨front, previous, rfl⟩
  · rw [stripSuffix, if_neg]
    rw [isSuffixOf_iff_suffix]
    intro hsuffix
    have hlength := hsuffix.length_le
    simp at hlength
  · have hne : ascii c ≠ previous := by
      rintro rfl
      exact hc (by simp)
    rw [concat_append, stripSuffix_two, if_neg fun h => hne h.1]

theorem strTo_append {after : List UInt8} (hafter : ∀ next ∈ after.head?, next < 128) :
    (strTo (text ++ after) text.length : Except (Failure SnbtErrorKind) (List UInt8)) =
      .ok text := by
  have hboundary : isCharBoundary (text ++ after) text.length = true := by
    rw [isCharBoundary, List.getElem?_append_right (Nat.le_refl _), Nat.sub_self]
    cases after with
    | nil => simp
    | cons next after => simp [hafter next rfl]
  rw [strTo, hboundary, if_pos rfl, take_left]

theorem ascii_char_inj {kind kind' : IntegerKind} (h : ascii kind.char = ascii kind'.char) :
    kind = kind' := by
  revert h
  cases kind <;> cases kind' <;> decide

section Table

variable {token text : List UInt8} {defaultKind : DefaultIntegerKind} {kind : IntegerKind}
  {signedness : IntegerSignedness}
  {first second : List (List Char × IntegerKind × IntegerSignedness)}

/-- An entry is passed over if its suffix is not there, or if it is a digit. -/
theorem parseSuffixes_append_of_none
    (h : ∀ entry ∈ first, stripSuffix (token.map toAsciiLowercase) entry.1 = none ∨
      entry.1 = ['b'] ∧ hasHexRadixPrefix token = true) :
    parseSuffixes token defaultKind (first ++ second) = parseSuffixes token defaultKind second := by
  induction first with
  | nil => rfl
  | cons entry first ih =>
    obtain ⟨suffix, kind, signedness⟩ := entry
    rw [cons_append, parseSuffixes]
    rw [ih fun entry hmem => h entry (mem_cons_of_mem _ hmem)]
    split_ifs with hdigit
    · rfl
    · rcases h _ mem_cons_self with hnone | hskip
      · rw [hnone]
      · exact absurd hskip hdigit

theorem parseSuffixes_append_of_some
    (hdigit : ∀ entry ∈ first, entry.1 = ['b'] ∧ hasHexRadixPrefix token = true →
      stripSuffix (token.map toAsciiLowercase) entry.1 = none)
    (hsome : ∃ entry ∈ first, stripSuffix (token.map toAsciiLowercase) entry.1 ≠ none)
    (hall : ∀ entry ∈ first, ∀ body, stripSuffix (token.map toAsciiLowercase) entry.1 = some body →
      body.length = text.length ∧ entry.2 = (kind, signedness))
    (hstr : (strTo token text.length : Except (Failure SnbtErrorKind) (List UInt8)) = .ok text)
    (htext : text.isEmpty = false) :
    parseSuffixes token defaultKind (first ++ second) = parseIntegerBody text kind signedness := by
  induction first with
  | nil =>
    obtain ⟨entry, hmem, -⟩ := hsome
    cases hmem
  | cons entry first ih =>
    obtain ⟨suffix, kind', signedness'⟩ := entry
    cases hstrip : stripSuffix (token.map toAsciiLowercase) suffix with
    | none =>
      have hrest : parseSuffixes token defaultKind (first ++ second) =
          parseIntegerBody text kind signedness := by
        refine ih (fun e he => hdigit e (mem_cons_of_mem _ he)) ?_
          fun e he => hall e (mem_cons_of_mem _ he)
        obtain ⟨entry, hmem, hne⟩ := hsome
        rcases mem_cons.1 hmem with rfl | hmem
        · exact absurd hstrip hne
        · exact ⟨entry, hmem, hne⟩
      rw [cons_append, parseSuffixes, hstrip, hrest, ite_self]
    | some body =>
      have hnot : ¬ (suffix = ['b'] ∧ hasHexRadixPrefix token = true) := by
        intro hskip
        rw [hdigit _ mem_cons_self hskip] at hstrip
        cases hstrip
      rw [cons_append, parseSuffixes, if_neg hnot, hstrip]
      obtain ⟨hlength, heq⟩ := hall _ mem_cons_self body hstrip
      obtain ⟨rfl, rfl⟩ := Prod.mk.inj heq
      dsimp only
      rw [hlength, hstr]
      simp [bind, Except.bind, htext]

end Table

def twoLetterSuffixes : List (List Char × IntegerKind × IntegerSignedness) := suffixes.take 8

def oneLetterSuffixes : List (List Char × IntegerKind × IntegerSignedness) := suffixes.drop 8

variable {entry : List Char × IntegerKind × IntegerSignedness}

theorem mem_twoLetterSuffixes (h : entry ∈ twoLetterSuffixes) : ∃ kind : IntegerKind,
      entry = (['u', kind.char], kind, .unsigned) ∨ entry = (['s', kind.char], kind, .signed) := by
  simp only [twoLetterSuffixes, suffixes, take_succ_cons, take_zero, mem_cons,
    not_mem_nil, or_false] at h
  rcases h with rfl | rfl | rfl | rfl | rfl | rfl | rfl | rfl
  · exact ⟨.byte, .inl rfl⟩
  · exact ⟨.short, .inl rfl⟩
  · exact ⟨.int, .inl rfl⟩
  · exact ⟨.long, .inl rfl⟩
  · exact ⟨.byte, .inr rfl⟩
  · exact ⟨.short, .inr rfl⟩
  · exact ⟨.int, .inr rfl⟩
  · exact ⟨.long, .inr rfl⟩

theorem mem_oneLetterSuffixes :
    entry ∈ oneLetterSuffixes ↔ ∃ kind : IntegerKind, entry = ([kind.char], kind, .default) := by
  simp only [oneLetterSuffixes, suffixes, drop_succ_cons, drop_zero, mem_cons,
    not_mem_nil, or_false]
  constructor
  · rintro (rfl | rfl | rfl | rfl)
    · exact ⟨.byte, rfl⟩
    · exact ⟨.short, rfl⟩
    · exact ⟨.int, rfl⟩
    · exact ⟨.long, rfl⟩
  · rintro ⟨_ | _ | _ | _, rfl⟩
    · exact .inl rfl
    · exact .inr (.inl rfl)
    · exact .inr (.inr (.inl rfl))
    · exact .inr (.inr (.inr rfl))

theorem mem_twoLetterSuffixes_signed (kind : IntegerKind) :
    (['s', kind.char], kind, .signed) ∈ twoLetterSuffixes ∧
      (['u', kind.char], kind, .unsigned) ∈ twoLetterSuffixes := by
  cases kind <;> decide

namespace IntegerLiteral

variable {literal : IntegerLiteral}

variable {byte : UInt8} {kind : IntegerKind} {magnitude : ℕ}

theorem oneOf_lower (h : byte ∈ literal.signText ++ literal.body) :
    oneOf ['u', 's', 'i', 'l'] (toAsciiLowercase byte) = false := by
  have hx : ∀ upper, oneOf ['u', 's', 'i', 'l'] (toAsciiLowercase (letter 'x' upper)) = false := by
    decide
  have hb : ∀ upper, oneOf ['u', 's', 'i', 'l'] (toAsciiLowercase (letter 'b' upper)) = false := by
    decide
  rcases mem_append.1 h with h | h
  · rcases literal.signText_cases with hsign | hsign | hsign
    · rw [hsign] at h
      cases h
    · rw [hsign, mem_singleton] at h
      subst h
      decide
    · rw [hsign, mem_singleton] at h
      subst h
      decide
  · rcases mem_append.1 h with h | h
    · revert h
      cases literal.radix with
      | decimal => exact nofun
      | hex =>
        intro h
        rcases mem_cons.1 h with rfl | h
        · decide
        · rw [mem_singleton.1 h]
          exact hx _
      | binary =>
        intro h
        rcases mem_cons.1 h with rfl | h
        · decide
        · rw [mem_singleton.1 h]
          exact hb _
    · rcases literal.isNumeral.digits byte h with hdigit | rfl
      · exact toAsciiLowercase_of_isDigit byte (Radix.isDigit_hex hdigit)
      · decide

/-- The letters of suffixes are not in the rest of the literal, but for `b`. -/
theorem ascii_not_mem (hc : oneOf ['u', 's', 'i', 'l'] (ascii c) = true) :
    ascii c ∉ (literal.signText ++ literal.body).map toAsciiLowercase := by
  intro hmem
  obtain ⟨byte, hbyte, heq⟩ := List.mem_map.1 hmem
  rw [← heq, oneOf_lower hbyte] at hc
  cases hc

theorem mem_suffixText (h : byte ∈ literal.suffixText) :
    ∃ c ∈ ['b', 's', 'i', 'l', 'u'], ∃ upper, byte = letter c upper := by
  rw [suffixText] at h
  cases hsuffix : literal.suffix with
  | none =>
    rw [hsuffix] at h
    cases h
  | some suffix =>
    rw [hsuffix, map_some, getD_some, Suffix.text] at h
    rcases mem_append.1 h with h | h
    · rw [Suffix.signednessText] at h
      cases hsignedness : suffix.signedness with
      | default =>
        rw [hsignedness] at h
        cases h
      | signed =>
        rw [hsignedness] at h
        exact ⟨'s', by decide, _, mem_singleton.1 h⟩
      | unsigned =>
        rw [hsignedness] at h
        exact ⟨'u', by decide, _, mem_singleton.1 h⟩
    · refine ⟨suffix.kind.char, ?_, _, mem_singleton.1 h⟩
      cases suffix.kind <;> decide

/-- A decimal literal has no letter of a float or of a prefix for hexadecimal numerals. -/
theorem oneOf_decimal (hradix : literal.radix = .decimal) (h : byte ∈ literal.text) :
    oneOf ['.', 'e', 'E', 'f', 'F', 'd', 'D', 'x', 'X'] byte = false := by
  have hletter : ∀ c ∈ ['b', 's', 'i', 'l', 'u'], ∀ upper,
      oneOf ['.', 'e', 'E', 'f', 'F', 'd', 'D', 'x', 'X'] (letter c upper) = false := by
    intro c hc
    fin_cases hc <;> decide
  rw [text, body, hradix] at h
  rcases mem_append.1 h with h | h
  · rcases mem_append.1 h with h | h
    · rcases literal.signText_cases with hsign | hsign | hsign
      · rw [hsign] at h
        cases h
      · rw [hsign, mem_singleton] at h
        subst h
        decide
      · rw [hsign, mem_singleton] at h
        subst h
        decide
    · have hnumeral := literal.isNumeral
      rw [hradix] at hnumeral
      rcases hnumeral.digits byte h with hdigit | rfl
      · exact oneOf_eq_false hdigit (by decide)
      · decide
  · obtain ⟨c, hc, upper, rfl⟩ := mem_suffixText h
    exact hletter c hc upper

theorem stripSign_text : stripSign literal.text = literal.body ++ literal.suffixText := by
  obtain ⟨first, rest, hbody, hfirst⟩ := literal.exists_body_eq_cons
  have hnot : oneOf ['+', '-'] first = false := oneOf_eq_false hfirst (by decide)
  rw [text, append_assoc]
  rcases literal.signText_cases with hsign | hsign | hsign
  · rw [hsign, nil_append, hbody, cons_append, stripSign, hnot, if_neg Bool.false_ne_true]
  · rw [hsign]
    rfl
  · rw [hsign]
    rfl

theorem hasHexRadixPrefix_text :
    hasHexRadixPrefix literal.text = decide (literal.radix = .hex) := by
  have hzero : (ascii '0' == ascii '0') = true := by decide
  rw [hasHexRadixPrefix, stripSign_text]
  cases hradix : literal.radix with
  | hex =>
    have hx : ∀ upper, (ascii 'x' == letter 'x' upper || ascii 'X' == letter 'x' upper) = true := by
      decide
    simp only [body, hradix, Radix.prefixText, cons_append, nil_append, startsWith_two,
      hzero, Bool.true_and, hx]
    rfl
  | binary =>
    have hx : ∀ upper, (ascii 'x' == letter 'b' upper ||
        ascii 'X' == letter 'b' upper) = false := by decide
    simp only [body, hradix, Radix.prefixText, cons_append, nil_append, startsWith_two,
      hzero, Bool.true_and, hx]
    rfl
  | decimal =>
    have hnot {c : Char}
        (hc : oneOf ['.', 'e', 'E', 'f', 'F', 'd', 'D', 'x', 'X'] (ascii c) = true) :
        startsWith (literal.body ++ literal.suffixText) ['0', c] = false := by
      refine startsWith_eq_false (mem_cons_of_mem _ (mem_singleton_self c)) fun hmem => ?_
      have htext : ascii c ∈ literal.text := by
        rw [text, append_assoc]
        exact mem_append_right _ hmem
      rw [oneOf_decimal hradix htext] at hc
      cases hc
    rw [hnot (by decide), hnot (by decide)]
    rfl

theorem shouldParseAsFloat_text : shouldParseAsFloat literal.text = false := by
  have hzero : (ascii '0' == ascii '0') = true := by decide
  rw [shouldParseAsFloat]
  cases hradix : literal.radix with
  | hex =>
    rw [hasRadixPrefix, hasHexRadixPrefix_text, hradix]
    rfl
  | binary =>
    have hb : ∀ upper, (ascii 'b' == letter 'b' upper || ascii 'B' == letter 'b' upper) = true := by
      decide
    have hstarts : hasRadixPrefix literal.text = true := by
      rw [hasRadixPrefix, stripSign_text]
      simp [body, hradix, Radix.prefixText, startsWith_two, Bool.or_assoc, hb]
    rw [hstarts]
    rfl
  | decimal =>
    have hclass {chars : List Char} {byte : UInt8} (h : byte ∈ literal.text)
        (hchars : chars ⊆ ['.', 'e', 'E', 'f', 'F', 'd', 'D', 'x', 'X']) :
        oneOf chars byte = false := by
      have hplain := oneOf_decimal hradix h
      rw [oneOf, contains_eq_mem, decide_eq_false_iff_not] at hplain ⊢
      exact fun hmem => hplain (map_subset ascii hchars hmem)
    have hany : literal.text.any (oneOf ['.', 'e', 'E']) = false := by
      rw [List.any_eq_false]
      intro byte hbyte
      rw [hclass hbyte (by decide)]
      exact Bool.false_ne_true
    have hend : endsWithOneOf literal.text ['f', 'F', 'd', 'D'] = false := by
      rw [endsWithOneOf]
      cases hlast : literal.text.getLast? with
      | none => rfl
      | some byte => exact hclass (List.mem_of_getLast? hlast) (by decide)
    rw [hany, hend, Bool.or_false, Bool.and_false]

theorem strTo_text : (strTo literal.text (literal.signText ++ literal.body).length :
    Except (Failure SnbtErrorKind) (List UInt8)) = .ok (literal.signText ++ literal.body) := by
  have hletter : ∀ c ∈ ['b', 's', 'i', 'l', 'u'], ∀ upper, letter c upper < 128 := by
    intro c hc
    fin_cases hc <;> decide
  refine strTo_append fun next hnext => ?_
  obtain ⟨c, hc, upper, rfl⟩ := mem_suffixText (List.mem_of_head? hnext)
  exact hletter c hc upper

theorem isEmpty_signText_body : (literal.signText ++ literal.body).isEmpty = false := by
  obtain ⟨first, rest, hbody, -⟩ := literal.exists_body_eq_cons
  rw [hbody]
  simp

theorem map_toAsciiLowercase_text : literal.text.map toAsciiLowercase =
    (literal.signText ++ literal.body).map toAsciiLowercase ++
      literal.suffixText.map toAsciiLowercase := map_append

variable {suffix : Suffix}

theorem map_toAsciiLowercase_suffixText (hsuffix : literal.suffix = some suffix) :
    literal.suffixText.map toAsciiLowercase = match suffix.signedness with
      | .default => [ascii suffix.kind.char]
      | .signed => [ascii 's', ascii suffix.kind.char]
      | .unsigned => [ascii 'u', ascii suffix.kind.char] := by
  have hletter : ∀ c ∈ ['b', 's', 'i', 'l', 'u'], ∀ upper,
      toAsciiLowercase (letter c upper) = ascii c := by
    intro c hc
    fin_cases hc <;> decide
  have hkind : suffix.kind.char ∈ ['b', 's', 'i', 'l', 'u'] := by cases suffix.kind <;> decide
  rw [suffixText, hsuffix, map_some, getD_some, Suffix.text, Suffix.signednessText]
  cases suffix.signedness with
  | default => simp [hletter _ hkind]
  | signed => simp [hletter _ hkind, hletter 's' (by decide)]
  | unsigned => simp [hletter _ hkind, hletter 'u' (by decide)]

theorem stripSuffix_digit (hradix : literal.radix ≠ .hex) :
    stripSuffix ((literal.signText ++ literal.body).map toAsciiLowercase) ['b'] = none := by
  have hnumeral := literal.isNumeral
  obtain ⟨front, last, hrun⟩ : ∃ front last, literal.run = front ++ [last] := by
    rcases eq_nil_or_concat literal.run with h | ⟨front, last, h⟩
    · exact absurd h hnumeral.ne_nil
    · exact ⟨front, last, h.trans concat_eq_append⟩
  have hdigit : isAsciiDigit last = true := by
    have hlast := hnumeral.last last (by rw [hrun, List.getLast?_concat]; rfl)
    revert hlast hradix
    cases literal.radix with
    | decimal => exact fun _ hlast => hlast
    | hex => exact fun hradix => absurd rfl hradix
    | binary =>
      intro _ hlast
      simp only [Radix.isDigit, isBinaryDigit, Bool.or_eq_true, decide_eq_true_eq] at hlast
      rcases hlast with rfl | rfl <;> decide
  have hne : ascii 'b' ≠ toAsciiLowercase last :=
    @forall_byte (fun byte => isAsciiDigit byte = true → ascii 'b' ≠ toAsciiLowercase byte)
      (by decide +kernel) last hdigit
  rw [body, hrun, map_append, map_append, map_append, map_singleton,
    ← append_assoc, ← append_assoc, stripSuffix_one, if_neg hne]

theorem parseIntegerToken_none (hsuffix : literal.suffix = none)
    (defaultKind : DefaultIntegerKind) :
    parseIntegerToken literal.text defaultKind =
      parseIntegerBody literal.text defaultKind.kind .default := by
  have hlower : literal.text.map toAsciiLowercase =
      (literal.signText ++ literal.body).map toAsciiLowercase := by
    rw [map_toAsciiLowercase_text, suffixText, hsuffix]
    exact append_nil _
  have hpass : parseSuffixes literal.text defaultKind (suffixes ++ []) =
      parseSuffixes literal.text defaultKind [] := by
    refine parseSuffixes_append_of_none fun entry hentry => ?_
    rw [hlower]
    rcases mem_append.1 (show entry ∈ twoLetterSuffixes ++ oneLetterSuffixes from hentry) with
      hentry | hentry
    · left
      obtain ⟨kind, rfl | rfl⟩ := mem_twoLetterSuffixes hentry
      · exact stripSuffix_eq_none mem_cons_self (ascii_not_mem (by decide))
      · exact stripSuffix_eq_none mem_cons_self (ascii_not_mem (by decide))
    · obtain ⟨kind, rfl⟩ := mem_oneLetterSuffixes.1 hentry
      cases kind with
      | short => exact .inl (stripSuffix_eq_none mem_cons_self (ascii_not_mem (by decide)))
      | int => exact .inl (stripSuffix_eq_none mem_cons_self (ascii_not_mem (by decide)))
      | long => exact .inl (stripSuffix_eq_none mem_cons_self (ascii_not_mem (by decide)))
      | byte =>
        by_cases hradix : literal.radix = .hex
        · exact .inr ⟨rfl, by rw [hasHexRadixPrefix_text, hradix]; rfl⟩
        · exact .inl (stripSuffix_digit hradix)
  exact hpass

theorem parseIntegerToken_default (hsuffix : literal.suffix = some suffix)
    (hsignedness : suffix.signedness = .default) (defaultKind : DefaultIntegerKind) :
    parseIntegerToken literal.text defaultKind =
      parseIntegerBody (literal.signText ++ literal.body) suffix.kind .default := by
  have hlower : literal.text.map toAsciiLowercase =
      (literal.signText ++ literal.body).map toAsciiLowercase ++ [ascii suffix.kind.char] := by
    rw [map_toAsciiLowercase_text, map_toAsciiLowercase_suffixText hsuffix, hsignedness]
  have hpass : parseSuffixes literal.text defaultKind (twoLetterSuffixes ++ oneLetterSuffixes) =
      parseSuffixes literal.text defaultKind oneLetterSuffixes := by
    refine parseSuffixes_append_of_none fun entry hentry => .inl ?_
    rw [hlower]
    obtain ⟨kind, rfl | rfl⟩ := mem_twoLetterSuffixes hentry
    · exact stripSuffix_two_eq_none (ascii_not_mem (by decide)) _ _
    · exact stripSuffix_two_eq_none (ascii_not_mem (by decide)) _ _
  have hfound : parseSuffixes literal.text defaultKind (oneLetterSuffixes ++ []) =
      parseIntegerBody (literal.signText ++ literal.body) suffix.kind .default := by
    have hmem : ([suffix.kind.char], suffix.kind, .default) ∈ oneLetterSuffixes :=
      mem_oneLetterSuffixes.2 ⟨suffix.kind, rfl⟩
    refine parseSuffixes_append_of_some ?_ ⟨_, hmem, ?_⟩ ?_ strTo_text isEmpty_signText_body
    · rintro entry hentry ⟨hb, hhex⟩
      rw [hasHexRadixPrefix_text, decide_eq_true_eq] at hhex
      have hkind : suffix.kind ≠ .byte := literal.digitsFirst hhex suffix hsuffix hsignedness
      have hchar : ascii 'b' ≠ ascii suffix.kind.char := by
        intro hchar
        have hbyte : IntegerKind.byte = suffix.kind := ascii_char_inj hchar
        exact hkind hbyte.symm
      rw [hlower, hb, stripSuffix_one, if_neg hchar]
    · rw [hlower, stripSuffix_one, if_pos rfl]
      exact some_ne_none _
    · intro entry hentry body hstrip
      obtain ⟨kind, rfl⟩ := mem_oneLetterSuffixes.1 hentry
      rw [hlower, stripSuffix_one, ite_none_right_eq_some] at hstrip
      obtain ⟨hchar, hbody⟩ := hstrip
      cases ascii_char_inj hchar
      cases hbody
      exact ⟨length_map _, rfl⟩
  exact hpass.trans hfound

theorem parseIntegerToken_two (hsuffix : literal.suffix = some suffix)
    (hc : c = 's' ∧ suffix.signedness = .signed ∨ c = 'u' ∧ suffix.signedness = .unsigned)
    (defaultKind : DefaultIntegerKind) :
    parseIntegerToken literal.text defaultKind =
      parseIntegerBody (literal.signText ++ literal.body) suffix.kind suffix.signedness := by
  have hlower : literal.text.map toAsciiLowercase =
      (literal.signText ++ literal.body).map toAsciiLowercase ++
        [ascii c, ascii suffix.kind.char] := by
    rw [map_toAsciiLowercase_text, map_toAsciiLowercase_suffixText hsuffix]
    rcases hc with ⟨rfl, hsignedness⟩ | ⟨rfl, hsignedness⟩
    · rw [hsignedness]
    · rw [hsignedness]
  have hmem : ([c, suffix.kind.char], suffix.kind, suffix.signedness) ∈ twoLetterSuffixes := by
    obtain ⟨hsigned, hunsigned⟩ := mem_twoLetterSuffixes_signed suffix.kind
    rcases hc with ⟨rfl, hsignedness⟩ | ⟨rfl, hsignedness⟩
    · rwa [hsignedness]
    · rwa [hsignedness]
  refine parseSuffixes_append_of_some ?_ ⟨_, hmem, ?_⟩ ?_ strTo_text isEmpty_signText_body
  · rintro entry hentry ⟨hb, -⟩
    obtain ⟨kind, rfl | rfl⟩ := mem_twoLetterSuffixes hentry
    · cases hb
    · cases hb
  · rw [hlower, stripSuffix_two, if_pos ⟨rfl, rfl⟩]
    exact some_ne_none _
  · intro entry hentry body hstrip
    have hsu : ascii 'u' ≠ ascii 's' := by decide
    rw [hlower] at hstrip
    obtain ⟨kind, rfl | rfl⟩ := mem_twoLetterSuffixes hentry
    · rw [stripSuffix_two, ite_none_right_eq_some] at hstrip
      obtain ⟨⟨hfirst, hchar⟩, hbody⟩ := hstrip
      cases ascii_char_inj hchar
      cases hbody
      rcases hc with ⟨rfl, hsignedness⟩ | ⟨rfl, hsignedness⟩
      · exact absurd hfirst hsu
      · exact ⟨length_map _, by rw [hsignedness]⟩
    · rw [stripSuffix_two, ite_none_right_eq_some] at hstrip
      obtain ⟨⟨hfirst, hchar⟩, hbody⟩ := hstrip
      cases ascii_char_inj hchar
      cases hbody
      rcases hc with ⟨rfl, hsignedness⟩ | ⟨rfl, hsignedness⟩
      · exact ⟨length_map _, by rw [hsignedness]⟩
      · exact absurd hfirst.symm hsu

theorem parseIntegerToken_text (defaultKind : DefaultIntegerKind) :
    parseIntegerToken literal.text defaultKind =
      parseIntegerBody (literal.signText ++ literal.body) (literal.kind defaultKind)
        literal.signedness := by
  rw [kind, signedness]
  cases hsuffix : literal.suffix with
  | none =>
    have htext : literal.text = literal.signText ++ literal.body := by
      rw [text, suffixText, hsuffix]
      exact append_nil _
    rw [parseIntegerToken_none hsuffix, htext]
    rfl
  | some suffix =>
    rw [map_some, map_some, getD_some, getD_some]
    cases hsignedness : suffix.signedness with
    | default => exact parseIntegerToken_default hsuffix hsignedness defaultKind
    | signed =>
      rw [← hsignedness]
      exact parseIntegerToken_two hsuffix (.inl ⟨rfl, hsignedness⟩) defaultKind
    | unsigned =>
      rw [← hsignedness]
      exact parseIntegerToken_two hsuffix (.inr ⟨rfl, hsignedness⟩) defaultKind

theorem isSigned_iff : literal.signedness = .signed ∨
    literal.radix.value = 10 ∧ literal.signedness ≠ .unsigned ↔ literal.isSigned = true := by
  have hdecimal : literal.radix.value = 10 ↔ literal.radix = .decimal := by
    cases literal.radix <;> decide
  simp [isSigned, hdecimal]

theorem toSignedTag_fits {value : ℤ} (hvalue : value = magnitude ∨ value = -magnitude)
    (hfits : -2 ^ (kind.bits - 1) ≤ value ∧ value < 2 ^ (kind.bits - 1)) :
    magnitude < 2 ^ 127 ∧ kind.toSignedTag value = .ok (kind.tag value) := by
  refine ⟨?_, if_pos hfits⟩
  cases kind <;> simp only [IntegerKind.bits] at hfits <;> omega

theorem toUnsignedTag_fits (hfits : (magnitude : ℤ) < 2 ^ kind.bits) :
    magnitude < 2 ^ 128 ∧ kind.toUnsignedTag magnitude = .ok (kind.tag magnitude) := by
  rw [IntegerKind.toUnsignedTag, if_neg]
  · refine ⟨?_, rfl⟩
    cases kind <;> simp only [IntegerKind.bits] at hfits <;> omega
  · cases kind <;> simp only [IntegerKind.bits] at hfits ⊢ <;> omega

theorem toUnsignedTag_not_fits (hfits : ¬ (magnitude : ℤ) < 2 ^ kind.bits) :
    kind.toUnsignedTag magnitude = .error (.error (.numberOutOfRange kind true)) := by
  rw [IntegerKind.toUnsignedTag, if_pos]
  cases kind <;> simp only [IntegerKind.bits] at hfits ⊢ <;> omega

variable {defaultKind : DefaultIntegerKind}

theorem parseNumberToken_text (format : FloatFormat)
    (hfits : literal.Fits defaultKind) (hsign : literal.negative = true → literal.isSigned = true) :
    parseNumberToken format literal.text defaultKind =
      .ok ((literal.kind defaultKind).tag literal.value) := by
  rw [parseNumberToken, shouldParseAsFloat_text, if_neg Bool.false_ne_true, parseIntegerToken_text,
    parseIntegerBody_body]
  simp only [isSigned_iff]
  rw [Fits] at hfits
  by_cases hsigned : literal.isSigned = true
  · rw [if_pos hsigned] at hfits
    have hvalue : literal.value = literal.magnitude ∨ literal.value = -literal.magnitude := by
      rw [value]
      split_ifs
      · exact .inr rfl
      · exact .inl rfl
    obtain ⟨hlt, htag⟩ := toSignedTag_fits hvalue hfits
    rw [if_neg fun h => h.2 hsigned, if_pos hsigned, if_pos hlt, htag]
  · rw [if_neg hsigned] at hfits
    have hpositive : literal.negative = false := by
      by_contra hnegative
      exact hsigned (hsign (eq_true_of_ne_false hnegative))
    have hvalue : literal.value = literal.magnitude := by
      rw [value, hpositive]
      rfl
    rw [hvalue] at hfits ⊢
    obtain ⟨hlt, htag⟩ := toUnsignedTag_fits hfits.2
    rw [hpositive, if_neg fun h => Bool.false_ne_true h.1, if_neg hsigned, if_pos hlt, htag]

theorem parseNumberToken_error (format : FloatFormat)
    (h : ¬ (literal.Fits defaultKind ∧ (literal.negative = true → literal.isSigned = true))) :
    ∃ error, parseNumberToken format literal.text defaultKind = .error (.error error) := by
  rw [parseNumberToken, shouldParseAsFloat_text, if_neg Bool.false_ne_true, parseIntegerToken_text,
    parseIntegerBody_body]
  simp only [isSigned_iff]
  rw [Fits] at h
  by_cases hsigned : literal.isSigned = true
  · rw [if_pos hsigned] at h
    have hfits := not_and'.1 h fun _ => hsigned
    rw [if_neg fun h => h.2 hsigned, if_pos hsigned]
    split_ifs with hlt
    · exact ⟨_, if_neg hfits⟩
    · exact ⟨_, rfl⟩
  · rw [if_neg hsigned] at h
    cases hnegative : literal.negative with
    | true => exact ⟨_, if_pos ⟨rfl, hsigned⟩⟩
    | false =>
      have hvalue : literal.value = literal.magnitude := by
        rw [value, hnegative]
        rfl
      have hfits : ¬ (literal.magnitude : ℤ) < 2 ^ (literal.kind defaultKind).bits := by
        intro hlt
        refine h ⟨⟨?_, ?_⟩, fun hneg => ?_⟩
        · rw [hvalue]
          exact Int.natCast_nonneg _
        · rwa [hvalue]
        · rw [hnegative] at hneg
          cases hneg
      rw [if_neg fun h => Bool.false_ne_true h.1, if_neg hsigned]
      split_ifs
      · exact ⟨_, toUnsignedTag_not_fits hfits⟩
      · exact ⟨_, rfl⟩

end IntegerLiteral

end SnbtNumber

end Steel
