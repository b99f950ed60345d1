import Steel.Nbt.SnbtValue

/-! # Numbers stay in their bounds

On no input does the scanner leave the text, and on nothing that the scanner cuts off does the
parser cut within a character, or negate a number that has no negation.
-/

namespace Steel

open List Option

namespace SnbtNumber

/-- A computation does not panic, and what it returns satisfies a condition. -/
def Returns {ε α : Type} (result : Except (Failure ε) α) (p : α → Prop) : Prop :=
  match result with
  | .ok value => p value
  | .error (.error _) => True
  | .error .panic => False

section Returns

variable {ε α β : Type} {p : α → Prop} {q : β → Prop} {x : Except (Failure ε) α}

theorem Returns.bind (h : Returns x p) {f : α → Except (Failure ε) β}
    (hf : ∀ a, p a → Returns (f a) q) : Returns (x >>= f) q := by
  rcases x with (error | _) | a
  · trivial
  · exact h.elim
  · exact hf a h

theorem Returns.mono (h : Returns x p) {p' : α → Prop} (hp : ∀ a, p a → p' a) : Returns x p' := by
  rcases x with (error | _) | a
  · trivial
  · exact h.elim
  · exact hp a h

theorem Returns.map (h : Returns x p) {f : α → β} (hf : ∀ a, p a → q (f a)) :
    Returns (f <$> x) q := by
  rcases x with (error | _) | a
  · trivial
  · exact h.elim
  · exact hf a h

theorem returns_ite {c : Prop} [Decidable c] {y : Except (Failure ε) α} (hx : c → Returns x p)
    (hy : ¬ c → Returns y p) : Returns (if c then x else y) p := by
  split_ifs with hc
  · exact hx hc
  · exact hy hc

end Returns

section Scan

variable {bytes : List UInt8} {start : ℕ}

def IsPlain (run : List UInt8) : Prop := ∀ byte ∈ run, byte < 128 ∧ byte ≠ ascii '-'

def IsAscii (run : List UInt8) : Prop := ∀ byte ∈ run, byte < 128

theorem IsPlain.isAscii {run : List UInt8} (h : IsPlain run) : IsAscii run :=
  fun byte hbyte => (h byte hbyte).1

variable {run run' : List UInt8}

theorem IsPlain.append (h : IsPlain run) (h' : IsPlain run') :
    IsPlain (run ++ run') := by
  intro byte hbyte
  rcases mem_append.1 hbyte with hbyte | hbyte
  · exact h byte hbyte
  · exact h' byte hbyte

theorem IsAscii.append (h : IsAscii run) (h' : IsAscii run') :
    IsAscii (run ++ run') := by
  intro byte hbyte
  rcases mem_append.1 hbyte with hbyte | hbyte
  · exact h byte hbyte
  · exact h' byte hbyte

theorem isPlain_singleton {chars : List Char} {byte : UInt8} (h : oneOf chars byte = true)
    (hchars : (chars.map ascii).all (fun b => b < 128 && b ≠ ascii '-') = true) :
    IsPlain [byte] := by
  intro b hb
  rw [mem_singleton.1 hb]
  rw [oneOf, contains_eq_mem, decide_eq_true_eq] at h
  simpa using all_eq_true.1 hchars byte h

theorem isPlain_digits {radix : Radix} {run : List UInt8}
    (h : ∀ byte ∈ run, radix.isDigit byte = true ∨ byte = ascii '_') : IsPlain run := by
  intro byte hbyte
  rcases h byte hbyte with hdigit | rfl
  · exact @forall_byte (fun byte => isAsciiHexdigit byte = true → byte < 128 ∧ byte ≠ ascii '-')
      (by decide +kernel) byte (Radix.isDigit_hex hdigit)
  · decide

/-- The text from the start to the cursor is a given one. -/
structure Scanned (bytes : List UInt8) (start cursor : ℕ) (run : List UInt8) : Prop where
  le : cursor ≤ bytes.length
  take : bytes.take cursor = bytes.take start ++ run

theorem Scanned.trans {middle cursor : ℕ}
    (h : Scanned bytes start middle run) (h' : Scanned bytes middle cursor run') :
    Scanned bytes start cursor (run ++ run') where
  le := h'.le
  take := by rw [h'.take, h.take, append_assoc]

theorem scanned_refl (h : start ≤ bytes.length) : Scanned bytes start start [] where
  le := h
  take := (append_nil _).symm

theorem scanned_succ {byte : UInt8} (h : bytes[start]? = some byte) :
    Scanned bytes start (start + 1) [byte] where
  le := by
    obtain ⟨hlt, -⟩ := List.getElem?_eq_some_iff.1 h
    exact hlt
  take := by rw [take_add_one, h, toList_some]

theorem scanRequiredNumeral_returns (hstart : start ≤ bytes.length) (acceptsDigit : UInt8 → Bool)
    (expected : SnbtErrorKind) :
    Returns (scanRequiredNumeral bytes start acceptsDigit expected) fun cursor =>
      ∃ run, Scanned bytes start cursor run ∧ run ≠ [] ∧
        ∀ byte ∈ run, acceptsDigit byte = true ∨ byte = ascii '_' := by
  rw [scanRequiredNumeral]
  generalize hrun : ((bytes.drop start).takeWhile fun byte =>
    acceptsDigit byte || oneOf ['_'] byte) = run
  have hstarts : run <+: bytes.drop start := hrun ▸ takeWhile_prefix _
  have hle : start + run.length ≤ bytes.length := by
    have hlength := hstarts.length_le
    rw [length_drop] at hlength
    omega
  have hscanned : Scanned bytes start (start + run.length) run := by
    refine ⟨hle, ?_⟩
    rw [take_add, ← prefix_iff_eq_take.1 hstarts]
  by_cases hempty : start + run.length = start
  · rw [if_pos hempty]
    trivial
  · rw [if_neg hempty]
    have hget {i : ℕ} (hi : i < bytes.length) : Returns (byteAt bytes i :
        Except (Failure NumberScanError) UInt8) fun _ => True := by
      rw [byteAt, List.getElem?_eq_getElem hi]
      trivial
    refine (hget (by omega)).bind fun first _ => (hget (by omega)).bind fun last _ => ?_
    refine returns_ite (fun _ => trivial) fun _ => ⟨run, hscanned, ?_, fun byte hbyte => ?_⟩
    · rintro rfl
      exact hempty rfl
    · rw [← hrun] at hbyte
      have haccepts := all_eq_true.1 all_takeWhile byte hbyte
      simpa [oneOf] using haccepts

theorem tryScanNumeral_returns (hstart : start ≤ bytes.length) :
    Returns (tryScanNumeral bytes start isAsciiDigit) fun result => ∀ cursor ∈ result,
      ∃ run, Scanned bytes start cursor run ∧ run ≠ [] ∧
        ∀ byte ∈ run, isAsciiDigit byte = true ∨ byte = ascii '_' := by
  have hscan := scanRequiredNumeral_returns hstart isAsciiDigit .expectedDecimalNumeral
  rw [tryScanNumeral]
  generalize scanRequiredNumeral bytes start isAsciiDigit .expectedDecimalNumeral = scan at hscan
  rcases scan with (error | _) | cursor
  · exact nofun
  · exact hscan.elim
  · rintro _ ⟨⟩
    exact hscan

theorem exists_of_any {chars : List Char} {i : ℕ} (h : bytes[i]?.any (oneOf chars) = true) :
    ∃ byte, bytes[i]? = some byte ∧ oneOf chars byte = true := by
  cases hbyte : bytes[i]? with
  | none =>
    rw [hbyte] at h
    cases h
  | some byte =>
    rw [hbyte] at h
    exact ⟨byte, rfl, h⟩

theorem tryScanExponent_returns (cursor : ℕ) :
    Returns (tryScanExponent bytes cursor) fun result => ∀ stop ∈ result,
      ∃ byte run, oneOf ['e', 'E'] byte = true ∧ Scanned bytes cursor stop (byte :: run) ∧
        IsAscii (byte :: run) := by
  rw [tryScanExponent]
  by_cases he : bytes[cursor]?.any (oneOf ['e', 'E']) = true
  · obtain ⟨byte, hbyte, hclass⟩ := exists_of_any he
    have hfirst := scanned_succ hbyte
    have hplain := isPlain_singleton hclass (by decide)
    rw [he, Bool.not_true, if_neg Bool.false_ne_true]
    cases hsign : bytes[cursor + 1]?.any (oneOf ['+', '-']) with
    | false =>
      refine (tryScanNumeral_returns hfirst.le).mono fun result hresult stop hstop => ?_
      obtain ⟨run, hscanned, -, hdigits⟩ := hresult stop hstop
      have hrun : IsPlain run := @isPlain_digits .decimal _ hdigits
      exact ⟨byte, run, hclass, hfirst.trans hscanned, (hplain.append hrun).isAscii⟩
    | true =>
      obtain ⟨sign, hget, hclass'⟩ := exists_of_any hsign
      have hsecond := scanned_succ hget
      have hascii : IsAscii [sign] := by
        intro b hb
        rw [mem_singleton.1 hb]
        rw [oneOf, contains_eq_mem, decide_eq_true_eq] at hclass'
        simp only [map_cons, map_nil, mem_cons, not_mem_nil,
          or_false] at hclass'
        rcases hclass' with rfl | rfl <;> decide
      refine (tryScanNumeral_returns hsecond.le).mono fun result hresult stop hstop => ?_
      obtain ⟨run, hscanned, -, hdigits⟩ := hresult stop hstop
      have hrun : IsPlain run := @isPlain_digits .decimal _ hdigits
      exact ⟨byte, sign :: run, hclass, (hfirst.trans hsecond).trans hscanned,
        (hplain.isAscii.append hascii).append hrun.isAscii⟩
  · rw [eq_false_of_ne_true he]
    rintro _ ⟨⟩

section

variable (hstart : start ≤ bytes.length)

include hstart

theorem scanOptionalExponent_returns :
    Returns (scanOptionalExponent bytes start) fun cursor =>
      ∃ run, Scanned bytes start cursor run ∧ IsAscii run := by
  refine (tryScanExponent_returns start).bind fun result hresult => ?_
  cases result with
  | none => exact ⟨[], scanned_refl hstart, nofun⟩
  | some stop =>
    obtain ⟨byte, run, -, hscanned, hascii⟩ := hresult stop rfl
    exact ⟨byte :: run, hscanned, hascii⟩

theorem sliceFrom_returns :
    Returns (sliceFrom bytes start : Except (Failure NumberScanError) (List UInt8))
      fun after => after = bytes.drop start := by
  rw [sliceFrom, if_pos hstart]
  rfl

theorem withFloatSuffix_returns :
    Returns (withFloatSuffix bytes start) fun cursor =>
      ∃ run, Scanned bytes start cursor run ∧ IsPlain run := by
  refine (sliceFrom_returns hstart).bind fun after hafter => ?_
  subst hafter
  rw [floatSuffixLen, List.head?_drop]
  cases hsuffix : bytes[start]?.any (oneOf ['f', 'F', 'd', 'D']) with
  | false => exact ⟨[], scanned_refl hstart, nofun⟩
  | true =>
    obtain ⟨byte, hbyte, hclass⟩ := exists_of_any hsuffix
    exact ⟨[byte], scanned_succ hbyte, isPlain_singleton hclass (by decide)⟩

theorem withIntegerSuffix_returns :
    Returns (withIntegerSuffix bytes start) fun cursor =>
      ∃ run, Scanned bytes start cursor run ∧ IsPlain run := by
  refine (sliceFrom_returns hstart).bind fun after hafter => ?_
  subst hafter
  rw [integerSuffixLen, List.head?_drop, List.getElem?_drop]
  split_ifs with htwo
  · rw [Bool.and_eq_true] at htwo
    obtain ⟨byte, hbyte, hclass⟩ := exists_of_any htwo.1
    obtain ⟨next, hnext, hclass'⟩ := exists_of_any htwo.2
    refine ⟨[byte] ++ [next], (scanned_succ hbyte).trans (scanned_succ hnext), ?_⟩
    exact (isPlain_singleton hclass (by decide)).append (isPlain_singleton hclass' (by decide))
  · cases hsuffix : bytes[start]?.any (oneOf integerSuffixes) with
    | false => exact ⟨[], scanned_refl hstart, forall_mem_nil _⟩
    | true =>
      obtain ⟨byte, hbyte, hclass⟩ := exists_of_any hsuffix
      exact ⟨[byte], scanned_succ hbyte, isPlain_singleton hclass (by decide)⟩

end

theorem scanFloatTail_returns (cursor : ℕ) :
    Returns (scanFloatTail bytes cursor) fun result => ∀ stop ∈ result,
      ∃ byte run, oneOf ['.', 'e', 'E', 'f', 'F', 'd', 'D'] byte = true ∧
        Scanned bytes cursor stop (byte :: run) ∧ IsAscii (byte :: run) := by
  have hsub {chars : List Char} {byte : UInt8} (h : oneOf chars byte = true)
      (hchars : chars ⊆ ['.', 'e', 'E', 'f', 'F', 'd', 'D']) :
      oneOf ['.', 'e', 'E', 'f', 'F', 'd', 'D'] byte = true := by
    rw [oneOf, contains_eq_mem, decide_eq_true_eq] at h ⊢
    exact map_subset ascii hchars h
  rw [scanFloatTail]
  cases hget : bytes[cursor]? with
  | none => rintro _ ⟨⟩
  | some byte =>
    have hfirst := scanned_succ hget
    refine returns_ite (fun hpoint => ?_) fun _ => returns_ite (fun he => ?_) fun _ =>
      returns_ite (fun hsuffix => ?_) fun _ => ?_
    · have hplain := isPlain_singleton hpoint (by decide)
      refine (tryScanNumeral_returns hfirst.le).bind fun fraction hfraction => ?_
      have hmiddle : ∃ run, Scanned bytes cursor (fraction.getD (cursor + 1)) (byte :: run) ∧
          IsAscii (byte :: run) := by
        cases fraction with
        | none => exact ⟨[], hfirst, hplain.isAscii⟩
        | some stop =>
          obtain ⟨run, hscanned, -, hdigits⟩ := hfraction stop rfl
          have hrun : IsPlain run := @isPlain_digits .decimal _ hdigits
          exact ⟨run, hfirst.trans hscanned, (hplain.append hrun).isAscii⟩
      obtain ⟨run, hscanned, hascii⟩ := hmiddle
      refine (scanOptionalExponent_returns hscanned.le).bind fun exponent hexponent => ?_
      obtain ⟨run', hscanned', hascii'⟩ := hexponent
      refine (withFloatSuffix_returns hscanned'.le).map fun stop hstop result hresult => ?_
      cases hresult
      obtain ⟨run'', hscanned'', hplain''⟩ := hstop
      exact ⟨byte, run ++ run' ++ run'', hsub hpoint (by decide),
        (hscanned.trans hscanned').trans hscanned'',
        (hascii.append hascii').append hplain''.isAscii⟩
    · refine (tryScanExponent_returns cursor).bind fun exponent hexponent => ?_
      cases exponent with
      | none => rintro _ ⟨⟩
      | some stop =>
        obtain ⟨byte', run, hclass, hscanned, hascii⟩ := hexponent stop rfl
        refine (withFloatSuffix_returns hscanned.le).map fun stop' hstop result hresult => ?_
        cases hresult
        obtain ⟨run', hscanned', hplain'⟩ := hstop
        exact ⟨byte', run ++ run', hsub hclass (by decide), hscanned.trans hscanned',
          hascii.append hplain'.isAscii⟩
    · rintro _ ⟨⟩
      exact ⟨byte, [], hsub hsuffix (by decide), hfirst,
        (isPlain_singleton hsuffix (by decide)).isAscii⟩
    · rintro _ ⟨⟩

/-- What follows the sign of a number. -/
structure IsBody (rest : List UInt8) : Prop where
  isAscii : IsAscii rest
  head : ∀ byte ∈ rest.head?, oneOf ['+', '-'] byte = false
  prefixed : ∀ byte ∈ rest[1]?, oneOf ['x', 'X', 'b', 'B'] byte = true → ascii '-' ∉ rest

theorem IsPlain.not_mem {run : List UInt8} (h : IsPlain run) : ascii '-' ∉ run :=
  fun hmem => (h _ hmem).2 rfl

theorem isBody_digits {run rest : List UInt8} (hne : run ≠ [])
    (hdigits : ∀ byte ∈ run, isAsciiDigit byte = true ∨ byte = ascii '_') (hrest : IsAscii rest)
    (hplain : (∀ byte ∈ rest.head?, oneOf ['x', 'X', 'b', 'B'] byte = false) ∨ IsPlain rest) :
    IsBody (run ++ rest) := by
  have hrun : IsPlain run := @isPlain_digits .decimal _ hdigits
  have hnot {chars : List Char} (hchars : (chars.map ascii).all
      (fun b => !isAsciiDigit b && b ≠ ascii '_') = true) {byte : UInt8}
      (hbyte : byte ∈ run) : oneOf chars byte = false := by
    rw [oneOf, contains_eq_mem, decide_eq_false_iff_not]
    intro hmem
    have hclass := all_eq_true.1 hchars byte hmem
    rcases hdigits byte hbyte with hdigit | rfl
    · simp [hdigit] at hclass
    · simp at hclass
  obtain ⟨first, digits, rfl⟩ := exists_cons_of_ne_nil hne
  constructor
  · exact hrun.isAscii.append hrest
  · rintro _ ⟨⟩
    exact hnot (by decide) mem_cons_self
  · intro byte hbyte hclass
    rcases hplain with hhead | hplain
    · exfalso
      rw [cons_append, List.getElem?_cons_succ] at hbyte
      cases digits with
      | nil =>
        rw [nil_append, ← List.head?_eq_getElem?] at hbyte
        rw [hhead byte hbyte] at hclass
        cases hclass
      | cons next digits =>
        cases hbyte
        rw [hnot (by decide) (mem_cons_of_mem _ mem_cons_self)] at hclass
        cases hclass
    · exact (hrun.append hplain).not_mem

theorem isBody_point {point : UInt8} (hpoint : oneOf ['.'] point = true) {run rest : List UInt8}
    (hne : run ≠ []) (hdigits : ∀ byte ∈ run, isAsciiDigit byte = true ∨ byte = ascii '_')
    (hrest : IsAscii rest) : IsBody ([point] ++ run ++ rest) := by
  have hrun : IsPlain run := @isPlain_digits .decimal _ hdigits
  rw [oneOf, contains_eq_mem, decide_eq_true_eq] at hpoint
  obtain rfl := mem_singleton.1 hpoint
  obtain ⟨first, digits, rfl⟩ := exists_cons_of_ne_nil hne
  constructor
  · refine (IsAscii.append ?_ hrun.isAscii).append hrest
    intro byte hbyte
    rw [mem_singleton.1 hbyte]
    decide
  · rintro _ ⟨⟩
    decide
  · rintro _ ⟨⟩ hclass
    exfalso
    rcases hdigits first mem_cons_self with hdigit | rfl
    · rw [oneOf_eq_false hdigit (by decide)] at hclass
      cases hclass
    · exact absurd hclass (by decide)

theorem slice_returns {stop : ℕ} (hle : start ≤ stop) (hstop : stop ≤ bytes.length) :
    Returns (slice bytes start stop : Except (Failure NumberScanError) (List UInt8))
      fun _ => True := by
  rw [slice, if_pos ⟨hle, hstop⟩]
  trivial

theorem Scanned.le_stop {cursor : ℕ} {run : List UInt8} (h : Scanned bytes start cursor run)
    (hstart : start ≤ bytes.length) : start ≤ cursor := by
  have hlength := congrArg List.length h.take
  rw [length_append, length_take, length_take] at hlength
  omega

theorem scanDecimal_returns (hstart : start ≤ bytes.length) (first : UInt8) (allowFloat : Bool) :
    Returns (scanDecimal bytes start first allowFloat) fun stop =>
      ∃ rest, Scanned bytes start stop rest ∧ IsBody rest := by
  refine (scanRequiredNumeral_returns hstart _ _).bind fun cursor hcursor => ?_
  obtain ⟨run, hscanned, hne, hdigits⟩ := hcursor
  have hinteger : Returns (do
      let digitCount := (← slice bytes start cursor).countP fun byte => !oneOf ['_'] byte
      if oneOf ['0'] first && 1 < digitCount then .error (.error ⟨cursor, .leadingZero⟩)
      else withIntegerSuffix bytes cursor) fun stop =>
        ∃ rest, Scanned bytes start stop rest ∧ IsBody rest := by
    refine (slice_returns (hscanned.le_stop hstart) hscanned.le).bind fun digits _ => ?_
    refine returns_ite (fun _ => trivial) fun _ => ?_
    refine (withIntegerSuffix_returns hscanned.le).mono fun stop hstop => ?_
    obtain ⟨run', hscanned', hplain⟩ := hstop
    exact ⟨run ++ run', hscanned.trans hscanned',
      isBody_digits hne hdigits hplain.isAscii (.inr hplain)⟩
  cases allowFloat with
  | false => exact hinteger
  | true =>
    refine (scanFloatTail_returns cursor).bind fun result hresult => ?_
    cases result with
    | none => exact hinteger
    | some stop =>
      obtain ⟨byte, run', hclass, hscanned', hascii⟩ := hresult stop rfl
      refine ⟨run ++ byte :: run', hscanned.trans hscanned',
        isBody_digits hne hdigits hascii (.inl ?_)⟩
      rintro _ ⟨⟩
      have hdisjoint : ∀ b ∈ ['.', 'e', 'E', 'f', 'F', 'd', 'D'].map ascii,
          oneOf ['x', 'X', 'b', 'B'] b = false := by decide +kernel
      rw [oneOf, contains_eq_mem, decide_eq_true_eq] at hclass
      exact hdisjoint byte hclass

def IsNumberText (text : List UInt8) : Prop :=
  ∃ sign rest, text = sign ++ rest ∧
    (sign = [] ∨ sign = [ascii '+'] ∨ sign = [ascii '-']) ∧ IsBody rest

theorem scanNumberToken_returns (bytes : List UInt8) (allowFloat : Bool) :
    Returns (scanNumberToken bytes allowFloat) fun stop =>
      stop ≤ bytes.length ∧ IsNumberText (bytes.take stop) := by
  rw [scanNumberToken]
  generalize hcursor : (bytes.head?.any (oneOf ['+', '-'])).toNat = cursor
  have hsign : bytes.take cursor = [] ∨ bytes.take cursor = [ascii '+'] ∨
      bytes.take cursor = [ascii '-'] := by
    subst hcursor
    cases bytes with
    | nil => exact .inl rfl
    | cons byte bytes =>
      cases hclass : oneOf ['+', '-'] byte with
      | false =>
        rw [List.head?_cons, any_some, hclass]
        exact .inl rfl
      | true =>
        rw [oneOf, contains_eq_mem, decide_eq_true_eq] at hclass
        simp only [map_cons, map_nil, mem_cons, not_mem_nil, or_false] at hclass
        rcases hclass with rfl | rfl
        · exact .inr (.inl rfl)
        · exact .inr (.inr rfl)
  have hdone {stop : ℕ} {rest : List UInt8} (hscanned : Scanned bytes cursor stop rest)
      (hbody : IsBody rest) : stop ≤ bytes.length ∧ IsNumberText (bytes.take stop) :=
    ⟨hscanned.le, _, rest, hscanned.take, hsign, hbody⟩
  have hradix {radix : Radix} {chars : List Char} {first : UInt8}
      (hfirst : bytes[cursor]? = some first) (hzero : oneOf ['0'] first = true)
      (hletter : bytes[cursor + 1]?.any (oneOf chars) = true)
      (hchars : (chars.map ascii).all (fun b => b < 128 && b ≠ ascii '-') = true)
      (expected : SnbtErrorKind) :
      Returns (do
        let cursor ← scanRequiredNumeral bytes (cursor + 2) radix.isDigit expected
        withIntegerSuffix bytes cursor) fun stop =>
          stop ≤ bytes.length ∧ IsNumberText (bytes.take stop) := by
    obtain ⟨letter, hletter, hclass⟩ := exists_of_any hletter
    have hstarts := (scanned_succ hfirst).trans (scanned_succ hletter)
    have hplain := (isPlain_singleton hzero (by decide)).append (isPlain_singleton hclass hchars)
    refine (scanRequiredNumeral_returns hstarts.le _ _).bind fun middle hmiddle => ?_
    obtain ⟨run, hscanned, -, hdigits⟩ := hmiddle
    refine (withIntegerSuffix_returns hscanned.le).mono fun stop hstop => ?_
    obtain ⟨run', hscanned', hplain'⟩ := hstop
    have hall := (hplain.append (isPlain_digits hdigits)).append hplain'
    refine hdone ((hstarts.trans hscanned).trans hscanned') ⟨hall.isAscii, ?_, fun _ _ _ =>
      hall.not_mem⟩
    rintro _ ⟨⟩
    rw [oneOf, contains_eq_mem, decide_eq_true_eq] at hzero
    rw [mem_singleton.1 hzero]
    decide
  cases hget : bytes[cursor]? with
  | none => trivial
  | some first =>
    have hfirst := scanned_succ hget
    have hstart : cursor ≤ bytes.length := Nat.le_of_succ_le hfirst.le
    refine returns_ite (fun hpoint => ?_) fun _ => returns_ite (fun _ => trivial) fun _ =>
      returns_ite (fun hhex => ?_) fun _ => returns_ite (fun hbinary => ?_) fun _ =>
        (scanDecimal_returns hstart first allowFloat).mono fun stop hstop => ?_
    · refine returns_ite (fun _ => trivial) fun _ => ?_
      refine (scanRequiredNumeral_returns hfirst.le _ _).bind fun middle hmiddle => ?_
      obtain ⟨run, hscanned, hne, hdigits⟩ := hmiddle
      refine (scanOptionalExponent_returns hscanned.le).bind fun exponent hexponent => ?_
      obtain ⟨run', hscanned', hascii'⟩ := hexponent
      refine (withFloatSuffix_returns hscanned'.le).mono fun stop hstop => ?_
      obtain ⟨run'', hscanned'', hplain''⟩ := hstop
      exact hdone ((hfirst.trans hscanned).trans (hscanned'.trans hscanned''))
        (isBody_point hpoint hne hdigits (hascii'.append hplain''.isAscii))
    · rw [Bool.and_eq_true] at hhex
      exact @hradix .hex _ first hget hhex.1 hhex.2 (by decide) _
    · rw [Bool.and_eq_true, Bool.and_eq_true] at hbinary
      exact @hradix .binary _ first hget hbinary.1.1 hbinary.1.2 (by decide) _
    · obtain ⟨rest, hscanned, hbody⟩ := hstop
      exact hdone hscanned hbody

end Scan

section Parse

variable {text rest : List UInt8}

section

variable {i : ℕ} (h : IsAscii text) (hi : i ≤ text.length)

include h hi

theorem isCharBoundary_of_isAscii :
    isCharBoundary text i = true := by
  rw [isCharBoundary]
  cases hget : text[i]? with
  | none =>
    have hle := List.getElem?_eq_none_iff.1 hget
    simpa using Nat.le_antisymm hi hle
  | some byte => simp [h byte (mem_of_getElem? hget)]

theorem strFrom_returns :
    Returns (strFrom text i : Except (Failure SnbtErrorKind) (List UInt8))
      fun after => after = text.drop i := by
  rw [strFrom, isCharBoundary_of_isAscii h hi]
  rfl

theorem strTo_returns :
    Returns (strTo text i : Except (Failure SnbtErrorKind) (List UInt8))
      fun before => before = text.take i := by
  rw [strTo, isCharBoundary_of_isAscii h hi]
  rfl

end

theorem IsBody.take (h : IsBody rest) (n : ℕ) : IsBody (rest.take n) where
  isAscii byte hbyte := h.isAscii byte (mem_of_mem_take hbyte)
  head byte hbyte := by
    cases n with
    | zero => cases hbyte
    | succ n =>
      cases rest with
      | nil => cases hbyte
      | cons first rest => exact h.head byte hbyte
  prefixed byte hbyte hclass hmem := by
    rw [List.getElem?_take] at hbyte
    split_ifs at hbyte
    · exact h.prefixed byte hbyte hclass (mem_of_mem_take hmem)
    · cases hbyte

theorem IsNumberText.take (h : IsNumberText text) (n : ℕ) : IsNumberText (text.take n) := by
  obtain ⟨sign, rest, rfl, hsign, hbody⟩ := h
  rw [take_append]
  refine ⟨sign.take n, rest.take (n - sign.length), rfl, ?_, hbody.take _⟩
  cases n with
  | zero => exact .inl rfl
  | succ n => rcases hsign with rfl | rfl | rfl <;> simp

theorem IsNumberText.isAscii (h : IsNumberText text) : IsAscii text := by
  obtain ⟨sign, rest, rfl, hsign, hbody⟩ := h
  refine IsAscii.append ?_ hbody.isAscii
  rcases hsign with rfl | rfl | rfl
  · exact nofun
  · intro byte hbyte
    rw [mem_singleton.1 hbyte]
    decide
  · intro byte hbyte
    rw [mem_singleton.1 hbyte]
    decide

theorem takeSign_returns (h : IsNumberText text) :
    Returns (takeSign text) fun result => IsBody result.2 := by
  have hascii := h.isAscii
  obtain ⟨sign, rest, rfl, hsign, hbody⟩ := h
  rcases hsign with rfl | rfl | rfl
  · have hhead (chars : List Char) (hchars : chars ⊆ ['+', '-']) :
        ([] ++ rest).head?.any (oneOf chars) = false := by
      cases rest with
      | nil => rfl
      | cons byte rest =>
        have hbyte := hbody.head byte rfl
        rw [oneOf, contains_eq_mem, decide_eq_false_iff_not] at hbyte
        rw [nil_append, List.head?_cons, any_some, oneOf, contains_eq_mem,
          decide_eq_false_iff_not]
        exact fun hmem => hbyte (map_subset ascii hchars hmem)
    rw [takeSign, hhead ['-'] (by decide), hhead ['+'] (by decide)]
    exact hbody
  · have hclass : oneOf ['-'] (ascii '+') = false ∧ oneOf ['+'] (ascii '+') = true := by decide
    refine (strFrom_returns hascii (by simp)).bind fun after hafter => ?_
    subst hafter
    exact hbody
  · have hclass : oneOf ['-'] (ascii '-') = true := by decide
    refine (strFrom_returns hascii (by simp)).bind fun after hafter => ?_
    subst hafter
    exact hbody

theorem exists_of_startsWith {c d : Char} (h : startsWith text [c, d] = true) :
    ∃ after, text = ascii c :: ascii d :: after := by
  rw [startsWith, isPrefixOf_iff_prefix] at h
  obtain ⟨after, rfl⟩ := h
  exact ⟨after, rfl⟩

theorem parseRadix_returns (h : IsBody rest) :
    Returns (parseRadix rest) fun result =>
      ∀ byte ∈ result.2.head?, oneOf ['-'] byte = false := by
  have hcut {c : Char} (hstart : startsWith rest ['0', c] = true)
      (hc : oneOf ['x', 'X', 'b', 'B'] (ascii c) = true) (radix : ℕ) :
      Returns (do .ok (radix, ← strFrom rest 2) : Except (Failure SnbtErrorKind) (ℕ × List UInt8))
        fun result => ∀ byte ∈ result.2.head?, oneOf ['-'] byte = false := by
    obtain ⟨after, rfl⟩ := exists_of_startsWith hstart
    have hminus := h.prefixed _ rfl hc
    refine (strFrom_returns h.isAscii (by simp)).bind fun digits hdigits => ?_
    subst hdigits
    intro byte hbyte
    rw [oneOf, contains_eq_mem, decide_eq_false_iff_not]
    intro hmem
    rw [map_singleton, mem_singleton] at hmem
    subst hmem
    have hmem : ascii '-' ∈ digits := List.mem_of_head? hbyte
    exact hminus (mem_cons_of_mem _ (mem_cons_of_mem _ hmem))
  refine returns_ite (fun hhex => ?_) fun _ => returns_ite (fun hbinary => ?_) fun _ => ?_
  · rw [Bool.or_eq_true] at hhex
    rcases hhex with hhex | hhex
    · exact hcut hhex (by decide) 16
    · exact hcut hhex (by decide) 16
  · rw [Bool.or_eq_true] at hbinary
    rcases hbinary with hbinary | hbinary
    · exact hcut hbinary (by decide) 2
    · exact hcut hbinary (by decide) 2
  · intro byte hbyte
    have hsign := h.head byte hbyte
    rw [oneOf, contains_eq_mem, decide_eq_false_iff_not] at hsign ⊢
    have hsubset : ['-'] ⊆ ['+', '-'] := by decide
    exact fun hmem => hsign (map_subset ascii hsubset hmem)

theorem normalizeNumberDigits_returns (h : ∀ byte ∈ text.head?, oneOf ['-'] byte = false) :
    Returns (normalizeNumberDigits text) fun digits =>
      ∀ byte ∈ digits.head?, oneOf ['-'] byte = false := by
  refine returns_ite (fun _ => trivial) fun _ => returns_ite (fun _ => trivial) fun hends => ?_
  cases text with
  | nil => exact nofun
  | cons first text =>
    have hfirst : oneOf ['_'] first = false := by
      rw [Bool.not_eq_true, Bool.or_eq_false_iff] at hends
      exact hends.1
    rw [Returns, filter_cons_of_pos (by rw [hfirst]; rfl)]
    exact h

theorem fromIntErrorKind_returns {α : Type} {result : Except IntErrorKind α} {p : α → Prop}
    (h : ∀ value, result = .ok value → p value) : Returns (fromIntErrorKind result) p := by
  cases result with
  | error error => trivial
  | ok value => exact h value rfl

theorem nonneg_of_i128FromStrRadix (h : ∀ byte ∈ text.head?, oneOf ['-'] byte = false)
    {radix : ℕ} {value : ℤ} (hvalue : i128FromStrRadix text radix = .ok value) : 0 ≤ value := by
  cases text with
  | nil => cases hvalue
  | cons first text =>
    rw [i128FromStrRadix, h first rfl, if_neg Bool.false_ne_true] at hvalue
    dsimp only at hvalue
    generalize parseDigits _ _ _ _ = digits at hvalue
    cases digits with
    | error error => cases hvalue
    | ok magnitude =>
      cases hvalue
      exact Int.natCast_nonneg _

theorem negate_returns {value : ℤ} (h : 0 ≤ value) : Returns (negate value) fun _ => True := by
  rw [negate, if_neg (by omega)]
  trivial

theorem toSignedTag_returns (kind : IntegerKind) (value : ℤ) :
    Returns (kind.toSignedTag value) fun _ => True :=
  returns_ite (fun _ => trivial) fun _ => trivial

theorem toUnsignedTag_returns (kind : IntegerKind) (value : ℕ) :
    Returns (kind.toUnsignedTag value) fun _ => True :=
  returns_ite (fun _ => trivial) fun _ => trivial

theorem parseIntegerBody_returns (h : IsNumberText text) (kind : IntegerKind)
    (signedness : IntegerSignedness) :
    Returns (parseIntegerBody text kind signedness) fun _ => True := by
  refine (takeSign_returns h).bind fun ⟨negative, body⟩ hbody =>
    returns_ite (fun _ => trivial) fun _ => ?_
  refine (parseRadix_returns hbody).bind fun ⟨radix, digits⟩ hdigits =>
    returns_ite (fun _ => trivial) fun _ => returns_ite (fun _ => trivial) fun _ => ?_
  refine (normalizeNumberDigits_returns hdigits).bind fun digits hdigits =>
    returns_ite (fun _ => trivial) fun _ => returns_ite (fun _ => ?_) fun _ => ?_
  · have hnonneg : Returns (fromIntErrorKind (i128FromStrRadix digits radix)) (0 ≤ ·) :=
      fromIntErrorKind_returns fun value hvalue => nonneg_of_i128FromStrRadix hdigits hvalue
    refine hnonneg.bind fun magnitude hmagnitude => ?_
    cases negative with
    | true => exact (negate_returns hmagnitude).bind fun value _ => toSignedTag_returns kind value
    | false => exact toSignedTag_returns kind magnitude
  · exact (fromIntErrorKind_returns fun _ _ => trivial).bind fun value (_ : True) =>
      toUnsignedTag_returns kind value

theorem parseSuffixes_returns (h : IsNumberText text) (defaultKind : DefaultIntegerKind)
    (table : List (List Char × IntegerKind × IntegerSignedness)) :
    Returns (parseSuffixes text defaultKind table) fun _ => True := by
  induction table with
  | nil => exact parseIntegerBody_returns h _ _
  | cons entry table ih =>
    obtain ⟨suffix, kind, signedness⟩ := entry
    refine returns_ite (fun _ => ih) fun _ => ?_
    cases hstrip : stripSuffix (text.map toAsciiLowercase) suffix with
    | none => exact ih
    | some body =>
      have hle : body.length ≤ text.length := by
        rw [stripSuffix, ite_none_right_eq_some] at hstrip
        obtain ⟨-, hbody⟩ := hstrip
        cases hbody
        rw [length_take, length_map]
        omega
      refine (strTo_returns h.isAscii hle).bind fun before hbefore => ?_
      subst hbefore
      exact returns_ite (fun _ => ih) fun _ => parseIntegerBody_returns (h.take _) _ _

theorem validateUnderscoresFrom_returns (text : List UInt8) (fuel : ℕ) :
    ∀ index, Returns (validateUnderscoresFrom text fuel index) fun _ => True := by
  have hget {i : ℕ} (hi : i < text.length) : Returns (byteAt text i :
      Except (Failure SnbtErrorKind) UInt8) fun _ => True := by
    rw [byteAt, List.getElem?_eq_getElem hi]
    trivial
  induction fuel with
  | zero => exact fun _ => trivial
  | succ fuel ih =>
    intro index
    refine returns_ite (fun hindex => ?_) fun _ => trivial
    refine (hget hindex).bind fun byte _ => returns_ite (fun _ => ih _) fun _ => ?_
    have hrest (surrounded : Bool) (index : ℕ) : Returns
        (if !surrounded then .error (.error .invalidUnderscore)
          else validateUnderscoresFrom text fuel index) fun _ => True :=
      returns_ite (fun _ => trivial) fun _ => ih _
    by_cases hinside : 0 < index ∧
        index + ((text.drop index).takeWhile (oneOf ['_'])).length < text.length
    · simp only [hinside, and_self, if_true]
      refine (hget (by omega)).bind fun before _ => (hget hinside.2).bind fun after _ => ?_
      exact hrest _ _
    · simp only [hinside, if_false]
      exact hrest false index

theorem parseFloatToken_returns (format : FloatFormat) (h : IsAscii text) :
    Returns (parseFloatToken format text) fun _ => True := by
  have hnormalize (body : List UInt8) : Returns (normalizeNumberDigits body) fun _ => True :=
    returns_ite (fun _ => trivial) fun _ => returns_ite (fun _ => trivial) fun _ => trivial
  rw [parseFloatToken]
  refine returns_ite (fun _ => (strTo_returns h (Nat.sub_le _ _)).bind fun body _ => ?_) fun _ => ?_
  all_goals
    refine (validateUnderscoresFrom_returns _ _ _).bind fun _ _ =>
      (hnormalize _).bind fun body _ => ?_
    cases format.parseF64 body with
    | none => trivial
    | some value =>
      exact returns_ite (fun _ => trivial) fun _ => returns_ite
        (fun _ => returns_ite (fun _ => trivial) fun _ => trivial) fun _ => trivial

theorem parseNumberToken_returns (format : FloatFormat) (h : IsNumberText text)
    (defaultKind : DefaultIntegerKind) :
    Returns (parseNumberToken format text defaultKind) fun _ => True :=
  returns_ite (fun _ => parseFloatToken_returns format h.isAscii) fun _ =>
    parseSuffixes_returns h defaultKind suffixes

end Parse

/-- A literal is cut off as a whole, and has its value in the kind it denotes if it fits and if no
minus sign stands before an unsigned number. On no input does anything go out of range. -/
theorem scan_parse_literal (format : FloatFormat) (allowFloat : Bool)
    (defaultKind : DefaultIntegerKind) :
    (∀ (literal : IntegerLiteral) (after : List UInt8),
      (∀ byte ∈ after.head?, literal.isExtendedBy allowFloat byte = false) →
      scanNumberToken (literal.text ++ after) allowFloat = .ok literal.text.length ∧
      (literal.Fits defaultKind → (literal.negative = true → literal.isSigned = true) →
        parseNumberToken format literal.text defaultKind =
          .ok ((literal.kind defaultKind).tag literal.value)) ∧
      (¬ (literal.Fits defaultKind ∧ (literal.negative = true → literal.isSigned = true)) →
        ∃ error, parseNumberToken format literal.text defaultKind = .error (.error error))) ∧
    ∀ bytes, Returns (scanNumberToken bytes allowFloat) fun stop => stop ≤ bytes.length ∧
      Returns (parseNumberToken format (bytes.take stop) defaultKind) fun _ => True := by
  constructor
  · intro literal after hafter
    refine ⟨IntegerLiteral.scanNumberToken_text hafter, fun hfits hsign => ?_, fun h => ?_⟩
    · exact IntegerLiteral.parseNumberToken_text format hfits hsign
    · exact IntegerLiteral.parseNumberToken_error format h
  · intro bytes
    refine (scanNumberToken_returns bytes allowFloat).mono fun stop ⟨hle, htext⟩ => ⟨hle, ?_⟩
    exact parseNumberToken_returns format htext defaultKind

def noFloats : FloatFormat := ⟨fun _ => none, fun _ => 0⟩

/-- The literal `-0x1sI`. -/
def minusOne : IntegerLiteral where
  sign := some true
  radix := .hex
  prefixUpper := false
  run := [ascii '1']
  suffix := some ⟨.signed, false, .int, true⟩
  isNumeral := by constructor <;> simp <;> decide
  noLeadingZero := nofun
  digitsFirst := by simp

theorem scan_parse_literal_minusOne :
    scanNumberToken (['-', '0', 'x', '1', 's', 'I', ','].map ascii) true = .ok 6 ∧
      parseNumberToken noFloats (['-', '0', 'x', '1', 's', 'I'].map ascii) .int =
        .ok (.int (-1)) := by
  have hliteral :=
    (scan_parse_literal noFloats true .int).1 minusOne [ascii ','] (by decide +kernel)
  exact ⟨hliteral.1, hliteral.2.1 (by decide +kernel) fun _ => rfl⟩

/-- The literal `-0ub`. -/
def minusZero : IntegerLiteral where
  sign := some true
  radix := .decimal
  prefixUpper := false
  run := [ascii '0']
  suffix := some ⟨.unsigned, false, .byte, false⟩
  isNumeral := by constructor <;> simp <;> decide
  noLeadingZero _ _ := rfl
  digitsFirst := nofun

/-- Zero is in the range of an unsigned byte, but is rejected with a minus sign. -/
theorem minusZero_rejected :
    minusZero.text = ['-', '0', 'u', 'b'].map ascii ∧ minusZero.Fits .int ∧
      minusZero.value = 0 ∧ parseNumberToken noFloats minusZero.text .int =
        .error (.error .expectedNonNegativeNumber) :=
  ⟨by decide, by decide +kernel, by decide +kernel, rfl⟩

end SnbtNumber

end Steel
