import Mathlib.Algebra.Order.Group.Int
import Steel.Command.CommandTermination
import Steel.Command.Suggestions

/-! # Sorted suggestions

Widening keeps what a suggestion does to the input, so merged suggestions differ from the given ones
in their ranges only.
-/

namespace Steel

open List (map_cons sum_cons mem_cons_self cons_append append_assoc)

open StringReader Nat
open Option (bind_eq_bind bind_some isSome_iff_exists)

theorem lenUtf16_eq_zero {text : List Char} (h : lenUtf16 text = 0) : text = [] := by
  cases text with
  | nil => rfl
  | cons c text =>
    have hpos := charLenUtf16_pos c
    simp only [lenUtf16, map_cons, sum_cons] at h
    omega

theorem byteIndexFrom_append (before after : List Char) (utf16 bytes : ℕ) :
    byteIndexFrom (utf16 + lenUtf16 before) (before ++ after) utf16 bytes =
      some (bytes + lenUtf8 before) := by
  induction before generalizing utf16 bytes with
  | nil =>
    cases after <;> simp [byteIndexFrom, lenUtf16, lenUtf8]
  | cons c before ih =>
    have hpos := charLenUtf16_pos c
    have hlen : lenUtf16 (c :: before) = charLenUtf16 c + lenUtf16 before := by simp [lenUtf16]
    have hbytes : lenUtf8 (c :: before) = c.utf8Size + lenUtf8 before := by simp [lenUtf8]
    rw [cons_append, byteIndexFrom, if_neg (by omega)]
    rw [if_neg (by omega), hlen, hbytes, ← add_assoc, ← add_assoc]
    exact ih _ _

theorem byteIndex_append (before after : List Char) :
    byteIndex (before ++ after) (lenUtf16 before) = some (lenUtf8 before) := by
  have h := byteIndexFrom_append before after 0 0
  rwa [zero_add, zero_add] at h

theorem exists_of_byteIndexFrom {position utf16 bytes byte : ℕ} {input : List Char}
    (h : byteIndexFrom position input utf16 bytes = some byte) :
    ∃ before after, input = before ++ after ∧ position = utf16 + lenUtf16 before := by
  induction input generalizing utf16 bytes with
  | nil =>
    rw [byteIndexFrom] at h
    split at h
    case isTrue heq => exact ⟨[], [], rfl, heq.symm⟩
    case isFalse => simp at h
  | cons c input ih =>
    rw [byteIndexFrom] at h
    split at h
    case isTrue heq => exact ⟨[], c :: input, rfl, heq.symm⟩
    case isFalse =>
      dsimp only at h
      split at h
      case isTrue => simp at h
      case isFalse =>
        obtain ⟨before, after, rfl, hposition⟩ := ih h
        refine ⟨c :: before, after, rfl, ?_⟩
        have hlen : lenUtf16 (c :: before) = charLenUtf16 c + lenUtf16 before := by simp [lenUtf16]
        omega

theorem splitAtByte_append (before after : List Char) :
    splitAtByte (before ++ after) (lenUtf8 before) = some (before, after) := by
  induction before with
  | nil => simp [splitAtByte, lenUtf8]
  | cons c before ih =>
    have hpos := c.utf8Size_pos
    have hbytes : lenUtf8 (c :: before) = (c.utf8Size + lenUtf8 before - 1) + 1 := by
      simp only [lenUtf8, map_cons, sum_cons]
      omega
    rw [hbytes, cons_append, splitAtByte, if_pos (by omega)]
    have hrest : c.utf8Size + lenUtf8 before - 1 + 1 - c.utf8Size = lenUtf8 before := by omega
    rw [hrest, ih]
    rfl

theorem sliceBytes_append (a b c : List Char) :
    sliceBytes (a ++ b ++ c) (lenUtf8 a, lenUtf8 (a ++ b)) = some b := by
  simp only [sliceBytes, splitAtByte_append, bind_eq_bind, bind_some]
  rfl

theorem exists_between {a b c d : List Char} (h : a ++ b = c ++ d)
    (hle : lenUtf16 a ≤ lenUtf16 c) : ∃ mid, c = a ++ mid ∧ b = mid ++ d := by
  rcases List.append_eq_append_iff.mp h with ⟨mid, hc, hb⟩ | ⟨mid, ha, hd⟩
  · exact ⟨mid, hc, hb⟩
  · rw [ha, lenUtf16_append] at hle
    obtain rfl := lenUtf16_eq_zero (show lenUtf16 mid = 0 by omega)
    rw [List.append_nil] at ha
    exact ⟨[], by rw [ha, List.append_nil], hd.symm⟩

/-- The input around a range. -/
structure Cut (input : List Char) (range : StringRange) (before inside after : List Char) :
    Prop where
  input_eq : input = before ++ inside ++ after
  start_eq : range.start = lenUtf16 before
  stop_eq : range.stop = lenUtf16 (before ++ inside)

section Cut

variable {input before inside after : List Char} {range : StringRange}

theorem exists_cut (h : (range.byteRange input).isSome) :
    ∃ before inside after, Cut input range before inside after := by
  obtain ⟨bytes, hbytes⟩ := isSome_iff_exists.mp h
  simp only [StringRange.byteRange, bind_eq_bind, Option.bind_eq_some_iff] at hbytes
  obtain ⟨start, hstart, stop, hstop, -⟩ := hbytes
  obtain ⟨before, after, hbefore, hstart⟩ := exists_of_byteIndexFrom hstart
  obtain ⟨longer, rest, hlonger, hstop⟩ := exists_of_byteIndexFrom hstop
  rw [zero_add] at hstart hstop
  have hle := range.start_le
  rw [hstart, hstop] at hle
  obtain ⟨inside, rfl, rfl⟩ := exists_between (hbefore.symm.trans hlonger) hle
  exact ⟨before, inside, rest, hlonger, hstart, hstop⟩

theorem Cut.byteRange (h : Cut input range before inside after) :
    range.byteRange input = some (lenUtf8 before, lenUtf8 (before ++ inside)) := by
  have hstart : byteIndex input range.start = some (lenUtf8 before) := by
    rw [h.input_eq, h.start_eq, append_assoc]
    exact byteIndex_append before _
  have hstop : byteIndex input range.stop = some (lenUtf8 (before ++ inside)) := by
    rw [h.input_eq, h.stop_eq]
    exact byteIndex_append _ after
  simp [StringRange.byteRange, hstart, hstop]

theorem Cut.checkedByteRange (h : Cut input range before inside after) :
    Suggestion.checkedByteRange input range = .ok (lenUtf8 before, lenUtf8 (before ++ inside)) := by
  rw [Suggestion.checkedByteRange, h.byteRange]

end Cut

namespace Suggestion

variable {τ : Type} {s : Suggestion τ} {input : List Char} {range : StringRange}

theorem apply_eq {before inside after : List Char} (h : Cut input s.range before inside after) :
    s.apply input = some (.ok (before ++ s.text ++ after)) := by
  have hbefore : splitAtByte input (lenUtf8 before) = some (before, inside ++ after) := by
    rw [h.input_eq, append_assoc]
    exact splitAtByte_append before _
  have hafter : splitAtByte input (lenUtf8 (before ++ inside)) =
      some (before ++ inside, after) := by
    rw [h.input_eq]
    exact splitAtByte_append _ after
  rw [apply, h.checkedByteRange]
  dsimp only
  rw [hbefore, hafter]
  rfl

/-- The input around a suggestion and a wider range. -/
structure Around (input : List Char) (inner outer : StringRange)
    (before pre inside suffix after : List Char) : Prop where
  input_eq : input = before ++ pre ++ inside ++ suffix ++ after
  outer_start : outer.start = lenUtf16 before
  inner_start : inner.start = lenUtf16 (before ++ pre)
  inner_stop : inner.stop = lenUtf16 (before ++ pre ++ inside)
  outer_stop : outer.stop = lenUtf16 (before ++ pre ++ inside ++ suffix)

theorem exists_around {inner outer : StringRange} (hinner : (inner.byteRange input).isSome)
    (houter : (outer.byteRange input).isSome) (hstart : outer.start ≤ inner.start)
    (hstop : inner.stop ≤ outer.stop) :
    ∃ before pre inside suffix after, Around input inner outer before pre inside suffix after := by
  obtain ⟨a, b, c, h⟩ := exists_cut hinner
  obtain ⟨a', b', c', h'⟩ := exists_cut houter
  have hstart' : lenUtf16 a' ≤ lenUtf16 a := by rwa [← h.start_eq, ← h'.start_eq]
  have hstop' : lenUtf16 (a ++ b) ≤ lenUtf16 (a' ++ b') := by rwa [← h.stop_eq, ← h'.stop_eq]
  have heq : a' ++ (b' ++ c') = a ++ (b ++ c) := by
    rw [← append_assoc, ← append_assoc, ← h.input_eq, ← h'.input_eq]
  obtain ⟨pre, rfl, -⟩ := exists_between heq hstart'
  obtain ⟨suffix, hsuffix, hafter⟩ :=
    exists_between (h.input_eq.symm.trans h'.input_eq) hstop'
  exact ⟨a', pre, b, suffix, c', by rw [h'.input_eq, hsuffix], h'.start_eq, h.start_eq, h.stop_eq,
    by rw [h'.stop_eq, hsuffix]⟩

section Around

variable {inner outer : StringRange} {before pre inside suffix after : List Char}

section

variable (h : Around input inner outer before pre inside suffix after)

include h

theorem Around.cut_inner : Cut input inner (before ++ pre) inside (suffix ++ after) :=
  ⟨by rw [h.input_eq, append_assoc], h.inner_start, h.inner_stop⟩

theorem Around.cut_outer : Cut input outer before (pre ++ inside ++ suffix) after :=
  ⟨by simp only [h.input_eq, append_assoc], h.outer_start,
    by simp only [h.outer_stop, append_assoc]⟩

theorem Around.nil_of_eq (heq : outer = inner) : pre = [] ∧ suffix = [] := by
  subst heq
  have hstart := h.outer_start.symm.trans h.inner_start
  have hstop := h.inner_stop.symm.trans h.outer_stop
  simp only [lenUtf16_append] at hstart hstop
  exact ⟨lenUtf16_eq_zero (by omega), lenUtf16_eq_zero (by omega)⟩

end

/-- The widened suggestion takes the input around the old range into its text. -/
theorem expand_eq (h : Around input s.range outer before pre inside suffix after) :
    ∃ t, s.expand input outer = some (.ok t) ∧ t.range = outer ∧ t.text = pre ++ s.text ++ suffix ∧
      t.integer = if s.range = outer then s.integer else none := by
  have hstart : outer.start ≤ s.range.start := by
    rw [h.outer_start, h.inner_start, lenUtf16_append]
    exact le_add_right _ _
  have hstop : s.range.stop ≤ outer.stop := by
    rw [h.inner_stop, h.outer_stop, lenUtf16_append (before ++ pre ++ inside)]
    exact le_add_right _ _
  rw [expand, if_neg (by omega)]
  split
  case isTrue heq =>
    obtain ⟨rfl, rfl⟩ := h.nil_of_eq heq
    exact ⟨s, rfl, heq.symm, by simp, by rw [if_pos heq.symm]⟩
  case isFalse hne =>
    have hpre : Cut input ⟨outer.start, s.range.start, hstart⟩ before pre
        (inside ++ suffix ++ after) :=
      ⟨by simp only [h.input_eq, append_assoc], h.outer_start, h.inner_start⟩
    have hsuffix : Cut input ⟨s.range.stop, outer.stop, hstop⟩ (before ++ pre ++ inside) suffix
        after := ⟨h.input_eq, h.inner_stop, h.outer_stop⟩
    have hslice : sliceBytes input (lenUtf8 before, lenUtf8 (before ++ pre)) = some pre := by
      rw [hpre.input_eq]
      exact sliceBytes_append _ _ _
    have hslice' : sliceBytes input (lenUtf8 (before ++ pre ++ inside),
        lenUtf8 (before ++ pre ++ inside ++ suffix)) = some suffix := by
      rw [hsuffix.input_eq]
      exact sliceBytes_append _ _ _
    refine ⟨⟨outer, pre ++ s.text ++ suffix, s.tooltip, none, by rintro _ ⟨⟩⟩, ?_, rfl, rfl, ?_⟩
    · simp only [StringRange.between, dif_pos hstart, dif_pos hstop, hpre.checkedByteRange,
        hsuffix.checkedByteRange, hslice, hslice', bind_eq_bind, bind_some]
      rfl
    · rw [if_neg (Ne.symm hne)]

theorem apply_expand (h : Around input s.range outer before pre inside suffix after)
    {t : Suggestion τ} (hrange : t.range = outer) (htext : t.text = pre ++ s.text ++ suffix) :
    t.apply input = s.apply input := by
  have hcut := h.cut_outer
  rw [← hrange] at hcut
  rw [apply_eq hcut, apply_eq h.cut_inner, htext]
  simp

end Around

section Order

variable {toLowercase : List Char → List Char} {a b c : Suggestion τ}

theorem compare_swap (a b : Suggestion τ) :
    compareIgnoreCase toLowercase b a = (compareIgnoreCase toLowercase a b).swap := by
  unfold compareIgnoreCase
  cases a.integer with
  | none => cases b.integer <;> exact (cmp_swap _ _).symm
  | some v => cases b.integer <;> exact (cmp_swap _ _).symm

theorem le_iff_of_integers {v w : ℤ} (ha : a.integer = some v) (hb : b.integer = some w) :
    compareIgnoreCase toLowercase a b ≠ .gt ↔ v ≤ w := by
  rw [compareIgnoreCase, ha, hb]
  exact (cmp_eq_gt_iff v w).not.trans not_lt

theorem le_iff_of_text (h : a.integer = none ∨ b.integer = none) :
    compareIgnoreCase toLowercase a b ≠ .gt ↔ toLowercase a.text ≤ toLowercase b.text := by
  have hcompare : compareIgnoreCase toLowercase a b =
      cmp (toLowercase a.text) (toLowercase b.text) := by
    rcases h with h | h
    · rw [compareIgnoreCase, h]
    · rw [compareIgnoreCase, h]
      cases a.integer <;> rfl
  have hgt : cmp (toLowercase a.text) (toLowercase b.text) = .gt ↔
      toLowercase b.text < toLowercase a.text := by
    rw [cmp, cmpUsing]
    split_ifs with hless hgreater
    · exact iff_of_false (by decide) hless.not_gt
    · exact iff_of_true rfl hgreater
    · exact iff_of_false (by decide) hgreater
  rw [hcompare, Ne, hgt]
  exact not_lt

theorem text_eq_of_integer {v : ℤ} (ha : a.integer = some v) (hb : b.integer = some v) :
    a.text = b.text := by
  rw [a.text_of_integer v ha, b.text_of_integer v hb]

/-- The text stands between two integers which the order of texts puts the other way round. -/
structure Crossed (toLowercase : List Char → List Char) (small large other : Suggestion τ) :
    Prop where
  integers : ∃ v w, small.integer = some v ∧ large.integer = some w ∧ v < w
  text : other.integer = none
  above : toLowercase large.text ≤ toLowercase other.text
  below : toLowercase other.text ≤ toLowercase small.text

theorem le_of_not_crossed {v w : ℤ} (ha : a.integer = some v) (hb : b.integer = some w)
    (hc : c.integer = none) (h : ¬ Crossed toLowercase b a c)
    (hac : toLowercase a.text ≤ toLowercase c.text)
    (hcb : toLowercase c.text ≤ toLowercase b.text) : v ≤ w :=
  not_lt.mp fun hlt => h ⟨⟨w, v, hb, ha, hlt⟩, hc, hac, hcb⟩

theorem text_le_of_not_crossed {v w : ℤ} (ha : a.integer = some v) (hb : b.integer = some w)
    (hvw : v ≤ w) (hc : c.integer = none) (h : ¬ Crossed toLowercase a b c) :
    (toLowercase b.text ≤ toLowercase c.text → toLowercase a.text ≤ toLowercase c.text) ∧
      (toLowercase c.text ≤ toLowercase a.text → toLowercase c.text ≤ toLowercase b.text) := by
  rcases hvw.lt_or_eq with hlt | rfl
  · have hnot : ¬ (toLowercase b.text ≤ toLowercase c.text ∧
        toLowercase c.text ≤ toLowercase a.text) :=
      fun hbetween => h ⟨⟨v, w, ha, hb, hlt⟩, hc, hbetween.1, hbetween.2⟩
    constructor
    · intro hbc
      exact (not_le.mp fun hca => hnot ⟨hbc, hca⟩).le
    · intro hca
      exact (not_le.mp fun hbc => hnot ⟨hbc, hca⟩).le
  · rw [text_eq_of_integer ha hb]
    exact ⟨id, id⟩

/-- The comparison is a total preorder unless there are crossed suggestions. -/
theorem totalPreorderOn_iff (l : List (Suggestion τ)) :
    TotalPreorderOn (compareIgnoreCase toLowercase) l ↔
      ∀ small ∈ l, ∀ large ∈ l, ∀ other ∈ l, ¬ Crossed toLowercase small large other := by
  constructor
  · rintro h small hsmall large hlarge other hother ⟨⟨v, w, hv, hw, hlt⟩, htext, habove, hbelow⟩
    have hle := h.trans large hlarge other hother small hsmall
      ((le_iff_of_text (.inr htext)).mpr habove) ((le_iff_of_text (.inl htext)).mpr hbelow)
    rw [le_iff_of_integers hw hv] at hle
    exact absurd hle (not_le.mpr hlt)
  · intro h
    constructor
    case swap => exact fun a _ b _ => compare_swap a b
    case trans =>
      intro a ha b hb c hc hab hbc
      cases hia : a.integer with
      | none =>
        rw [le_iff_of_text (.inl hia)] at hab ⊢
        cases hib : b.integer with
        | none =>
          rw [le_iff_of_text (.inl hib)] at hbc
          exact hab.trans hbc
        | some w =>
          cases hic : c.integer with
          | none =>
            rw [le_iff_of_text (.inr hic)] at hbc
            exact hab.trans hbc
          | some u =>
            rw [le_iff_of_integers hib hic] at hbc
            exact (text_le_of_not_crossed hib hic hbc hia (h b hb c hc a ha)).2 hab
      | some v =>
        cases hib : b.integer with
        | none =>
          rw [le_iff_of_text (.inr hib)] at hab
          rw [le_iff_of_text (.inl hib)] at hbc
          cases hic : c.integer with
          | none =>
            rw [le_iff_of_text (.inr hic)]
            exact hab.trans hbc
          | some u =>
            rw [le_iff_of_integers hia hic]
            exact le_of_not_crossed hia hic hib (h c hc a ha b hb) hab hbc
        | some w =>
          rw [le_iff_of_integers hia hib] at hab
          cases hic : c.integer with
          | none =>
            rw [le_iff_of_text (.inr hic)] at hbc ⊢
            exact (text_le_of_not_crossed hia hib hab hic (h a ha b hb c hc)).1 hbc
          | some u =>
            rw [le_iff_of_integers hib hic] at hbc
            rw [le_iff_of_integers hia hic]
            exact hab.trans hbc

end Order

end Suggestion

open Suggestion

/-- The characters before a position in UTF-16 code units. -/
def takeUtf16 : ℕ → List Char → List Char
  | _, [] => []
  | position, c :: input =>
    if position = 0 then [] else c :: takeUtf16 (position - charLenUtf16 c) input

/-- The characters from a position in UTF-16 code units on. -/
def dropUtf16 : ℕ → List Char → List Char
  | _, [] => []
  | position, c :: input =>
    if position = 0 then c :: input else dropUtf16 (position - charLenUtf16 c) input

theorem takeUtf16_append (before after : List Char) :
    takeUtf16 (lenUtf16 before) (before ++ after) = before := by
  induction before with
  | nil => cases after <;> simp [takeUtf16, lenUtf16]
  | cons c before ih =>
    have hpos := charLenUtf16_pos c
    have hlen : lenUtf16 (c :: before) = charLenUtf16 c + lenUtf16 before := by simp [lenUtf16]
    rw [cons_append, takeUtf16, if_neg (by omega), hlen, Nat.add_sub_cancel_left, ih]

theorem dropUtf16_append (before after : List Char) :
    dropUtf16 (lenUtf16 before) (before ++ after) = after := by
  induction before with
  | nil => cases after <;> simp [dropUtf16, lenUtf16]
  | cons c before ih =>
    have hpos := charLenUtf16_pos c
    have hlen : lenUtf16 (c :: before) = charLenUtf16 c + lenUtf16 before := by simp [lenUtf16]
    rw [cons_append, dropUtf16, if_neg (by omega), hlen, Nat.add_sub_cancel_left, ih]

variable {τ : Type}

/-- The text of a suggestion with the input around it in a wider range. -/
def Suggestion.widened (input : List Char) (range : StringRange) (s : Suggestion τ) : List Char :=
  dropUtf16 range.start (takeUtf16 s.range.start input) ++ s.text ++
    dropUtf16 s.range.stop (takeUtf16 range.stop input)

theorem Suggestion.Around.widened_eq {input : List Char} {s : Suggestion τ} {outer : StringRange}
    {before pre inside suffix after : List Char}
    (h : Suggestion.Around input s.range outer before pre inside suffix after) :
    s.widened input outer = pre ++ s.text ++ suffix := by
  have hpre : takeUtf16 s.range.start input = before ++ pre := by
    rw [h.input_eq, h.inner_start, append_assoc, append_assoc]
    exact takeUtf16_append _ _
  have hsuffix : takeUtf16 outer.stop input = before ++ pre ++ inside ++ suffix := by
    rw [h.input_eq, h.outer_stop]
    exact takeUtf16_append _ _
  rw [widened, hpre, hsuffix, h.outer_start, dropUtf16_append, h.inner_stop, dropUtf16_append]

/-- The smallest range around the ranges of the suggestions. -/
structure Spans (range : StringRange) (originals : List (Suggestion τ)) : Prop where
  start_le : ∀ s ∈ originals, range.start ≤ s.range.start
  le_stop : ∀ s ∈ originals, s.range.stop ≤ range.stop
  exists_start : ∃ s ∈ originals, s.range.start = range.start
  exists_stop : ∃ s ∈ originals, s.range.stop = range.stop

theorem Spans.unique {range range' : StringRange} {originals : List (Suggestion τ)}
    (h : Spans range originals) (h' : Spans range' originals) : range = range' := by
  obtain ⟨s, hs, hstart⟩ := h.exists_start
  obtain ⟨s', hs', hstart'⟩ := h'.exists_start
  obtain ⟨t, ht, hstop⟩ := h.exists_stop
  obtain ⟨t', ht', hstop'⟩ := h'.exists_stop
  have h1 := h.start_le s' hs'
  have h2 := h'.start_le s hs
  have h3 := h.le_stop t' ht'
  have h4 := h'.le_stop t ht
  cases range
  cases range'
  simp only [StringRange.mk.injEq] at *
  omega

theorem Spans.perm {range : StringRange} {originals permuted : List (Suggestion τ)}
    (hspans : Spans range originals) (hperm : permuted.Perm originals) : Spans range permuted := by
  obtain ⟨s, hs, hstart⟩ := hspans.exists_start
  obtain ⟨t, ht, hstop⟩ := hspans.exists_stop
  exact ⟨fun s hs => hspans.start_le s (hperm.mem_iff.mp hs),
    fun s hs => hspans.le_stop s (hperm.mem_iff.mp hs),
    ⟨s, hperm.mem_iff.mpr hs, hstart⟩, ⟨t, hperm.mem_iff.mpr ht, hstop⟩⟩

section Spans

variable {range : StringRange} {originals : List (Suggestion τ)} {input : List Char}
  {s : Suggestion τ}

/-- The ranges of the suggestions lie between characters of the input. -/
def ValidRanges (input : List Char) (originals : List (Suggestion τ)) : Prop :=
  ∀ s ∈ originals, (s.range.byteRange input).isSome

theorem byteIndex_isSome_of_valid (h : (range.byteRange input).isSome) :
    (byteIndex input range.start).isSome ∧ (byteIndex input range.stop).isSome := by
  obtain ⟨bytes, hbytes⟩ := isSome_iff_exists.mp h
  simp only [StringRange.byteRange, bind_eq_bind, Option.bind_eq_some_iff] at hbytes
  obtain ⟨start, hstart, stop, hstop, -⟩ := hbytes
  exact ⟨Option.isSome_of_eq_some hstart, Option.isSome_of_eq_some hstop⟩

theorem Spans.valid (h : Spans range originals) (hvalid : ValidRanges input originals) :
    (range.byteRange input).isSome := by
  obtain ⟨s, hs, hstart⟩ := h.exists_start
  obtain ⟨t, ht, hstop⟩ := h.exists_stop
  obtain ⟨start, hs⟩ := isSome_iff_exists.mp (byteIndex_isSome_of_valid (hvalid s hs)).1
  obtain ⟨stop, ht⟩ := isSome_iff_exists.mp (byteIndex_isSome_of_valid (hvalid t ht)).2
  rw [hstart] at hs
  rw [hstop] at ht
  simp [StringRange.byteRange, hs, ht]

/-- A suggestion is widened to the common range, and its effect stays the same. -/
theorem Spans.expand (h : Spans range originals) (hvalid : ValidRanges input originals)
    (hs : s ∈ originals) :
    ∃ t text, s.expand input range = some (.ok t) ∧ t.range = range ∧
      t.text = s.widened input range ∧
      (t.integer = if s.range = range then s.integer else none) ∧
      t.apply input = some (.ok text) ∧ s.apply input = some (.ok text) := by
  obtain ⟨before, pre, inside, suffix, after, haround⟩ := exists_around (hvalid s hs)
    (h.valid hvalid) (h.start_le s hs) (h.le_stop s hs)
  obtain ⟨t, hexpand, hrange, htext, hinteger⟩ := expand_eq haround
  have happly := apply_eq haround.cut_inner
  refine ⟨t, _, hexpand, hrange, htext.trans haround.widened_eq.symm, hinteger, ?_, happly⟩
  rw [apply_expand haround hrange htext, happly]

end Spans

namespace Suggestions

variable [DecidableEq τ] {range : StringRange} {originals : List (Suggestion τ)}
  {input : List Char} {toLowercase : List Char → List Char}

theorem expandAll_spec {expanded : List (Suggestion τ)} (hnodup : expanded.Nodup)
    (h : ∀ s ∈ originals, ∃ t, s.expand input range = some (.ok t)) :
    ∃ result, expandAll input range originals expanded = some (.ok result) ∧ result.Nodup ∧
      ∀ t, t ∈ result ↔ t ∈ expanded ∨ ∃ s ∈ originals, s.expand input range = some (.ok t) := by
  induction originals generalizing expanded with
  | nil => exact ⟨expanded, rfl, hnodup, by simp⟩
  | cons s originals ih =>
    obtain ⟨t, ht⟩ := h s mem_cons_self
    have hrest : ∀ s ∈ originals, ∃ t, s.expand input range = some (.ok t) :=
      fun s hs => h s (List.mem_cons_of_mem _ hs)
    have hnodup' : (if t ∈ expanded then expanded else expanded ++ [t]).Nodup := by
      split
      case isTrue => exact hnodup
      case isFalse hnew =>
        rw [← List.concat_eq_append]
        exact hnodup.concat hnew
    obtain ⟨result, hresult, hnodup', hmem⟩ := ih hnodup' hrest
    refine ⟨result, ?_, hnodup', fun u => ?_⟩
    · rw [expandAll, ht]
      exact hresult
    · have hadded : u ∈ (if t ∈ expanded then expanded else expanded ++ [t]) ↔
          u ∈ expanded ∨ u = t := by
        split
        case isTrue hold =>
          constructor
          · exact .inl
          · rintro (hu | rfl)
            · exact hu
            · exact hold
        case isFalse => simp
      rw [hmem, hadded, List.exists_mem_cons_iff, ht, or_assoc]
      simp [eq_comm]

variable (first : Suggestion τ) (others : List (Suggestion τ))

omit [DecidableEq τ] in
theorem foldl_start_spec : (∀ s ∈ first :: others,
      others.foldl (fun start s => min start s.range.start) first.range.start ≤ s.range.start) ∧
    ∃ s ∈ first :: others, s.range.start =
      others.foldl (fun start s => min start s.range.start) first.range.start := by
  induction others using List.reverseRecOn with
  | nil => simp
  | append_singleton others last ih =>
    obtain ⟨hle, s, hs, hstart⟩ := ih
    rw [List.foldl_concat]
    refine ⟨fun t ht => ?_, ?_⟩
    · rw [← cons_append, List.mem_append, List.mem_singleton] at ht
      rcases ht with ht | rfl
      · exact (min_le_left _ _).trans (hle t ht)
      · exact min_le_right _ _
    · rcases le_total (others.foldl (fun start s => min start s.range.start)
        first.range.start) last.range.start with hmin | hmin
      · exact ⟨s, by rw [← cons_append]; exact List.mem_append_left _ hs, by omega⟩
      · exact ⟨last, by simp, by omega⟩

omit [DecidableEq τ] in
theorem foldl_stop_spec : (∀ s ∈ first :: others,
      s.range.stop ≤ others.foldl (fun stop s => max stop s.range.stop) first.range.stop) ∧
    ∃ s ∈ first :: others, s.range.stop =
      others.foldl (fun stop s => max stop s.range.stop) first.range.stop := by
  induction others using List.reverseRecOn with
  | nil => simp
  | append_singleton others last ih =>
    obtain ⟨hle, s, hs, hstop⟩ := ih
    rw [List.foldl_concat]
    refine ⟨fun t ht => ?_, ?_⟩
    · rw [← cons_append, List.mem_append, List.mem_singleton] at ht
      rcases ht with ht | rfl
      · exact (hle t ht).trans (le_max_left _ _)
      · exact le_max_right _ _
    · rcases le_total (others.foldl (fun stop s => max stop s.range.stop)
        first.range.stop) last.range.stop with hmax | hmax
      · exact ⟨last, by simp, by omega⟩
      · exact ⟨s, by rw [← cons_append]; exact List.mem_append_left _ hs, by omega⟩

theorem create_spec (hne : originals ≠ []) (hvalid : ValidRanges input originals) :
    ∃ range expanded, Spans range originals ∧ expanded.Nodup ∧
      (∀ t, t ∈ expanded ↔ ∃ s ∈ originals, s.expand input range = some (.ok t)) ∧
      ∀ sortBy, create sortBy toLowercase input originals =
        (sortBy (compareIgnoreCase toLowercase) expanded).map fun sorted =>
          .ok ⟨range, sorted⟩ := by
  cases originals with
  | nil => exact absurd rfl hne
  | cons first others =>
    obtain ⟨hstart, s, hs, hstart'⟩ := foldl_start_spec first others
    obtain ⟨hstop, t, ht, hstop'⟩ := foldl_stop_spec first others
    generalize hfrom : others.foldl (fun start s => min start s.range.start) first.range.start =
      start at hstart hstart'
    generalize hto : others.foldl (fun stop s => max stop s.range.stop) first.range.stop =
      stop at hstop hstop'
    have hle : start ≤ stop :=
      (hstart first mem_cons_self).trans
        (first.range.start_le.trans (hstop first mem_cons_self))
    have hspans : Spans ⟨start, stop, hle⟩ (first :: others) :=
      ⟨hstart, hstop, ⟨s, hs, hstart'⟩, ⟨t, ht, hstop'⟩⟩
    have hexpands : ∀ s ∈ first :: others,
        ∃ t, s.expand input ⟨start, stop, hle⟩ = some (.ok t) := by
      intro s hs
      obtain ⟨t, _, ht, -⟩ := hspans.expand hvalid hs
      exact ⟨t, ht⟩
    obtain ⟨expanded, hexpanded, hnodup, hmem⟩ := expandAll_spec List.nodup_nil hexpands
    refine ⟨⟨start, stop, hle⟩, expanded, hspans, hnodup, fun t => by simpa using hmem t, ?_⟩
    intro sortBy
    simp only [create, hfrom, hto, StringRange.between, dif_pos hle, bind_eq_bind,
      bind_some, hexpanded]
    cases sortBy (compareIgnoreCase toLowercase) expanded <;> rfl

/-- The sorted set of the suggestions, with one range. -/
structure Canonical (toLowercase : List Char → List Char) (input : List Char)
    (originals : List (Suggestion τ)) (result : Suggestions τ) : Prop where
  nodup : result.list.Nodup
  sorted : result.list.Pairwise (compareIgnoreCase toLowercase · · ≠ .gt)
  range_eq : ∀ t ∈ result.list, t.range = result.range
  spans : originals ≠ [] → Spans result.range originals
  mem_iff : ∀ t, t ∈ result.list ↔
    ∃ s ∈ originals, s.expand input result.range = some (.ok t)
  same_effect : ∀ s ∈ originals, ∃ t ∈ result.list, ∃ text,
    s.expand input result.range = some (.ok t) ∧
    t.apply input = some (.ok text) ∧ s.apply input = some (.ok text)

/-- The suggestions give a sorted set, and another order of them gives the same elements. -/
def CreatesCanonical (sortBy : (Suggestion τ → Suggestion τ → Ordering) →
    List (Suggestion τ) → Option (List (Suggestion τ))) (toLowercase : List Char → List Char)
    (input : List Char) (originals : List (Suggestion τ)) : Prop :=
  ∃ result, create sortBy toLowercase input originals = some (.ok result) ∧
    Canonical toLowercase input originals result ∧
    ∀ permuted, permuted.Perm originals → ∃ result',
      create sortBy toLowercase input permuted = some (.ok result') ∧
      result'.range = result.range ∧ ∀ t, t ∈ result'.list ↔ t ∈ result.list

/-- No text stands between two integers over the whole range that the texts put the other way
round. -/
def Straight (toLowercase : List Char → List Char) (input : List Char)
    (originals : List (Suggestion τ)) : Prop :=
  ∀ range, Spans range originals → ∀ small ∈ originals, ∀ large ∈ originals,
    ∀ other ∈ originals, ∀ v w, small.range = range → small.integer = some v →
    large.range = range → large.integer = some w → v < w →
    (other.range = range → other.integer = none) →
    ¬ (toLowercase large.text ≤ toLowercase (other.widened input range) ∧
      toLowercase (other.widened input range) ≤ toLowercase small.text)

variable {expanded : List (Suggestion τ)}

omit [DecidableEq τ] in
theorem expand_self {s : Suggestion τ} (h : s.range = range) :
    s.expand input range = some (.ok s) := by
  rw [expand, h, if_neg (by omega), if_pos rfl]

omit [DecidableEq τ] in
theorem integer_of_expand (hspans : Spans range originals) (hvalid : ValidRanges input originals)
    {s t : Suggestion τ} (hs : s ∈ originals) (h : s.expand input range = some (.ok t)) {v : ℤ}
    (hv : t.integer = some v) : s.range = range ∧ t = s := by
  obtain ⟨t', _, hexpand, -, -, hinteger, -⟩ := hspans.expand hvalid hs
  obtain rfl : t' = t := Except.ok.inj (Option.some.inj (hexpand.symm.trans h))
  rw [hv] at hinteger
  split at hinteger
  case isTrue hrange =>
    rw [expand_self hrange] at h
    exact ⟨hrange, (Except.ok.inj (Option.some.inj h)).symm⟩
  case isFalse => simp at hinteger

omit [DecidableEq τ] in
/-- The widened suggestions are in a total preorder exactly if none are crossed. -/
theorem totalPreorderOn_iff_straight (hspans : Spans range originals)
    (hvalid : ValidRanges input originals)
    (hmem : ∀ t, t ∈ expanded ↔ ∃ s ∈ originals, s.expand input range = some (.ok t)) :
    TotalPreorderOn (Suggestion.compareIgnoreCase toLowercase) expanded ↔
      Straight toLowercase input originals := by
  rw [Suggestion.totalPreorderOn_iff]
  constructor
  · rintro h range' hspans' small hsmall large hlarge other hother v w hsrange hv hlrange hw hlt
      htext ⟨habove, hbelow⟩
    obtain rfl := hspans.unique hspans'
    obtain ⟨t, _, hexpand, -, hwidened, hinteger, -⟩ := hspans.expand hvalid hother
    have hnone : t.integer = none := by
      rw [hinteger]
      split
      case isTrue hrange => exact htext hrange
      case isFalse => rfl
    rw [← hwidened] at habove hbelow
    exact h small ((hmem small).mpr ⟨small, hsmall, expand_self hsrange⟩)
      large ((hmem large).mpr ⟨large, hlarge, expand_self hlrange⟩)
      t ((hmem t).mpr ⟨other, hother, hexpand⟩) ⟨⟨v, w, hv, hw, hlt⟩, hnone, habove, hbelow⟩
  · rintro h small hsmall large hlarge t ht ⟨⟨v, w, hv, hw, hlt⟩, hnone, habove, hbelow⟩
    obtain ⟨s, hs, hexpand⟩ := (hmem small).mp hsmall
    obtain ⟨l, hl, hexpand'⟩ := (hmem large).mp hlarge
    obtain ⟨other, hother, hexpand''⟩ := (hmem t).mp ht
    obtain ⟨hsrange, rfl⟩ := integer_of_expand hspans hvalid hs hexpand hv
    obtain ⟨hlrange, rfl⟩ := integer_of_expand hspans hvalid hl hexpand' hw
    obtain ⟨t', _, hwiden, -, hwidened, -⟩ := hspans.expand hvalid hother
    obtain rfl : t' = t := Except.ok.inj (Option.some.inj (hwiden.symm.trans hexpand''))
    rw [hwidened] at habove hbelow
    refine h range hspans small hs large hl other hother v w hsrange hv hlrange hw hlt ?_
      ⟨habove, hbelow⟩
    intro hrange
    rw [expand_self hrange] at hexpand''
    rw [Except.ok.inj (Option.some.inj hexpand'')]
    exact hnone

variable {permuted : List (Suggestion τ)}

omit [DecidableEq τ] in
theorem Straight.perm (hperm : permuted.Perm originals)
    (h : Straight toLowercase input originals) : Straight toLowercase input permuted := by
  intro range hspans small hsmall large hlarge other hother
  exact h range (hspans.perm hperm.symm) small (hperm.mem_iff.mp hsmall) large
    (hperm.mem_iff.mp hlarge) other (hperm.mem_iff.mp hother)

theorem creates_of_straight {sortBy : (Suggestion τ → Suggestion τ → Ordering) →
    List (Suggestion τ) → Option (List (Suggestion τ))} (hsort : Sorts sortBy)
    (hvalid : ValidRanges input originals) (h : Straight toLowercase input originals) :
    ∃ result, create sortBy toLowercase input originals = some (.ok result) ∧
      Canonical toLowercase input originals result := by
  by_cases hne : originals = []
  · subst hne
    exact ⟨empty, rfl, List.nodup_nil, .nil, nofun, absurd rfl, fun t => by simp [empty], nofun⟩
  · obtain ⟨range, expanded, hspans, hnodup, hmem, hcreate⟩ := create_spec hne hvalid
    obtain ⟨sorted, hsorted, hpairwise⟩ :=
      hsort.sorted ((totalPreorderOn_iff_straight hspans hvalid hmem).mpr h)
    have hperm := hsort.perm hsorted
    have hmem' : ∀ t, t ∈ sorted ↔ ∃ s ∈ originals, s.expand input range = some (.ok t) :=
      fun t => hperm.mem_iff.trans (hmem t)
    refine ⟨⟨range, sorted⟩, by rw [hcreate, hsorted, Option.map_some], hperm.nodup_iff.mpr hnodup,
      hpairwise, ?_, fun _ => hspans, hmem', ?_⟩
    · intro t ht
      obtain ⟨s, hs, hexpand⟩ := (hmem' t).mp ht
      obtain ⟨t', _, hwiden, hrange, -⟩ := hspans.expand hvalid hs
      rwa [Except.ok.inj (Option.some.inj (hwiden.symm.trans hexpand))] at hrange
    · intro s hs
      obtain ⟨t, text, hexpand, -, -, -, hafter, hbefore⟩ := hspans.expand hvalid hs
      exact ⟨t, (hmem' t).mpr ⟨s, hs, hexpand⟩, text, hexpand, hafter, hbefore⟩

omit [DecidableEq τ] in
theorem Canonical.same_elements {result result' : Suggestions τ}
    (h : Canonical toLowercase input originals result)
    (h' : Canonical toLowercase input permuted result') (hperm : permuted.Perm originals)
    (hne : originals ≠ []) :
    result'.range = result.range ∧ ∀ t, t ∈ result'.list ↔ t ∈ result.list := by
  have hne' : permuted ≠ [] := fun hnil => hne (List.nil_perm.mp (hnil ▸ hperm))
  have hrange : result'.range = result.range :=
    ((h'.spans hne').perm hperm.symm).unique (h.spans hne)
  refine ⟨hrange, fun t => ?_⟩
  rw [h'.mem_iff, h.mem_iff, hrange]
  simp only [hperm.mem_iff]

/-- Suggestions with valid ranges give a sorted set with every sort exactly if no text stands
between two integers which the texts put the other way round. Merging more than one set creates it
from all suggestions. -/
theorem create_canonical_iff (toLowercase : List Char → List Char) (input : List Char)
    (originals : List (Suggestion τ)) (hvalid : ValidRanges input originals) :
    ((∀ sortBy, Sorts sortBy → CreatesCanonical sortBy toLowercase input originals) ↔
      Straight toLowercase input originals) ∧
    ∀ sortBy sets, sets.flatMap list = originals →
      merge sortBy toLowercase input sets = match sets with
        | [set] => some (.ok set)
        | _ => create sortBy toLowercase input originals := by
  refine ⟨?_, ?_⟩
  · constructor
    · intro h
      by_cases hne : originals = []
      · subst hne
        exact fun _ _ _ hsmall => absurd hsmall List.not_mem_nil
      · obtain ⟨range, expanded, hspans, -, hmem, hcreate⟩ := create_spec hne hvalid
        obtain ⟨result, hresult, -⟩ := h checkedSort sorts_checkedSort
        rw [hcreate, Option.map_eq_some_iff] at hresult
        obtain ⟨sorted, hsorted, -⟩ := hresult
        exact (totalPreorderOn_iff_straight hspans hvalid hmem).mp (checkedSort_isSome hsorted)
    · intro h sortBy hsort
      obtain ⟨result, hresult, hcanonical⟩ := creates_of_straight hsort hvalid h
      refine ⟨result, hresult, hcanonical, fun permuted hperm => ?_⟩
      have hvalid' : ValidRanges input permuted := fun s hs => hvalid s (hperm.mem_iff.mp hs)
      obtain ⟨result', hresult', hcanonical'⟩ :=
        creates_of_straight hsort hvalid' (h.perm hperm)
      by_cases hne : originals = []
      · subst hne
        obtain rfl := List.perm_nil.mp hperm
        exact ⟨result, hresult, rfl, fun _ => Iff.rfl⟩
      · exact ⟨result', hresult', hcanonical.same_elements hcanonical' hperm hne⟩
  · intro sortBy sets hsets
    subst hsets
    rcases sets with _ | ⟨first, _ | ⟨second, others⟩⟩ <;> rfl

/-- Lower-casing of texts with no letters beyond the Latin ones. -/
def lowerCharacters (text : List Char) : List Char := text.map Char.toLower

def mixed : List (Suggestion Unit) :=
  [.ofInteger (.atPosition 0) 2, .ofInteger (.atPosition 0) 10,
    .new (.atPosition 0) ['1', 'a']]

theorem spans_of_range_eq {originals : List (Suggestion Unit)} (hne : originals ≠ [])
    (h : ∀ s ∈ originals, s.range = range) : Spans range originals := by
  obtain ⟨s, hs⟩ := List.exists_mem_of_ne_nil originals hne
  refine ⟨fun s hs => ?_, fun s hs => ?_, ⟨s, hs, ?_⟩, ⟨s, hs, ?_⟩⟩ <;> rw [h s hs]

/-- Integers alone are not crossed. -/
theorem create_canonical_iff_integers :
    CreatesCanonical checkedSort lowerCharacters [] (mixed.take 2) := by
  have hvalid : ∀ s ∈ mixed.take 2, (s.range.byteRange []).isSome := by decide
  have hrange : ∀ s ∈ mixed.take 2, s.range = .atPosition 0 := by decide
  have hinteger : ∀ s ∈ mixed.take 2, s.integer ≠ none := by decide
  refine (create_canonical_iff lowerCharacters [] (mixed.take 2) hvalid).1.mpr ?_ checkedSort
    sorts_checkedSort
  intro range hspans small _ large _ other hother v w _ _ _ _ _ htext
  obtain rfl := hspans.unique (spans_of_range_eq (by decide) hrange)
  exact absurd (htext (hrange other hother)) (hinteger other hother)

/-- Whatever the sort, the integers 2 and 10 and the text 1a are not sorted. -/
theorem mixed_not_sorted : ¬ ∃ sortBy, Sorts sortBy ∧ ∃ result,
    create sortBy lowerCharacters [] mixed = some (.ok result) ∧
      result.list.Pairwise (compareIgnoreCase lowerCharacters · · ≠ .gt) := by
  rintro ⟨sortBy, hsort, result, hresult, hpairwise⟩
  have hvalid : ∀ s ∈ mixed, (s.range.byteRange []).isSome := by decide
  have hrange : ∀ s ∈ mixed, s.range = .atPosition 0 := by decide
  have habove : ∀ s ∈ mixed, ∃ t ∈ mixed, t ≠ s ∧
      compareIgnoreCase lowerCharacters s t = .gt := by decide
  obtain ⟨range, expanded, hspans, -, hmem, hcreate⟩ :=
    @create_spec Unit _ mixed [] lowerCharacters (by decide) hvalid
  obtain rfl := hspans.unique (spans_of_range_eq (by decide) hrange)
  rw [hcreate, Option.map_eq_some_iff] at hresult
  obtain ⟨sorted, hsorted, heq⟩ := hresult
  obtain rfl := Except.ok.inj heq
  have hsame : ∀ t, t ∈ sorted ↔ t ∈ mixed := by
    intro t
    rw [(hsort.perm hsorted).mem_iff, hmem]
    constructor
    · rintro ⟨s, hs, hexpand⟩
      rw [expand_self (hrange s hs)] at hexpand
      rwa [← Except.ok.inj (Option.some.inj hexpand)]
    · exact fun ht => ⟨t, ht, expand_self (hrange t ht)⟩
  cases sorted with
  | nil => exact absurd ((hsame _).mpr mem_cons_self) List.not_mem_nil
  | cons first others =>
    obtain ⟨t, ht, hne, hgt⟩ := habove first ((hsame first).mp mem_cons_self)
    have hother := (List.mem_cons.mp ((hsame t).mpr ht)).resolve_left hne
    exact (List.pairwise_cons.mp hpairwise).1 t hother hgt

end Suggestions

end Steel
