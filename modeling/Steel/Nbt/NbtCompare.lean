import Mathlib.Data.List.Nodup
import Mathlib.Data.Nat.Basic
import Steel.Nbt.NbtTag

/-! # Partial matching of NBT values

A value matches another one partially if it asks for no more than the other one has. Values are
ordered by it, and equal values match each other.
-/

namespace Steel

open List Bool Nat

namespace NbtTag

variable {tag actual value part y : NbtTag} {values : List NbtTag} {entries : NbtCompound}
  {kind : NbtKind}

theorem sizeOf_lt_of_mem_listValues (h : tag ∈ listValues values) : sizeOf tag < sizeOf values := by
  obtain ⟨value, hvalue, rfl⟩ := mem_map.1 h
  exact lt_of_le_of_lt value.sizeOf_unwrapListWrapper_le (sizeOf_lt_of_mem hvalue)

variable {entry : Mutf8String × NbtTag}

theorem sizeOf_lt_of_mem_entries (h : entry ∈ entries) :
    sizeOf entry.2 < sizeOf entries := by
  have hmem := sizeOf_lt_of_mem h
  obtain ⟨key, value⟩ := entry
  simp at hmem ⊢
  omega

mutual

def compareNbt (expected actual : Option NbtTag) (partialListMatches : Bool) : Bool :=
  match expected, actual with
  | none, _ => true
  | some _, none => false
  | some (.compound expected), some (.compound actual) =>
    if partialListMatches then compareNbtCompounds expected actual partialListMatches
    else equal (.compound expected) (.compound actual)
  | some (.list kind expected), some (.list kind' actual) =>
    if partialListMatches then compareListsPartially expected actual
    else equal (.list kind expected) (.list kind' actual)
  | some expected, some actual => equal expected actual
termination_by sizeOf expected

def compareNbtCompounds (expected actual : NbtCompound) (partialListMatches : Bool) : Bool :=
  if actual.length < expected.length then false
  else expected.attach.all fun entry =>
    compareNbt (some entry.1.2) (NbtCompound.get actual entry.1.1.shownText) partialListMatches
termination_by sizeOf expected + 1
decreasing_by
  have := sizeOf_lt_of_mem_entries entry.2
  simp
  omega

def compareListsPartially (expected actual : List NbtTag) : Bool :=
  if (listValues expected).isEmpty then (listValues actual).isEmpty
  else if (listValues actual).length < (listValues expected).length then false
  else (listValues expected).attach.all fun value =>
    (listValues actual).any fun other => compareNbt (some value.1) (some other) true
termination_by sizeOf expected + 1
decreasing_by
  have := sizeOf_lt_of_mem_listValues value.2
  simp
  omega

end

def IsLeaf (tag : NbtTag) : Prop :=
  (∀ kind values, tag ≠ .list kind values) ∧ ∀ entries, tag ≠ .compound entries

theorem inductionOnValues {P : NbtTag → Prop} (leaf : ∀ tag, IsLeaf tag → P tag)
    (list : ∀ kind values, (∀ value ∈ listValues values, P value) → P (.list kind values))
    (compound : ∀ entries, (∀ entry ∈ entries, P entry.2) → P (.compound entries))
    (tag : NbtTag) : P tag := by
  match tag with
  | .list kind values =>
    exact list kind values fun value _ => inductionOnValues leaf list compound value
  | .compound entries =>
    exact compound entries fun entry _ => inductionOnValues leaf list compound entry.2
  | .byte _ | .short _ | .int _ | .long _ | .float _ | .double _ | .byteArray _ | .string _
  | .intArray _ | .longArray _ => exact leaf _ ⟨nofun, nofun⟩
termination_by sizeOf tag
decreasing_by
  · exact sizeOf_listValues ‹_›
  · exact sizeOf_entries ‹_›

theorem all_attach {α : Type} {l : List α} {f : {a // a ∈ l} → Bool} {g : α → Bool}
    (h : ∀ a ha, f ⟨a, ha⟩ = g a) : l.attach.all f = l.all g := by
  rw [Bool.eq_iff_iff, all_eq_true, all_eq_true]
  constructor
  · exact fun hall a ha => h a ha ▸ hall ⟨a, ha⟩ (mem_attach l _)
  · exact fun hall a _ => (h a.1 a.2).trans (hall a.1 a.2)

theorem all_zip_attach {α β : Type} {l : List α} {l' : List β} {f : {a // a ∈ l} × β → Bool}
    {g : α → β → Bool} (h : ∀ a ha b, f (⟨a, ha⟩, b) = g a b) :
    (l.length = l'.length ∧ ∀ p ∈ l.attach.zip l', f p = true) ↔
      List.Forall₂ (fun a b => g a b = true) l l' := by
  rw [forall₂_iff_zip]
  refine and_congr_right fun hlen => ?_
  have hzip : l.zip l' = (l.attach.zip l').map fun p => (p.1.1, p.2) := by
    conv_lhs => rw [← attach_map_subtype_val l]
    rw [zip_map_left]
    rfl
  rw [hzip]
  constructor
  · intro hall a b hab
    obtain ⟨⟨⟨a', ha'⟩, b'⟩, hmem, heq⟩ := mem_map.1 hab
    obtain ⟨rfl, rfl⟩ := Prod.mk.inj heq
    exact (h _ ha' _).symm.trans (hall _ hmem)
  · rintro hall ⟨⟨a, ha⟩, b⟩ hmem
    rw [h]
    exact hall (mem_map.2 ⟨_, hmem, rfl⟩)

theorem exists_mem_of_forall₂ {α β : Type} {R : α → β → Prop} {l : List α} {l' : List β}
    (h : List.Forall₂ R l l') {a : α} (ha : a ∈ l) : ∃ b ∈ l', R a b := by
  induction h with
  | nil => cases ha
  | cons hab _ ih =>
    rcases mem_cons.1 ha with rfl | ha
    · exact ⟨_, mem_cons_self, hab⟩
    · obtain ⟨b, hb, hr⟩ := ih ha
      exact ⟨b, mem_cons_of_mem _ hb, hr⟩

theorem equal_list {kind' : NbtKind} {left right : List NbtTag} :
    equal (.list kind left) (.list kind' right) = true ↔
      List.Forall₂ (fun a b => equal a b = true) (listValues left) (listValues right) := by
  rw [equal, and_eq_true, decide_eq_true_eq, all_eq_true]
  exact all_zip_attach fun _ _ _ => rfl

theorem equal_compound {left right : NbtCompound} :
    equal (.compound left) (.compound right) = true ↔ left.length = right.length ∧ ∀ entry ∈ left,
        ∃ value, NbtCompound.get right entry.1.shownText = some value ∧
          equal entry.2 value = true := by
  rw [equal, and_eq_true, decide_eq_true_eq, all_eq_true]
  refine and_congr_right fun _ => ?_
  constructor
  · intro hall entry hentry
    have hone := hall ⟨entry, hentry⟩ (mem_attach _ _)
    dsimp only at hone
    split at hone
    · rename_i value hget
      exact ⟨value, hget, hone⟩
    · cases hone
  · rintro hall ⟨entry, hentry⟩ -
    obtain ⟨value, hget, hequal⟩ := hall entry hentry
    simp only [hget, hequal]

theorem equal_of_isLeaf {left right : NbtTag} (h : IsLeaf left) (hequal : equal left right = true) :
    IsLeaf right := by
  constructor
  · rintro kind values rfl
    cases left <;> simp_all [equal, IsLeaf]
  · rintro entries rfl
    cases left <;> simp_all [equal, IsLeaf]

theorem matchesPartially_compound {expected actual : NbtCompound} :
    matchesPartially (.compound expected) (.compound actual) = true ↔
      expected.length ≤ actual.length ∧ ∀ entry ∈ expected,
        ∃ value, NbtCompound.get actual entry.1.shownText = some value ∧
          matchesPartially entry.2 value = true := by
  rw [matchesPartially, and_eq_true, not_eq_true', decide_eq_false_iff_not, not_lt,
    all_eq_true]
  refine and_congr_right fun _ => ?_
  constructor
  · intro hall entry hentry
    have hone := hall ⟨entry, hentry⟩ (mem_attach _ _)
    dsimp only at hone
    split at hone
    · rename_i value hget
      exact ⟨value, hget, hone⟩
    · cases hone
  · rintro hall ⟨entry, hentry⟩ -
    obtain ⟨value, hget, hmatch⟩ := hall entry hentry
    simp only [hget, hmatch]

theorem matchesPartially_list {kind' : NbtKind} {expected actual : List NbtTag} :
    matchesPartially (.list kind expected) (.list kind' actual) = true ↔
      (listValues expected = [] → listValues actual = []) ∧
      (listValues expected).length ≤ (listValues actual).length ∧
      ∀ value ∈ listValues expected, ∃ other ∈ listValues actual,
        matchesPartially value other = true := by
  rw [matchesPartially]
  by_cases hnil : listValues expected = []
  · simp [hnil]
  · rw [if_neg (by simpa using hnil)]
    by_cases hlt : (listValues actual).length < (listValues expected).length
    · simp only [hlt, if_true, false_eq_true, false_iff]
      exact fun hall => absurd hall.2.1 (not_le.2 hlt)
    · have hle := not_lt.1 hlt
      rw [if_neg hlt, all_attach (g := fun value =>
        (listValues actual).any fun other => matchesPartially value other) fun _ _ => rfl]
      simp [hnil, hle]

theorem matchesPartially_of_isLeaf {expected : NbtTag} (h : IsLeaf expected) :
    matchesPartially expected actual = equal expected actual := by
  cases expected with
  | list kind values => exact absurd rfl (h.1 kind values)
  | compound entries => exact absurd rfl (h.2 entries)
  | _ => rw [matchesPartially] <;> simp

theorem exists_of_matchesPartially_list (h : matchesPartially (.list kind values) actual = true) :
    ∃ kind' values', actual = .list kind' values' := by
  cases actual with
  | list kind' values' => exact ⟨kind', values', rfl⟩
  | _ => simp [matchesPartially, equal] at h

theorem exists_of_matchesPartially_compound
    (h : matchesPartially (.compound entries) actual = true) :
    ∃ entries', actual = .compound entries' := by
  cases actual with
  | compound entries' => exact ⟨entries', rfl⟩
  | _ => simp [matchesPartially, equal] at h

theorem compareNbtCompounds_eq_true {expected actual : NbtCompound} {partialListMatches : Bool} :
    compareNbtCompounds expected actual partialListMatches = true ↔
      expected.length ≤ actual.length ∧ ∀ entry ∈ expected,
        compareNbt (some entry.2) (NbtCompound.get actual entry.1.shownText) partialListMatches =
          true := by
  rw [compareNbtCompounds]
  by_cases hlt : actual.length < expected.length
  · simp only [hlt, if_true, false_eq_true, false_iff]
    exact fun hall => absurd hall.1 (not_le.2 hlt)
  · have hle := not_lt.1 hlt
    rw [if_neg hlt, all_attach (g := fun entry => compareNbt (some entry.2)
      (NbtCompound.get actual entry.1.shownText) partialListMatches) fun _ _ => rfl]
    simp [hle]

theorem compareNbt_none (expected : NbtTag) (partialListMatches : Bool) :
    compareNbt (some expected) none partialListMatches = false := by
  rw [compareNbt]

theorem compareNbt_true (expected : NbtTag) :
    ∀ actual, compareNbt (some expected) (some actual) true = matchesPartially expected actual := by
  induction expected using inductionOnValues with
  | leaf tag h =>
    intro actual
    rw [matchesPartially_of_isLeaf h]
    cases tag with
    | list kind values => exact absurd rfl (h.1 kind values)
    | compound entries => exact absurd rfl (h.2 entries)
    | _ => rw [compareNbt] <;> simp
  | list kind values ih =>
    intro actual
    cases actual with
    | list kind' values' =>
      rw [compareNbt, if_pos rfl, compareListsPartially, matchesPartially]
      congr 2
      refine all_congr rfl fun value => ?_
      refine any_congr rfl fun other => ?_
      exact ih value.1 value.2 other
    | _ => rw [compareNbt, matchesPartially] <;> simp
  | compound entries ih =>
    intro actual
    cases actual with
    | compound entries' =>
      rw [compareNbt, if_pos rfl, Bool.eq_iff_iff, compareNbtCompounds_eq_true,
        matchesPartially_compound]
      refine and_congr_right fun _ => forall₂_congr fun entry hentry => ?_
      cases hget : NbtCompound.get entries' entry.1.shownText with
      | none => simp [compareNbt_none]
      | some value => simp [ih entry hentry]
    | _ => rw [compareNbt, matchesPartially] <;> simp

theorem compareNbt_false (expected actual : NbtTag) :
    compareNbt (some expected) (some actual) false = equal expected actual := by
  cases expected <;> cases actual <;> rw [compareNbt] <;> simp

theorem mem_of_get {name : List Char} (h : NbtCompound.get entries name = some value) :
    (.text name, value) ∈ entries := by
  obtain ⟨⟨key, value'⟩, hfind, rfl⟩ := Option.map_eq_some_iff.1 h
  have hkey : key = .text name := by simpa using List.find?_some hfind
  rw [← hkey]
  exact List.mem_of_find?_eq_some hfind

theorem get_of_mem {name : List Char} (hnodup : (entries.map Prod.fst).Nodup)
    (hmem : (.text name, value) ∈ entries) : NbtCompound.get entries name = some value := by
  have hsome : (NbtCompound.get entries name).isSome := by
    rw [NbtCompound.get, Option.isSome_map, List.find?_isSome]
    exact ⟨_, hmem, by simp⟩
  obtain ⟨value', hget⟩ := Option.isSome_iff_exists.1 hsome
  have heq := inj_on_of_nodup_map hnodup (mem_of_get hget) hmem rfl
  rw [hget, (Prod.mk.inj heq).2]

/-- What a value contains, and the value itself. -/
inductive Part : NbtTag → NbtTag → Prop where
  | refl (tag : NbtTag) : Part tag tag
  | list {part value : NbtTag} (kind : NbtKind) {values : List NbtTag} (hmem : value ∈ values)
      (h : Part part value) : Part part (.list kind values)
  | compound {part : NbtTag} {entry : Mutf8String × NbtTag} {entries : NbtCompound}
      (hmem : entry ∈ entries) (h : Part part entry.2) : Part part (.compound entries)

theorem part_list_iff : Part part (.list kind values) ↔
      part = .list kind values ∨ ∃ value ∈ values, Part part value := by
  constructor
  · rintro (_ | ⟨_, hmem, h⟩)
    · exact .inl rfl
    · exact .inr ⟨_, hmem, h⟩
  · rintro (rfl | ⟨value, hmem, h⟩)
    · exact .refl _
    · exact .list kind hmem h

theorem part_compound_iff : Part part (.compound entries) ↔
      part = .compound entries ∨ ∃ entry ∈ entries, Part part entry.2 := by
  constructor
  · rintro (_ | _ | ⟨hmem, h⟩)
    · exact .inl rfl
    · exact .inr ⟨_, hmem, h⟩
  · rintro (rfl | ⟨entry, hmem, h⟩)
    · exact .refl _
    · exact .compound hmem h

theorem part_iff_of_isLeaf (hleaf : IsLeaf tag) : Part part tag ↔ part = tag := by
  constructor
  · intro h
    cases h with
    | refl => rfl
    | list kind hmem h => exact absurd rfl (hleaf.1 _ _)
    | compound hmem h => exact absurd rfl (hleaf.2 _)
  · rintro rfl
    exact .refl _

theorem Part.of_unwrapListWrapper (h : Part part tag.unwrapListWrapper) : Part part tag := by
  unfold unwrapListWrapper at h
  split at h
  · exact .compound mem_cons_self h
  · exact h

theorem Part.of_mem_listValues (hmem : value ∈ listValues values) (h : Part part value) :
    Part part (.list kind values) := by
  obtain ⟨value', hvalue', rfl⟩ := mem_map.1 hmem
  exact .list kind hvalue' h.of_unwrapListWrapper

def DistinctKeys (tag : NbtTag) : Prop :=
  ∀ entries, Part (.compound entries) tag → (entries.map Prod.fst).Nodup

/-- All compounds in a value have distinct keys, which are text. -/
def WellKeyed (tag : NbtTag) : Prop :=
  ∀ entries, Part (.compound entries) tag →
    (∀ entry ∈ entries, entry.1 = .text entry.1.shownText) ∧ (entries.map Prod.fst).Nodup

theorem WellKeyed.of_mem_listValues (h : WellKeyed (.list kind values))
    (hmem : value ∈ listValues values) : WellKeyed value :=
  fun entries hpart => h entries (hpart.of_mem_listValues hmem)

theorem WellKeyed.of_mem_entries (h : WellKeyed (.compound entries))
    (hmem : entry ∈ entries) : WellKeyed entry.2 :=
  fun entries hpart => h entries (.compound hmem hpart)

theorem equal_refl_of_isLeaf (h : IsLeaf tag) : equal tag tag = true := by
  cases tag with
  | list kind values => exact absurd rfl (h.1 kind values)
  | compound entries => exact absurd rfl (h.2 entries)
  | _ => simp [equal]

theorem eq_of_equal_of_isLeaf {x : NbtTag} (h : IsLeaf x) (hfloat : ∀ bits, x ≠ .float bits)
    (hdouble : ∀ bits, x ≠ .double bits) (hequal : equal x y = true) : x = y := by
  cases x with
  | list kind values => exact absurd rfl (h.1 kind values)
  | compound entries => exact absurd rfl (h.2 entries)
  | float bits => exact absurd rfl (hfloat bits)
  | double bits => exact absurd rfl (hdouble bits)
  | _ => cases y <;> simp_all [equal]

theorem exists_of_equal_float {bits : UInt32} (h : equal (.float bits) y = true) :
    ∃ bits', y = .float bits' := by
  cases y <;> simp_all [equal]

theorem exists_of_equal_double {bits : UInt64} (h : equal (.double bits) y = true) :
    ∃ bits', y = .double bits' := by
  cases y <;> simp_all [equal]

theorem equal_trans_of_isLeaf {x z : NbtTag} (h : IsLeaf x) (hxy : equal x y = true)
    (hyz : equal y z = true) : equal x z = true := by
  by_cases hfloat : ∃ bits, x = .float bits
  · obtain ⟨bits, rfl⟩ := hfloat
    obtain ⟨bits', rfl⟩ := exists_of_equal_float hxy
    obtain ⟨bits'', rfl⟩ := exists_of_equal_float hyz
    simp only [equal] at hxy hyz ⊢
    grind
  · by_cases hdouble : ∃ bits, x = .double bits
    · obtain ⟨bits, rfl⟩ := hdouble
      obtain ⟨bits', rfl⟩ := exists_of_equal_double hxy
      obtain ⟨bits'', rfl⟩ := exists_of_equal_double hyz
      simp only [equal] at hxy hyz ⊢
      grind
    · rw [not_exists] at hfloat hdouble
      rwa [eq_of_equal_of_isLeaf h hfloat hdouble hxy]

theorem matchesPartially_refl (tag : NbtTag) (h : WellKeyed tag) :
    matchesPartially tag tag = true := by
  induction tag using inductionOnValues with
  | leaf tag hleaf => rw [matchesPartially_of_isLeaf hleaf, equal_refl_of_isLeaf hleaf]
  | list kind values ih =>
    rw [matchesPartially_list]
    refine ⟨id, le_rfl, fun value hvalue => ⟨value, hvalue, ?_⟩⟩
    exact ih value hvalue (h.of_mem_listValues hvalue)
  | compound entries ih =>
    obtain ⟨htext, hnodup⟩ := h entries (.refl _)
    rw [matchesPartially_compound]
    refine ⟨le_rfl, fun entry hentry => ⟨entry.2, ?_, ?_⟩⟩
    · refine get_of_mem hnodup ?_
      rw [← htext entry hentry]
      exact hentry
    · exact ih entry hentry (h.of_mem_entries hentry)

theorem matchesPartially_trans (x : NbtTag) : ∀ {y z : NbtTag},
    matchesPartially x y = true → matchesPartially y z = true → matchesPartially x z = true := by
  induction x using inductionOnValues with
  | leaf x hleaf =>
    intro y z hxy hyz
    rw [matchesPartially_of_isLeaf hleaf] at hxy ⊢
    rw [matchesPartially_of_isLeaf (equal_of_isLeaf hleaf hxy)] at hyz
    exact equal_trans_of_isLeaf hleaf hxy hyz
  | list kind values ih =>
    intro y z hxy hyz
    obtain ⟨kind', values', rfl⟩ := exists_of_matchesPartially_list hxy
    obtain ⟨kind'', values'', rfl⟩ := exists_of_matchesPartially_list hyz
    rw [matchesPartially_list] at hxy hyz ⊢
    obtain ⟨hnil, hlen, hall⟩ := hxy
    obtain ⟨hnil', hlen', hall'⟩ := hyz
    refine ⟨fun h => hnil' (hnil h), le_trans hlen hlen', fun value hvalue => ?_⟩
    obtain ⟨other, hother, hmatch⟩ := hall value hvalue
    obtain ⟨third, hthird, hmatch'⟩ := hall' other hother
    exact ⟨third, hthird, ih value hvalue hmatch hmatch'⟩
  | compound entries ih =>
    intro y z hxy hyz
    obtain ⟨entries', rfl⟩ := exists_of_matchesPartially_compound hxy
    obtain ⟨entries'', rfl⟩ := exists_of_matchesPartially_compound hyz
    rw [matchesPartially_compound] at hxy hyz ⊢
    obtain ⟨hlen, hall⟩ := hxy
    obtain ⟨hlen', hall'⟩ := hyz
    refine ⟨le_trans hlen hlen', fun entry hentry => ?_⟩
    obtain ⟨value, hget, hmatch⟩ := hall entry hentry
    obtain ⟨value', hget', hmatch'⟩ := hall' _ (mem_of_get hget)
    exact ⟨value', hget', ih entry hentry hmatch hmatch'⟩

theorem matchesPartially_of_equal (x : NbtTag) : ∀ {y : NbtTag},
    equal x y = true → matchesPartially x y = true := by
  induction x using inductionOnValues with
  | leaf x hleaf =>
    intro y hxy
    rwa [matchesPartially_of_isLeaf hleaf]
  | list kind values ih =>
    intro y hxy
    cases y with
    | list kind' values' =>
      rw [equal_list] at hxy
      rw [matchesPartially_list]
      refine ⟨fun hnil => ?_, le_of_eq hxy.length_eq, fun value hvalue => ?_⟩
      · rw [hnil] at hxy
        exact forall₂_nil_left_iff.1 hxy
      · obtain ⟨other, hother, hequal⟩ := exists_mem_of_forall₂ hxy hvalue
        exact ⟨other, hother, ih value hvalue hequal⟩
    | _ => simp [equal] at hxy
  | compound entries ih =>
    intro y hxy
    cases y with
    | compound entries' =>
      rw [equal_compound] at hxy
      obtain ⟨hlen, hall⟩ := hxy
      rw [matchesPartially_compound]
      refine ⟨le_of_eq hlen, fun entry hentry => ?_⟩
      obtain ⟨value, hget, hequal⟩ := hall entry hentry
      exact ⟨value, hget, ih entry hentry hequal⟩
    | _ => simp [equal] at hxy

/-- Partial matching is a preorder above equality, and the two ways to match compounds differ only
in that exact matching counts the entries. -/
theorem compareNbt_preorder : (∀ x, WellKeyed x → compareNbt (some x) (some x) true = true) ∧
    (∀ a b c, compareNbt (some a) (some b) true = true → compareNbt (some b) (some c) true = true →
      compareNbt (some a) (some c) true = true) ∧
    (∀ a b, equal a b = true → compareNbt (some a) (some b) true = true) ∧
    ∀ a b : NbtCompound,
      compareNbt (some (.compound a)) (some (.compound b)) true = compareNbtCompounds a b true ∧
      compareNbt (some (.compound a)) (some (.compound b)) false =
        (decide (a.length = b.length) && compareNbtCompounds a b false) := by
  simp only [compareNbt_true]
  refine ⟨matchesPartially_refl, fun a b c => matchesPartially_trans a,
    fun a b => matchesPartially_of_equal a, fun a b => ⟨?_, ?_⟩⟩
  · rw [← compareNbt_true, compareNbt, if_pos rfl]
  · rw [compareNbt_false, Bool.eq_iff_iff, Bool.and_eq_true, decide_eq_true_eq, equal_compound,
      compareNbtCompounds_eq_true]
    refine and_congr_right fun hlen => ?_
    rw [and_iff_right (le_of_eq hlen)]
    refine forall₂_congr fun entry _ => ?_
    cases NbtCompound.get b entry.1.shownText with
    | none => simp [compareNbt_none]
    | some value => simp [compareNbt_false]

/-- A value whose key is malformed does not match itself, since keys are looked up by their text. -/
def malformedKey : NbtTag := .compound [(.malformed [0xff] [], .byte 1)]

theorem not_compareNbt_preorder :
    (DistinctKeys malformedKey ∧ compareNbt (some malformedKey) (some malformedKey) true = false) ∧
    compareNbt (some (.compound [])) (some (.compound [(.text ['a'], .byte 1)])) false ≠
      compareNbtCompounds [] [(.text ['a'], .byte 1)] false := by
  refine ⟨⟨?_, ?_⟩, ?_⟩
  · intro entries hpart
    have hleaf : IsLeaf (.byte 1) := ⟨nofun, nofun⟩
    simp [malformedKey, part_compound_iff, part_iff_of_isLeaf hleaf] at hpart
    simp [hpart]
  · simp [compareNbt_true, malformedKey, matchesPartially, NbtCompound.get]
  · simp [compareNbt_false, equal, compareNbtCompounds]

end NbtTag

end Steel
