import Mathlib.Data.List.Perm.Subperm
import Steel.Registry.BlockRegistry

/-! # Reading and changing the properties of a state

The calls of the registry are those of mixed radix numbers: reading a state writes its offset in
digits, finding a state takes the value of the digits, and setting a property sets one digit.
-/

namespace Steel

open MixedRadix List Block Option Nat

/-- The name of a value, as `set_property` looks it up. -/
def TypedProperty.nameOf {V : Type} (typed : TypedProperty V) (x : V) :
    Except BlockPanic String := do
  let index ← typed.getInternalIndex x
  typed.valueNameFromIndex index

theorem findIdx?_of_nodup {α β : Type*} [DecidableEq β] {f : α → β} {l : List α} {i : ℕ} {a : α}
    (hnodup : (l.map f).Nodup) (h : l[i]? = some a) :
    l.findIdx? (fun b => f b == f a) = some i := by
  obtain ⟨hi, rfl⟩ := List.getElem?_eq_some_iff.1 h
  rw [List.findIdx?_eq_some_iff_getElem]
  refine ⟨hi, beq_self_eq_true _, fun j hj hbeq => ?_⟩
  have hlt : j < l.length := hj.trans hi
  have hlength : j < (l.map f).length := by rwa [length_map]
  have heq : (l.map f)[j]? = (l.map f)[i]? := by
    rw [List.getElem?_map, List.getElem?_map, List.getElem?_eq_getElem hlt,
      List.getElem?_eq_getElem hi]
    exact congrArg some (eq_of_beq hbeq)
  exact Nat.ne_of_lt hj ((List.getElem?_inj hlength hnodup).1 heq)

section Assignments

variable {block : Block} {ds : List ℕ} {k j : ℕ} {property : Property}

theorem Block.WellFormed.propertyIndex (h : block.WellFormed)
    (hproperty : block.properties[k]? = some property) :
    block.propertyIndex property.name = some k :=
  findIdx?_of_nodup h.names hproperty

theorem Block.WellFormed.valueIndex (h : block.WellFormed)
    (hproperty : block.properties[k]? = some property) {value : String}
    (hvalue : property.valueNames[j]? = some value) : property.valueIndex value = some j := by
  have hnodup := h.values property (mem_of_getElem? hproperty)
  rw [← map_id property.valueNames] at hnodup
  exact findIdx?_of_nodup hnodup hvalue

/-- The names of the properties and of the values that these indices stand for. -/
def Block.assign (block : Block) (indices : List ℕ) : List (String × String) :=
  (indices.zip block.properties).map fun (index, property) =>
    (property.name, property.valueNames.getD index "")

theorem Block.getElem?_assign (hindex : ds[k]? = some j)
    (hproperty : block.properties[k]? = some property) :
    (block.assign ds)[k]? = some (property.name, property.valueNames.getD j "") := by
  have hzip : (ds.zip block.properties)[k]? = some (j, property) :=
    List.getElem?_zip_eq_some.2 ⟨hindex, hproperty⟩
  rw [assign, List.getElem?_map, hzip]
  rfl

theorem Block.length_assign (h : ds.length = block.properties.length) :
    (block.assign ds).length = block.properties.length := by
  rw [assign, length_map, length_zip, h, min_self]

theorem length_of_digits (h : List.Forall₂ (· < ·) ds (radicesOf block.properties)) :
    ds.length = block.properties.length := by
  rw [h.length_eq, radicesOf, length_map]

theorem Block.map_fst_assign (h : ds.length = block.properties.length) :
    (block.assign ds).map Prod.fst = block.properties.map Property.name := by
  apply ext_getElem?
  intro i
  by_cases hi : i < block.properties.length
  · rw [List.getElem?_map, List.getElem?_map, getElem?_assign
      (List.getElem?_eq_getElem (h ▸ hi)) (List.getElem?_eq_getElem hi),
      List.getElem?_eq_getElem hi]
    rfl
  · rw [List.getElem?_eq_none, List.getElem?_eq_none]
    · rw [length_map]
      exact not_lt.1 hi
    · rw [length_map, length_assign h]
      exact not_lt.1 hi

theorem exists_digit (h : List.Forall₂ (· < ·) ds (radicesOf block.properties))
    (hproperty : block.properties[k]? = some property) :
    ∃ digit value, ds[k]? = some digit ∧ property.valueNames[digit]? = some value ∧
      (block.assign ds)[k]? = some (property.name, value) := by
  obtain ⟨hk, -⟩ := List.getElem?_eq_some_iff.1 hproperty
  have hlength : k < ds.length := length_of_digits h ▸ hk
  have hdigit := List.getElem?_eq_getElem hlength
  have hradix : (radicesOf block.properties)[k]? = some property.valueCount := by
    rw [radicesOf, List.getElem?_map, hproperty]
    rfl
  have hlt : ds[k] < property.valueCount := by
    obtain ⟨hk', heq⟩ := List.getElem?_eq_some_iff.1 hradix
    exact heq ▸ (forall₂_iff_get.1 h).2 k hlength hk'
  have hvalue := List.getElem?_eq_getElem hlt
  refine ⟨_, _, hdigit, hvalue, ?_⟩
  rw [getElem?_assign hdigit hproperty, getD_eq_getElem?_getD, hvalue]
  rfl

theorem Block.mem_assign (h : List.Forall₂ (· < ·) ds (radicesOf block.properties))
    {entry : String × String} (hmem : entry ∈ block.assign ds) :
    ∃ (k : ℕ) (property : Property) (digit : ℕ), block.properties[k]? = some property ∧
      entry.1 = property.name ∧ ds[k]? = some digit ∧
      property.valueNames[digit]? = some entry.2 := by
  obtain ⟨k, hk⟩ := mem_iff_getElem?.1 hmem
  have hlt : k < block.properties.length := by
    rw [← length_assign (length_of_digits h)]
    exact (List.getElem?_eq_some_iff.1 hk).1
  have hproperty := List.getElem?_eq_getElem hlt
  obtain ⟨digit, value, hdigit, hvalue, hentry⟩ := exists_digit h hproperty
  obtain rfl := Option.some.inj (hk.symm.trans hentry)
  exact ⟨k, _, digit, hproperty, rfl, hdigit, hvalue⟩

namespace BlockRegistry

section

variable (hblock : block.WellFormed) (hds : List.Forall₂ (· < ·) ds (radicesOf block.properties))

include hblock hds

theorem applyPropertyOverrides_of_subset {l : List (String × String)}
    (hl : ∀ entry ∈ l, entry ∈ block.assign ds) {indices : List ℕ}
    (hlength : indices.length = block.properties.length) :
    ∃ result, applyPropertyOverrides block indices l = some result ∧
      result.length = block.properties.length ∧
      ∀ (i : ℕ) (property : Property), block.properties[i]? = some property →
        result[i]? = if property.name ∈ l.map Prod.fst then ds[i]? else indices[i]? := by
  induction l generalizing indices with
  | nil => exact ⟨indices, rfl, hlength, fun _ _ _ => (if_neg not_mem_nil).symm⟩
  | cons entry l ih =>
    obtain ⟨k, property, digit, hproperty, hname, hdigit, hvalue⟩ :=
      mem_assign hds (hl entry mem_cons_self)
    obtain ⟨result, hresult, hlength', hdigits⟩ :=
      @ih (fun entry' h => hl entry' (mem_cons_of_mem entry h)) (indices.set k digit)
        (by rw [length_set, hlength])
    refine ⟨result, ?_, hlength', ?_⟩
    · rw [applyPropertyOverrides, foldlM_cons]
      simp only [hname, hblock.propertyIndex hproperty, hproperty,
        hblock.valueIndex hproperty hvalue, bind_eq_bind, bind_some]
      exact hresult
    · intro i other hother
      rw [hdigits i other hother, map_cons]
      by_cases hmem : other.name ∈ l.map Prod.fst
      · rw [if_pos hmem, if_pos (mem_cons_of_mem _ hmem)]
      · rw [if_neg hmem]
        by_cases heq : other.name = entry.1
        · have hik : i = k := by
            have hindex := hblock.propertyIndex hother
            rw [heq, hname, hblock.propertyIndex hproperty] at hindex
            exact (Option.some.inj hindex).symm
          subst hik
          have hi : i < indices.length := hlength ▸ (List.getElem?_eq_some_iff.1 hother).1
          rw [if_pos (heq ▸ mem_cons_self), List.getElem?_set_self hi, hdigit]
        · have hne : k ≠ i := by
            rintro rfl
            rw [hproperty] at hother
            obtain rfl := Option.some.inj hother
            exact heq hname.symm
          have hnot : other.name ∉ entry.1 :: l.map Prod.fst := fun h =>
            (mem_cons.1 h).elim heq hmem
          rw [if_neg hnot, List.getElem?_set_ne hne]

theorem applyPropertyOverrides_perm {l : List (String × String)} (hl : l.Perm (block.assign ds))
    {indices : List ℕ} (hlength : indices.length = block.properties.length) :
    applyPropertyOverrides block indices l = some ds := by
  obtain ⟨result, hresult, hlength', hdigits⟩ :=
    applyPropertyOverrides_of_subset hblock hds (fun entry h => hl.mem_iff.1 h) hlength
  rw [hresult]
  refine congrArg some (ext_getElem? fun i => ?_)
  by_cases hi : i < block.properties.length
  · have hproperty := List.getElem?_eq_getElem hi
    have hname : (block.properties[i]).name ∈ l.map Prod.fst := by
      rw [(hl.map Prod.fst).mem_iff, map_fst_assign (length_of_digits hds)]
      exact mem_map_of_mem (getElem_mem hi)
    rw [hdigits i _ hproperty, if_pos hname]
  · rw [List.getElem?_eq_none (by omega), List.getElem?_eq_none]
    rw [length_of_digits hds]
    exact not_lt.1 hi

end

end BlockRegistry

end Assignments

theorem prod_drop_le {radices : List ℕ} (h : ∀ radix ∈ radices, 0 < radix) (k : ℕ) :
    (radices.drop k).prod ≤ radices.prod := by
  have hsplit := prod_take_mul_prod_drop radices k
  have htake : 0 < (radices.take k).prod :=
    prod_pos fun radix hradix => h radix (mem_of_mem_take hradix)
  rw [← hsplit]
  exact Nat.le_mul_of_pos_left _ htake

theorem Block.WellFormed.propertyStride {block : Block} (h : block.WellFormed)
    (hlt : block.count < 65536) (k : ℕ) :
    BlockRegistry.propertyStride block k = .ok (stride (radicesOf block.properties) k) := by
  have hpos : ∀ radix ∈ radicesOf (block.properties.drop (k + 1)), 0 < radix := by
    intro radix hradix
    rw [radicesOf, map_drop] at hradix
    exact h.radices_pos radix (mem_of_mem_drop hradix)
  have hdrop : radicesOf (block.properties.drop (k + 1)) =
      (radicesOf block.properties).drop (k + 1) := map_drop
  have hprod : (radicesOf (block.properties.drop (k + 1))).prod < 65536 := by
    rw [hdrop]
    exact lt_of_le_of_lt (prod_drop_le h.radices_pos _) hlt
  rw [BlockRegistry.propertyStride, map_asU16 hpos hprod, productU16_eq hpos hprod, hdrop]
  rfl

/-- The offset with another digit at one place is reached by a sum or a difference that stays
within the offsets of the block. -/
theorem shift_offset {radices : List ℕ} (hpos : ∀ radix ∈ radices, 0 < radix)
    {offset k radix digit : ℕ} (hoffset : offset < radices.prod) (hradix : radices[k]? = some radix)
    (hdigit : digit < radix) :
    let old := offset / stride radices k % radix
    let moved := value radices ((digits radices offset).set k digit)
    List.Forall₂ (· < ·) ((digits radices offset).set k digit) radices ∧ moved < radices.prod ∧
      (old ≤ digit → offset + (digit - old) * stride radices k = moved) ∧
      (¬ old ≤ digit → (old - digit) * stride radices k ≤ offset ∧
        offset - (old - digit) * stride radices k = moved) := by
  intro old moved
  have hforall : List.Forall₂ (· < ·) ((digits radices offset).set k digit) radices := by
    have hdigits := forall₂_iff_get.1 (digits_lt hpos offset)
    rw [forall₂_iff_get]
    refine ⟨by rw [length_set, MixedRadix.length_digits], fun i hi hi' => ?_⟩
    simp only [get_eq_getElem, getElem_set]
    split
    · rename_i heq
      subst heq
      obtain ⟨_, hget⟩ := List.getElem?_eq_some_iff.1 hradix
      rwa [hget]
    · exact hdigits.2 i (by rwa [length_set] at hi) hi'
  have hset : moved + old * stride radices k = offset + digit * stride radices k := by
    rw [value_set (length_digits radices offset) (getElem?_digits hradix offset), value_digits,
      Nat.mod_eq_of_lt hoffset]
  refine ⟨hforall, value_lt hforall, fun hle => ?_, fun hlt => ?_⟩
  · have hmul : old * stride radices k ≤ digit * stride radices k := Nat.mul_le_mul_right _ hle
    rw [Nat.sub_mul]
    omega
  · have hmul : digit * stride radices k ≤ old * stride radices k :=
      Nat.mul_le_mul_right _ (Nat.le_of_not_le hlt)
    rw [Nat.sub_mul]
    omega

namespace BlockRegistry

section States

variable {registry : BlockRegistry} {stateId i base : ℕ} {block : Block}

section

variable (h : registry.Layout) (hlocated : registry.Located stateId i block base)

include h hlocated

theorem Layout.wellFormed : block.WellFormed :=
  (h.index i block hlocated.block_eq).2.2

theorem Layout.range_le : base + block.count ≤ registry.nextStateId := by
  have hpos := (h.wellFormed hlocated).one_le_count
  have hlast : registry.Located (base + block.count - 1) i block base :=
    ⟨hlocated.block_eq, hlocated.base_eq, by omega, by omega⟩
  have hlt := h.lt_next hlast
  omega

theorem Layout.count_lt : block.count < 65536 := by
  have hle := h.range_le hlocated
  have hnext := h.next_lt
  omega

theorem Layout.byStateId_eq : registry.byStateId stateId = some block :=
  (h.lookup _ _ _ _ hlocated).1

theorem Layout.expectBlock_eq : registry.expectBlock stateId = .ok block := by
  rw [expectBlock, h.byStateId_eq hlocated]

end

theorem indexed_eq {α : Type*} {l : List α} {i : ℕ} {a : α} (h : l[i]? = some a) :
    indexed l i = .ok a := by
  rw [indexed, h]

theorem Layout.tryBlockIndex_eq (h : registry.Layout)
    (hblock : registry.blocksById[i]? = some block) : registry.tryBlockIndex block = some i := by
  have hid := (h.index i block hblock).1
  simp [tryBlockIndex, hid, hblock]

def indicesOf (block : Block) (base stateId : ℕ) : List ℕ :=
  digits (radicesOf block.properties) (stateId - base)

theorem Layout.indices_lt (h : registry.Layout) (hlocated : registry.Located stateId i block base) :
    List.Forall₂ (· < ·) (indicesOf block base stateId) (radicesOf block.properties) :=
  digits_lt (h.wellFormed hlocated).radices_pos _

variable {ds : List ℕ}

theorem mapM_valueNames {properties : List Property}
    (h : List.Forall₂ (· < ·) ds (radicesOf properties)) :
    ((ds.zip properties).mapM fun (valueIndex, property) => do
      let value ← property.valueNameFromIndex valueIndex
      pure (property.name, value)) =
      Except.ok ((ds.zip properties).map fun (index, property) =>
        (property.name, property.valueNames.getD index "")) := by
  induction properties generalizing ds with
  | nil =>
    obtain rfl := forall₂_nil_right_iff.1 h
    rfl
  | cons property properties ih =>
    cases h with
    | @cons index radix ds radices hindex hrest =>
      have hvalue : property.valueNameFromIndex index =
          .ok (property.valueNames.getD index "") := by
        rw [getD_eq_getElem?_getD, List.getElem?_eq_getElem hindex]
        exact indexed_eq (List.getElem?_eq_getElem hindex)
      rw [zip_cons_cons, mapM_cons, ih hrest]
      simp [hvalue, bind, Except.bind, pure, Except.pure]

theorem Layout.getProperties_eq (h : registry.Layout)
    (hlocated : registry.Located stateId i block base) :
    registry.getProperties stateId = .ok (block.assign (indicesOf block base stateId)) := by
  have hblock := h.wellFormed hlocated
  unfold getProperties
  simp only [h.expectBlock_eq hlocated, bind, Except.bind]
  by_cases hempty : block.properties = []
  · have hassign : block.assign (indicesOf block base stateId) = [] := by
      rw [assign, hempty, zip_nil_right]
      rfl
    rw [hempty, hassign]
    rfl
  · rw [if_neg (by rwa [List.isEmpty_iff])]
    simp only [indexed_eq (h.lookup _ _ _ _ hlocated).2, indexed_eq hlocated.base_eq, subU16,
      if_pos hlocated.base_le, decodePropertyIndices, bind, Except.bind, pure, Except.pure,
      decodeLoop_eq hblock.radices_pos (h.count_lt hlocated)]
    exact mapM_valueNames (h.indices_lt hlocated)

theorem Located.ofDigits (hlocated : registry.Located stateId i block base)
    (hds : List.Forall₂ (· < ·) ds (radicesOf block.properties)) :
    registry.Located (base + value (radicesOf block.properties) ds) i block base ∧
      indicesOf block base (base + value (radicesOf block.properties) ds) = ds := by
  constructor
  · exact ⟨hlocated.block_eq, hlocated.base_eq, Nat.le_add_right _ _,
      Nat.add_lt_add_left (value_lt hds) _⟩
  · rw [indicesOf, Nat.add_sub_cancel_left]
    exact digits_value hds

theorem Located.value_indicesOf (hlocated : registry.Located stateId i block base) :
    base + value (radicesOf block.properties) (indicesOf block base stateId) = stateId := by
  have hle := hlocated.base_le
  have hlt : stateId - base < block.count := by
    have := hlocated.lt
    omega
  rw [indicesOf, value_digits]
  rw [show (stateId - base) % (radicesOf block.properties).prod = stateId - base from
    mod_eq_of_lt hlt]
  omega

theorem Layout.stateIdFromBlockProperties_eq (h : registry.Layout)
    (hlocated : registry.Located stateId i block base)
    (hds : List.Forall₂ (· < ·) ds (radicesOf block.properties)) {l : List (String × String)}
    (hl : l.Perm (block.assign ds)) :
    registry.stateIdFromBlockProperties block l =
      .ok (some (base + value (radicesOf block.properties) ds)) := by
  have hblock := h.wellFormed hlocated
  have hsum : base + value (radicesOf block.properties) ds < 65536 :=
    (h.lt_next (hlocated.ofDigits hds).1).trans h.next_lt
  unfold stateIdFromBlockProperties
  simp only [h.tryBlockIndex_eq hlocated.block_eq, indexed_eq hlocated.base_eq, bind, Except.bind,
    applyPropertyOverrides_perm hblock hds hl length_replicate, encodePropertyIndices,
    encodeLoop_eq hblock.radices_pos (h.count_lt hlocated) hds, addU16, if_pos hsum, pure,
    Except.pure]

/-- The state whose indices are the same but for one place. -/
def stateWith (block : Block) (base stateId k digit : ℕ) : ℕ :=
  base + value (radicesOf block.properties) ((indicesOf block base stateId).set k digit)

variable {k digit : ℕ} {property : Property}

theorem radix_eq (hproperty : block.properties[k]? = some property) :
    (radicesOf block.properties)[k]? = some property.valueCount := by
  rw [radicesOf, List.getElem?_map, hproperty]
  rfl

/-- The arithmetic that both ways of setting a property share. -/
structure Shift (block : Block) (base stateId k digit : ℕ) (property : Property) : Prop where
  digits : List.Forall₂ (· < ·) ((indicesOf block base stateId).set k digit)
    (radicesOf block.properties)
  count : asU16 property.valueCount = property.valueCount
  count_ne : property.valueCount ≠ 0
  stride_ne : stride (radicesOf block.properties) k ≠ 0
  up : ∀ old, old = (stateId - base) / stride (radicesOf block.properties) k %
    property.valueCount → old ≤ digit →
    mulU16 (asU16 (digit - old)) (stride (radicesOf block.properties) k) =
      .ok ((digit - old) * stride (radicesOf block.properties) k) ∧
    base + (stateId - base + (digit - old) * stride (radicesOf block.properties) k) =
      stateWith block base stateId k digit
  down : ∀ old, old = (stateId - base) / stride (radicesOf block.properties) k %
    property.valueCount → ¬ old ≤ digit →
    mulU16 (asU16 (old - digit)) (stride (radicesOf block.properties) k) =
      .ok ((old - digit) * stride (radicesOf block.properties) k) ∧
    (old - digit) * stride (radicesOf block.properties) k ≤ stateId - base ∧
    base + (stateId - base - (old - digit) * stride (radicesOf block.properties) k) =
      stateWith block base stateId k digit
  lt : stateWith block base stateId k digit < 65536

section

variable (h : registry.Layout) (hlocated : registry.Located stateId i block base)
  (hproperty : block.properties[k]? = some property)

include h hlocated hproperty

theorem Layout.shift (hdigit : digit < property.valueCount) :
    Shift block base stateId k digit property := by
  have hblock := h.wellFormed hlocated
  have hcount := h.count_lt hlocated
  have hoffset : stateId - base < block.count := by
    have hle := hlocated.base_le
    have hlt := hlocated.lt
    omega
  obtain ⟨hforall, -, hup, hdown⟩ :=
    shift_offset hblock.radices_pos hoffset (radix_eq hproperty) hdigit
  have hmem := mem_of_getElem? hproperty
  have hradix : asU16 property.valueCount = property.valueCount :=
    asU16_valueCount hblock.radices_pos hcount hmem
  have hradix_lt : property.valueCount < 65536 := hradix ▸ mod_lt _ (by decide)
  have hpos := hblock.count_pos property hmem
  have hlt : stateWith block base stateId k digit < 65536 :=
    (h.lt_next (hlocated.ofDigits hforall).1).trans h.next_lt
  have hmul : ∀ d, d < 65536 → d * stride (radicesOf block.properties) k < 65536 →
      mulU16 (asU16 d) (stride (radicesOf block.properties) k) =
        .ok (d * stride (radicesOf block.properties) k) := by
    intro d hd hproduct
    rw [show asU16 d = d from mod_eq_of_lt hd, mulU16, if_pos hproduct]
  constructor
  · exact hforall
  · exact hradix
  · exact ne_of_gt hpos
  · refine ne_of_gt (prod_pos fun radix hr => ?_)
    exact hblock.radices_pos radix (mem_of_mem_drop hr)
  · rintro old rfl hle
    have hmoved := hup hle
    have hsum : base + (stateId - base + (digit - (stateId - base) /
        stride (radicesOf block.properties) k % property.valueCount) *
          stride (radicesOf block.properties) k) = stateWith block base stateId k digit :=
      congrArg (base + ·) hmoved
    exact ⟨hmul _ (by omega) (by omega), hsum⟩
  · rintro old rfl hlt'
    obtain ⟨hle, hmoved⟩ := hdown hlt'
    have hold := mod_lt ((stateId - base) / stride (radicesOf block.properties) k) hpos
    exact ⟨hmul _ (by omega) (by omega), hle, congrArg (base + ·) hmoved⟩
  · exact hlt

theorem Layout.trySetPropertyByName_eq {value : String}
    (hvalue : property.valueNames[digit]? = some value) :
    registry.trySetPropertyByName stateId property.name value =
      .ok (some (stateWith block base stateId k digit)) := by
  have hblock := h.wellFormed hlocated
  have hshift := h.shift hlocated hproperty (List.getElem?_eq_some_iff.1 hvalue).1
  unfold trySetPropertyByName
  simp only [h.byStateId_eq hlocated, (h.lookup _ _ _ _ hlocated).2, hlocated.base_eq,
    hblock.propertyIndex hproperty, indexed_eq hproperty, hblock.valueIndex hproperty hvalue,
    checkedSubU16, if_pos hlocated.base_le, hblock.propertyStride (h.count_lt hlocated), divU16,
    if_neg hshift.stride_ne, remU16, hshift.count, if_neg hshift.count_ne, bind, Except.bind, pure,
    Except.pure]
  have hlt := hshift.lt
  by_cases hle : (stateId - base) / stride (radicesOf block.properties) k %
      property.valueCount ≤ digit
  · obtain ⟨hmul, hsum⟩ := hshift.up _ rfl hle
    rw [if_pos hle, hmul]
    simp only [checkedAddU16, addU16]
    rw [if_pos (by omega)]
    simp only [hsum, if_pos hlt]
  · obtain ⟨hmul, hsub, hsum⟩ := hshift.down _ rfl hle
    rw [if_neg hle, hmul]
    simp only [addU16, if_pos hsub, hsum, if_pos hlt]

end

section Typed

variable {V : Type} {typed : TypedProperty V}

section

variable (h : registry.Layout) (hlocated : registry.Located stateId i block base)

include h hlocated

theorem Layout.setProperty_eq (hproperty : block.properties[k]? = some property)
    (hname : typed.name = property.name) {value : String} {x : V}
    (hx : typed.nameOf x = .ok value) (hvalue : property.valueNames[digit]? = some value) :
    registry.setProperty stateId typed x = .ok (stateWith block base stateId k digit) := by
  have hblock := h.wellFormed hlocated
  have hshift := h.shift hlocated hproperty (List.getElem?_eq_some_iff.1 hvalue).1
  obtain ⟨index, hindex, hvalueName⟩ : ∃ index, typed.getInternalIndex x = .ok index ∧
        typed.valueNameFromIndex index = .ok value := by
    unfold TypedProperty.nameOf at hx
    cases hinternal : typed.getInternalIndex x with
    | error panic =>
      rw [hinternal] at hx
      cases hx
    | ok index =>
      rw [hinternal] at hx
      exact ⟨index, rfl, hx⟩
  unfold setProperty
  simp only [h.expectBlock_eq hlocated, hname, hblock.propertyIndex hproperty,
    indexed_eq (h.lookup _ _ _ _ hlocated).2, indexed_eq hlocated.base_eq, subU16,
    if_pos hlocated.base_le, hindex, hvalueName, indexed_eq hproperty,
    hblock.valueIndex hproperty hvalue, hblock.propertyStride (h.count_lt hlocated), divU16,
    if_neg hshift.stride_ne, remU16, hshift.count, if_neg hshift.count_ne, bind, Except.bind]
  have hlt := hshift.lt
  by_cases hle : (stateId - base) / stride (radicesOf block.properties) k %
      property.valueCount ≤ digit
  · obtain ⟨hmul, hsum⟩ := hshift.up _ rfl hle
    rw [if_pos hle, hmul]
    simp only [addU16]
    rw [if_pos (by omega)]
    simp only [hsum, if_pos hlt]
  · obtain ⟨hmul, hsub, hsum⟩ := hshift.down _ rfl hle
    rw [if_neg hle, hmul]
    simp only [addU16, if_pos hsub, hsum, if_pos hlt]

theorem Layout.tryGetProperty_eq (hproperty : block.properties[k]? = some property)
    (hname : typed.name = property.name) {value : String}
    (hindex : (indicesOf block base stateId)[k]? = some digit)
    (hvalue : property.valueNames[digit]? = some value) :
    registry.tryGetProperty stateId typed = .ok (typed.getValue value) := by
  have hblock := h.wellFormed hlocated
  have hshift := h.shift hlocated hproperty (List.getElem?_eq_some_iff.1 hvalue).1
  have hdigit : (stateId - base) / stride (radicesOf block.properties) k % property.valueCount =
      digit := by
    rw [indicesOf, getElem?_digits (radix_eq hproperty)] at hindex
    exact Option.some.inj hindex
  unfold tryGetProperty
  simp only [h.expectBlock_eq hlocated, hname, hblock.propertyIndex hproperty,
    indexed_eq (h.lookup _ _ _ _ hlocated).2, indexed_eq hlocated.base_eq, subU16,
    if_pos hlocated.base_le, indexed_eq hproperty, hblock.propertyStride (h.count_lt hlocated),
    divU16, if_neg hshift.stride_ne, remU16, hshift.count, if_neg hshift.count_ne, hdigit, bind,
    Except.bind, Property.valueNameFromIndex, indexed_eq hvalue, pure, Except.pure]

theorem Layout.tryGetProperty_none (hname : typed.name ∉ block.properties.map Property.name) :
    registry.tryGetProperty stateId typed = .ok none := by
  have hindex : block.propertyIndex typed.name = none := by
    rw [propertyIndex, List.findIdx?_eq_none_iff]
    intro property hproperty
    rw [beq_eq_false_iff_ne]
    rintro heq
    exact hname (heq ▸ mem_map_of_mem hproperty)
  unfold tryGetProperty
  simp only [h.expectBlock_eq hlocated, hindex, bind, Except.bind, pure, Except.pure]

end

end Typed

end States

end BlockRegistry

/-- Every name of the property is read as the value that has this name. -/
def TypedProperty.Lawful {V : Type} (property : TypedProperty V) : Prop :=
  ∀ name ∈ property.valueNames,
    ∃ value, property.getValue name = some value ∧ property.nameOf value = .ok name

def BoolProperty (name : String) : TypedProperty Bool where
  name := name
  valueNames := ["true", "false"]
  getValue value :=
    if value = "true" then some true else if value = "false" then some false else none
  getInternalIndex value := .ok (if value then 0 else 1)

theorem BoolProperty.lawful (name : String) : (BoolProperty name).Lawful := by
  intro value hvalue
  rcases List.mem_cons.1 hvalue with rfl | hvalue
  · exact ⟨true, rfl, rfl⟩
  · obtain rfl := List.mem_singleton.1 hvalue
    exact ⟨false, rfl, rfl⟩

def numStr : List String :=
  ["0", "1", "2", "3", "4", "5", "6", "7", "8", "9", "10", "11", "12", "13", "14", "15", "16",
    "17", "18", "19", "20", "21", "22", "23", "24", "25"]

/-- A number of eight bits in decimal digits, which may follow a plus sign. -/
def parseU8 (s : String) : Option ℕ :=
  let digits := match s.toList with
    | '+' :: rest => rest
    | chars => chars
  if digits.isEmpty then none
  else digits.foldlM (fun n c =>
    if c.isDigit then
      let n := n * 10 + (c.toNat - '0'.toNat)
      if n < 256 then some n else none
    else none) 0

theorem parseU8_numStr : ∀ v < 26, parseU8 (numStr.getD v "") = some v := by
  decide

/-- There is a name for each number of the property. -/
structure IntProperty where
  name : String
  min : ℕ
  max : ℕ
  min_le : min ≤ max
  max_lt : max < 26

namespace IntProperty

variable (property : IntProperty)

def getValue (value : String) : Option ℕ :=
  (parseU8 value).filter fun v => property.min ≤ v ∧ v ≤ property.max

def getInternalIndex (value : ℕ) : Except BlockPanic ℕ :=
  if value ≤ property.max then
    if property.min ≤ value then .ok (value - property.min) else .error .overflow
  else .ok 0

def typed : TypedProperty ℕ where
  name := property.name
  valueNames :=
    (List.range (property.max - property.min + 1)).map fun i => numStr.getD (property.min + i) ""
  getValue := property.getValue
  getInternalIndex := property.getInternalIndex

theorem lawful : property.typed.Lawful := by
  intro name hname
  obtain ⟨i, hi, rfl⟩ := List.mem_map.1 hname
  rw [List.mem_range] at hi
  have hle := property.min_le
  have hlt := property.max_lt
  refine ⟨property.min + i, ?_, ?_⟩
  · show property.getValue _ = _
    rw [getValue, parseU8_numStr _ (by omega), filter_some, if_pos]
    exact decide_eq_true ⟨by omega, by omega⟩
  · have hindex : property.getInternalIndex (property.min + i) = .ok i := by
      rw [getInternalIndex, if_pos (by omega), if_pos (by omega), Nat.add_sub_cancel_left]
    have hget : property.typed.valueNames[i]? = some (numStr.getD (property.min + i) "") := by
      rw [typed, List.getElem?_map, List.getElem?_range hi]
      rfl
    show (property.getInternalIndex _ >>= property.typed.valueNameFromIndex) = _
    rw [hindex]
    exact BlockRegistry.indexed_eq hget

end IntProperty

/-- The possible values of an enumeration, and their names. -/
structure EnumProperty (T : Type) where
  name : String
  possibleValues : List T
  asStr : T → String

namespace EnumProperty

variable {T : Type} [DecidableEq T] (property : EnumProperty T)

def typed : TypedProperty T where
  name := property.name
  valueNames := property.possibleValues.map property.asStr
  getValue value := property.possibleValues.find? fun v => property.asStr v == value
  getInternalIndex value :=
    match property.possibleValues.findIdx? (· == value) with
    | none => .error .unknownValue
    | some index => .ok index

theorem lawful : property.typed.Lawful := by
  intro name hname
  obtain ⟨v, hv, hstr⟩ := List.mem_map.1 hname
  obtain ⟨value, hfind⟩ : ∃ value, property.typed.getValue name = some value := by
    rw [← isSome_iff_exists]
    exact List.find?_isSome.2 ⟨v, hv, beq_iff_eq.2 hstr⟩
  have hbeq : (property.asStr value == name) = true :=
    @List.find?_some _ (fun v => property.asStr v == name) value property.possibleValues hfind
  have hvalue : property.asStr value = name := eq_of_beq hbeq
  have hmem : value ∈ property.possibleValues := List.mem_of_find?_eq_some hfind
  refine ⟨value, hfind, ?_⟩
  cases hindex : property.possibleValues.findIdx? (· == value) with
  | none =>
    have hnot := List.findIdx?_eq_none_iff.1 hindex value hmem
    rw [beq_self_eq_true] at hnot
    cases hnot
  | some index =>
    obtain ⟨hlt, hbeq, -⟩ := List.findIdx?_eq_some_iff_getElem.1 hindex
    have hget : property.typed.valueNames[index]? = some name := by
      rw [typed, List.getElem?_map, List.getElem?_eq_getElem hlt, eq_of_beq hbeq, ← hvalue]
      rfl
    have hinternal : property.typed.getInternalIndex value = .ok index := by
      simp only [typed, hindex]
    show (property.typed.getInternalIndex value >>= property.typed.valueNameFromIndex) = _
    rw [hinternal]
    exact BlockRegistry.indexed_eq hget

end EnumProperty

end Steel
