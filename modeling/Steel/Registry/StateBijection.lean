import Steel.Registry.StateProperties

/-! # The ids and the properties of the states

Whatever blocks are registered, their ranges partition the ids. A state and the assignment of its
properties determine each other, and setting a property changes one entry of the assignment.
-/

namespace Steel

open MixedRadix List Block

/-- An assignment with another value for the property of this name. -/
def withProperty (l : List (String × String)) (name value : String) : List (String × String) :=
  l.map fun entry => if entry.1 = name then (name, value) else entry

section Assignments

variable {block : Block} {ds : List ℕ} {k digit : ℕ} {property : Property} {value : String}

theorem Block.assign_set (hblock : block.WellFormed) (hlength : ds.length = block.properties.length)
    (hproperty : block.properties[k]? = some property)
    (hvalue : property.valueNames[digit]? = some value) :
    block.assign (ds.set k digit) = withProperty (block.assign ds) property.name value := by
  apply ext_getElem?
  intro i
  rw [withProperty, List.getElem?_map]
  by_cases hi : i < block.properties.length
  · have hother := List.getElem?_eq_getElem hi
    have hentry := getElem?_assign (List.getElem?_eq_getElem (hlength ▸ hi)) hother
    rw [hentry]
    by_cases hik : k = i
    · subst hik
      obtain rfl := Option.some.inj (hproperty.symm.trans hother)
      rw [getElem?_assign (List.getElem?_set_self (hlength ▸ hi)) hproperty,
        getD_eq_getElem?_getD, hvalue]
      exact congrArg some (if_pos rfl).symm
    · have hname : block.properties[i].name ≠ property.name := by
        intro heq
        have hindex := hblock.propertyIndex hother
        rw [heq, hblock.propertyIndex hproperty] at hindex
        exact hik (Option.some.inj hindex)
      have hds : i < ds.length := hlength ▸ hi
      have hset : (ds.set k digit)[i]? = some ds[i] := by
        rw [List.getElem?_set_ne hik]
        exact List.getElem?_eq_getElem hds
      rw [getElem?_assign hset hother]
      exact congrArg some (if_neg hname).symm
  · have hnone : ∀ indices : List ℕ, indices.length = block.properties.length →
        (block.assign indices)[i]? = none := by
      intro indices hindices
      rw [List.getElem?_eq_none_iff, length_assign hindices]
      exact Nat.not_lt.1 hi
    rw [hnone ds hlength, hnone _ (by rw [length_set, hlength])]
    rfl

theorem exists_forall₂ {α β : Type*} {R : β → α → Prop} {l : List α}
    (h : ∀ a ∈ l, ∃ b, R b a) : ∃ l', List.Forall₂ R l' l := by
  induction l with
  | nil => exact ⟨[], .nil⟩
  | cons a l ih =>
    obtain ⟨b, hb⟩ := h a mem_cons_self
    obtain ⟨l', hl'⟩ := ih fun a' h' => h a' (mem_cons_of_mem a h')
    exact ⟨b :: l', .cons hb hl'⟩

/-- An assignment that names every property, with one of its values, is that of some digits. -/
theorem Block.exists_assign (hblock : block.WellFormed) {l : List (String × String)}
    (hnames : (l.map Prod.fst).Perm (block.properties.map Property.name))
    (hvalues : ∀ entry ∈ l, ∃ property ∈ block.properties,
      property.name = entry.1 ∧ entry.2 ∈ property.valueNames) :
    ∃ ds, List.Forall₂ (· < ·) ds (radicesOf block.properties) ∧ l.Perm (block.assign ds) := by
  have hdigit : ∀ property ∈ block.properties, ∃ digit, digit < property.valueCount ∧
      (property.name, property.valueNames.getD digit "") ∈ l := by
    intro property hproperty
    obtain ⟨entry, hentry, hname⟩ :=
      mem_map.1 (hnames.mem_iff.2 (mem_map_of_mem hproperty))
    obtain ⟨other, hother, heq, hvalue⟩ := hvalues entry hentry
    obtain rfl : other = property :=
      inj_on_of_nodup_map hblock.names hother hproperty (heq.trans hname)
    obtain ⟨digit, hdigit, hget⟩ := getElem_of_mem hvalue
    refine ⟨digit, hdigit, ?_⟩
    rw [getD_eq_getElem?_getD, List.getElem?_eq_getElem hdigit, hget, heq]
    exact hentry
  obtain ⟨ds, hds⟩ := exists_forall₂ hdigit
  have hlt : List.Forall₂ (· < ·) ds (radicesOf block.properties) := by
    rw [radicesOf, forall₂_map_right_iff]
    exact hds.imp fun _ _ h => h.1
  have hlength := length_of_digits hlt
  have hsubset : block.assign ds ⊆ l := by
    intro entry hentry
    obtain ⟨⟨index, property⟩, hzip, rfl⟩ := mem_map.1 hentry
    exact (forall₂_iff_zip.1 hds).2 hzip |>.2
  have hnodup : (block.assign ds).Nodup := by
    refine Nodup.of_map Prod.fst ?_
    rw [map_fst_assign hlength]
    exact hblock.names
  refine ⟨ds, hlt, ((hnodup.subperm hsubset).perm_of_length_le ?_).symm⟩
  have hcount := hnames.length_eq
  rw [length_map, length_map] at hcount
  rw [hcount, length_assign hlength]

end Assignments

namespace BlockRegistry

/-- The ids of a registry and the properties of its states determine each other. -/
structure StateBijection (registry : BlockRegistry) : Prop where
  cover : ∀ stateId, stateId < registry.nextStateId ↔
    ∃ i block base, registry.Located stateId i block base
  disjoint : ∀ stateId i j block block' base base', registry.Located stateId i block base →
    registry.Located stateId j block' base' → i = j
  /-- Every order of the properties of a state leads back to the state. -/
  inverse : ∀ stateId i block base, registry.Located stateId i block base →
    registry.byStateId stateId = some block ∧
    ∃ l, registry.getProperties stateId = .ok l ∧
      ∀ l', l'.Perm l → registry.stateIdFromBlockProperties block l' = .ok (some stateId)
  /-- Every assignment of values to the properties of a block is that of a state. -/
  onto : ∀ i block, registry.blocksById[i]? = some block → ∀ l : List (String × String),
    (l.map Prod.fst).Perm (block.properties.map Property.name) →
    (∀ entry ∈ l, ∃ property ∈ block.properties,
      property.name = entry.1 ∧ entry.2 ∈ property.valueNames) →
    ∃ stateId base l', registry.Located stateId i block base ∧
      registry.stateIdFromBlockProperties block l = .ok (some stateId) ∧
      registry.getProperties stateId = .ok l' ∧ l.Perm l'
  setter : ∀ stateId i block base, registry.Located stateId i block base →
    ∀ property ∈ block.properties, ∀ value ∈ property.valueNames, ∃ l stateId',
      registry.getProperties stateId = .ok l ∧
      registry.Located stateId' i block base ∧
      registry.getProperties stateId' = .ok (withProperty l property.name value) ∧
      registry.trySetPropertyByName stateId property.name value = .ok (some stateId') ∧
      registry.stateIdFromBlockProperties block (withProperty l property.name value) =
        .ok (some stateId') ∧
      ∀ (V : Type) (typed : TypedProperty V) (x : V), typed.name = property.name →
        typed.nameOf x = .ok value → registry.setProperty stateId typed x = .ok stateId'
  getter : ∀ stateId i block base, registry.Located stateId i block base →
    ∃ l, registry.getProperties stateId = .ok l ∧ ∀ (V : Type) (typed : TypedProperty V),
      registry.tryGetProperty stateId typed =
        .ok ((l.lookup typed.name).bind typed.getValue) ∧
      (typed.Lawful → ∀ property ∈ block.properties, typed.toProperty = property →
        ∃ x value, (typed.name, value) ∈ l ∧ typed.nameOf x = .ok value ∧
          registry.tryGetProperty stateId typed = .ok (some x))

variable {registry : BlockRegistry} {stateId i base : ℕ} {block : Block}

theorem lookup_of_mem {l : List (String × String)} (hnodup : (l.map Prod.fst).Nodup)
    {name value : String} (h : (name, value) ∈ l) : l.lookup name = some value := by
  induction l with
  | nil => cases h
  | cons entry l ih =>
    rw [map_cons, nodup_cons] at hnodup
    rcases mem_cons.1 h with heq | hmem
    · rw [← heq, lookup_cons_self]
    · have hne : name ≠ entry.1 := by
        rintro rfl
        exact hnodup.1 (mem_map.2 ⟨_, hmem, rfl⟩)
      rw [show entry = (entry.1, entry.2) from rfl, lookup_cons, beq_eq_false_iff_ne.2 hne]
      exact ih hnodup.2 hmem

theorem Layout.setter (h : registry.Layout) (hlocated : registry.Located stateId i block base)
    {property : Property} (hproperty : property ∈ block.properties) {value : String}
    (hvalue : value ∈ property.valueNames) : ∃ l stateId', registry.getProperties stateId = .ok l ∧
      registry.Located stateId' i block base ∧
      registry.getProperties stateId' = .ok (withProperty l property.name value) ∧
      registry.trySetPropertyByName stateId property.name value = .ok (some stateId') ∧
      registry.stateIdFromBlockProperties block (withProperty l property.name value) =
        .ok (some stateId') ∧
      ∀ (V : Type) (typed : TypedProperty V) (x : V), typed.name = property.name →
        typed.nameOf x = .ok value → registry.setProperty stateId typed x = .ok stateId' := by
  obtain ⟨k, hk⟩ := mem_iff_getElem?.1 hproperty
  obtain ⟨digit, hdigit⟩ := mem_iff_getElem?.1 hvalue
  have hblock := h.wellFormed hlocated
  have hshift := h.shift hlocated hk (List.getElem?_eq_some_iff.1 hdigit).1
  have hassign := assign_set hblock (length_of_digits (h.indices_lt hlocated)) hk hdigit
  obtain ⟨hlocated', hindices⟩ := hlocated.ofDigits hshift.digits
  refine ⟨_, stateWith block base stateId k digit, h.getProperties_eq hlocated, hlocated', ?_,
    h.trySetPropertyByName_eq hlocated hk hdigit, ?_, fun V typed x hname hx =>
      h.setProperty_eq hlocated hk hname hx hdigit⟩
  · rw [← hassign, ← hindices]
    exact h.getProperties_eq hlocated'
  · rw [← hassign]
    exact h.stateIdFromBlockProperties_eq hlocated hshift.digits (.refl _)

theorem Layout.getter (h : registry.Layout) (hlocated : registry.Located stateId i block base)
    {V : Type} (typed : TypedProperty V) :
    registry.tryGetProperty stateId typed =
      .ok (((block.assign (indicesOf block base stateId)).lookup typed.name).bind
        typed.getValue) := by
  have hnames := map_fst_assign (length_of_digits (h.indices_lt hlocated))
  by_cases hname : typed.name ∈ block.properties.map Property.name
  · obtain ⟨property, hproperty, heq⟩ := mem_map.1 hname
    obtain ⟨k, hk⟩ := mem_iff_getElem?.1 hproperty
    obtain ⟨digit, value, hdigit, hvalue, hentry⟩ := exists_digit (h.indices_lt hlocated) hk
    have hnodup := (h.wellFormed hlocated).names
    rw [← hnames] at hnodup
    rw [h.tryGetProperty_eq hlocated hk heq.symm hdigit hvalue, ← heq,
      lookup_of_mem hnodup (mem_of_getElem? hentry)]
    rfl
  · have hlookup : (block.assign (indicesOf block base stateId)).lookup typed.name = none := by
      rw [lookup_eq_none_iff]
      intro entry hentry
      rw [bne_iff_ne]
      rintro heq
      rw [← hnames, heq] at hname
      exact hname (mem_map_of_mem hentry)
    rw [h.tryGetProperty_none hlocated hname, hlookup]
    rfl

theorem Layout.stateBijection (h : registry.Layout) : registry.StateBijection := by
  constructor
  · intro stateId
    exact ⟨h.located stateId, fun ⟨_, _, _, hlocated⟩ => h.lt_next hlocated⟩
  · intro _ _ _ _ _ _ _ hlocated hlocated'
    exact (h.located_unique hlocated hlocated').1
  · intro stateId i block base hlocated
    refine ⟨h.byStateId_eq hlocated, _, h.getProperties_eq hlocated, fun l' hl' => ?_⟩
    rw [h.stateIdFromBlockProperties_eq hlocated (h.indices_lt hlocated) hl',
      hlocated.value_indicesOf]
  · intro i block hblock l hnames hvalues
    have hwell := (h.index i block hblock).2.2
    obtain ⟨ds, hds, hl⟩ := exists_assign hwell hnames hvalues
    obtain ⟨base, hbase⟩ : ∃ base, registry.blockToBaseState[i]? = some base := by
      have hi := (List.getElem?_eq_some_iff.1 hblock).1
      rw [← h.length_base] at hi
      exact ⟨_, List.getElem?_eq_getElem hi⟩
    have hfirst : registry.Located base i block base :=
      ⟨hblock, hbase, Nat.le_refl _, Nat.lt_add_of_pos_right hwell.one_le_count⟩
    obtain ⟨hlocated, hindices⟩ := hfirst.ofDigits hds
    refine ⟨_, base, _, hlocated, h.stateIdFromBlockProperties_eq hfirst hds hl,
      h.getProperties_eq hlocated, ?_⟩
    rwa [hindices]
  · intro stateId i block base hlocated property hproperty value hvalue
    exact h.setter hlocated hproperty hvalue
  · intro stateId i block base hlocated
    refine ⟨_, h.getProperties_eq hlocated, fun V typed => ⟨h.getter hlocated typed, ?_⟩⟩
    rintro hlawful _ hproperty rfl
    obtain ⟨k, hk⟩ := mem_iff_getElem?.1 hproperty
    obtain ⟨digit, value, hdigit, hvalue, hentry⟩ := exists_digit (h.indices_lt hlocated) hk
    obtain ⟨x, hget, hx⟩ := hlawful value (mem_of_getElem? hvalue)
    refine ⟨x, value, mem_of_getElem? hentry, hx, ?_⟩
    rw [h.tryGetProperty_eq hlocated hk rfl hdigit hvalue, hget]

/-- The blocks of the repository are registered one after another, and then the ids of their states
and the properties of these are in bijection. -/
theorem registerAll_stateBijection {blocks : List Block} (hkeys : (blocks.map key).Nodup)
    (hwell : ∀ block ∈ blocks, block.WellFormed) (hfresh : Fresh blocks 0)
    (hlt : (blocks.map count).sum < 65536) :
    ∃ registry, new.registerAll blocks = .ok registry ∧
      registry.blocksById.map (fun block => (block.key, block.properties)) =
        blocks.map (fun block => (block.key, block.properties)) ∧
      registry.nextStateId = (blocks.map count).sum ∧ registry.StateBijection := by
  obtain ⟨registry, hall, hlayout, hblocks, hnext⟩ := layout_new.registerAll hwell hfresh hkeys
    (by rwa [new, Nat.zero_add])
  refine ⟨registry, hall, hblocks, ?_, hlayout.stateBijection⟩
  rw [hnext, new, Nat.zero_add]

/-- Stone has no properties, and a lever lies in one of three directions and may be powered. -/
def stoneAndLever : List Block :=
  [⟨⟨"minecraft", "stone"⟩, [], none⟩,
    ⟨⟨"minecraft", "lever"⟩,
      [⟨"face", ["floor", "wall", "ceiling"]⟩, (BoolProperty "powered").toProperty], none⟩]

theorem registerAll_stateBijection_lever :
    ∃ registry, new.registerAll stoneAndLever = .ok registry ∧
      registry.blocksById.map (fun block => (block.key, block.properties)) =
        stoneAndLever.map (fun block => (block.key, block.properties)) ∧
      registry.nextStateId = (stoneAndLever.map count).sum ∧ registry.StateBijection := by
  have hnone : ∀ block ∈ stoneAndLever, block.id = none := by
    decide
  refine @registerAll_stateBijection stoneAndLever (by decide) (fun block hblock => ?_)
    (fun i block hblock => ?_) (by decide)
  · rcases mem_cons.1 hblock with rfl | hblock
    · constructor <;> decide
    · obtain rfl := mem_singleton.1 hblock
      constructor <;> decide
  · rw [hnone block (mem_of_getElem? hblock)]
    rfl

end BlockRegistry

end Steel
