import Steel.Registry.ComponentPatch

/-! # Canonical patches

Every operation keeps the patch of a stack canonical. Equality of stacks is then equality of their
patches, and the network format brings back an equal stack.
-/

namespace Steel

open AList List
open Steel.Except (bind_eq_ok mapM_eq_ok)

namespace DataComponents

variable {V : Type} [BEq V] {registries : Registries V}

/-- The patch says nothing that the prototype says already. -/
structure Canonical (prototype : DataComponentMap V) (patch : DataComponentPatch V) : Prop where
  set : ∀ key value, patch.lookup key = some (.set value) →
    (prototype.lookup key == some value) = false
  removed : ∀ key, patch.lookup key = some .removed → (prototype.lookup key).isSome = true

def ItemStack.Canonical (stack : ItemStack registries) : Prop :=
  DataComponents.Canonical stack.prototype stack.patch

/-- The stacks that the operations make, from any patches and any bytes. -/
inductive ItemStack.Obtained : ItemStack registries → Prop
  | new (item : Fin registries.items.size) : Obtained (new item)
  | withCountAndPatch (item : Fin registries.items.size) (count : Int32)
      (patch : DataComponentPatch V) : Obtained (withCountAndPatch item count patch)
  | read {bytes rest : List UInt8} {stack : ItemStack registries}
      (h : ItemStack.read registries bytes = .ok (stack, rest)) : Obtained stack
  | set {stack : ItemStack registries} (h : Obtained stack) (key : Identifier) (value : V) :
      Obtained (stack.set key value)
  | remove {stack : ItemStack registries} (h : Obtained stack) (key : Identifier) :
      Obtained (stack.remove key)
  | clear {stack : ItemStack registries} (h : Obtained stack) (key : Identifier) :
      Obtained (stack.clear key)
  | setItem {stack : ItemStack registries} (h : Obtained stack) (newItem : Identifier) :
      Obtained (stack.setItem newItem)
  | splitOff {stack : ItemStack registries} (h : Obtained stack) (amount : Int32) :
      Obtained (stack.split amount).1
  | splitRest {stack : ItemStack registries} (h : Obtained stack) (amount : Int32) :
      Obtained (stack.split amount).2
  | copyWithCount {stack : ItemStack registries} (h : Obtained stack) (count : Int32) :
      Obtained (stack.copyWithCount count)

variable {prototype : DataComponentMap V} {patch patch' : DataComponentPatch V} {key : Identifier}
variable {entry : ComponentPatchEntry V}

theorem DataComponentPatch.lookup_sanitizeAgainst :
    (patch.sanitizeAgainst prototype).lookup key = some entry ↔
      patch.lookup key = some entry ∧
        DataComponentPatch.retains prototype key entry = true := by
  rw [← Option.mem_def, ← Option.mem_def, mem_lookup_iff, mem_lookup_iff]
  exact mem_filter

omit [BEq V] in
theorem lookup_empty_ne :
    (∅ : DataComponentPatch V).lookup key ≠ some entry := nofun

theorem canonical_empty : Canonical prototype ∅ :=
  ⟨fun _ _ h => absurd h lookup_empty_ne, fun _ h => absurd h lookup_empty_ne⟩

theorem canonical_sanitizeAgainst (patch : DataComponentPatch V)
    (prototype : DataComponentMap V) : Canonical prototype (patch.sanitizeAgainst prototype) := by
  constructor
  · intro key value h
    have hretains := (DataComponentPatch.lookup_sanitizeAgainst.1 h).2
    rwa [DataComponentPatch.retains, bne, Bool.not_eq_true'] at hretains
  · exact fun key h => (DataComponentPatch.lookup_sanitizeAgainst.1 h).2

theorem Canonical.erase (h : Canonical prototype patch) (key : Identifier) :
    Canonical prototype (patch.erase key) := by
  have hlookup : ∀ key' entry, (patch.erase key).lookup key' = some entry →
      patch.lookup key' = some entry := by
    intro key' entry hentry
    by_cases hkey : key' = key
    · rw [hkey, lookup_erase] at hentry
      cases hentry
    · rwa [lookup_erase_ne hkey] at hentry
  constructor
  · exact fun key' value hvalue => h.set key' value (hlookup key' _ hvalue)
  · exact fun key' hremoved => h.removed key' (hlookup key' _ hremoved)

theorem Canonical.insert (h : Canonical prototype patch)
    (hentry : DataComponentPatch.retains prototype key entry = true) :
    Canonical prototype (patch.insert key entry) := by
  have hlookup : ∀ key' entry', (patch.insert key entry).lookup key' = some entry' →
      key' = key ∧ entry' = entry ∨ patch.lookup key' = some entry' := by
    intro key' entry' hentry'
    by_cases hkey : key' = key
    · rw [hkey, lookup_insert, Option.some_inj] at hentry'
      exact .inl ⟨hkey, hentry'.symm⟩
    · rw [lookup_insert_ne hkey] at hentry'
      exact .inr hentry'
  constructor
  · intro key' value hvalue
    rcases hlookup key' _ hvalue with ⟨rfl, rfl⟩ | hold
    · rwa [DataComponentPatch.retains, bne, Bool.not_eq_true'] at hentry
    · exact h.set key' value hold
  · intro key' hremoved
    rcases hlookup key' _ hremoved with ⟨rfl, rfl⟩ | hold
    · exact hentry
    · exact h.removed key' hold

namespace ItemStack

variable {stack : ItemStack registries}

section

variable (h : stack.Canonical)

include h

theorem Canonical.set (key : Identifier) (value : V) :
    (stack.set key value).Canonical := by
  unfold ItemStack.set
  split_ifs with hdefault
  · exact h.erase key
  · refine h.insert ?_
    rw [DataComponentPatch.retains, bne, Bool.not_eq_true']
    exact Bool.eq_false_iff.2 hdefault

theorem Canonical.remove (key : Identifier) :
    (stack.remove key).Canonical := by
  unfold ItemStack.remove
  split_ifs with hsome
  · exact h.insert hsome
  · exact h.erase key

theorem Canonical.setItem (newItem : Identifier) :
    (stack.setItem newItem).Canonical := by
  unfold ItemStack.setItem
  split
  · exact canonical_sanitizeAgainst _ _
  · exact h

theorem Canonical.copyWithCount (count : Int32) :
    (stack.copyWithCount count).Canonical := by
  unfold ItemStack.copyWithCount
  split_ifs
  · exact canonical_empty
  · exact h

end

theorem canonical_of_read {bytes rest : List UInt8}
    (h : ItemStack.read registries bytes = .ok (stack, rest)) : stack.Canonical := by
  unfold ItemStack.read at h
  split at h
  · cases h
  · split_ifs at h
    · cases h
      exact canonical_empty
    · obtain ⟨⟨id, bytes'⟩, -, h⟩ := bind_eq_ok.1 h
      dsimp only at h
      split at h
      · cases h
      · obtain ⟨⟨patch, bytes''⟩, -, h⟩ := bind_eq_ok.1 h
        cases h
        exact canonical_sanitizeAgainst _ _

theorem Obtained.canonical (h : stack.Obtained) : stack.Canonical := by
  induction h with
  | new item => exact canonical_empty
  | withCountAndPatch item count patch => exact canonical_sanitizeAgainst _ _
  | read h => exact canonical_of_read h
  | set _ key value ih => exact ih.set key value
  | remove _ key ih => exact ih.remove key
  | clear _ key ih => exact ih.erase key
  | setItem _ newItem ih => exact ih.setItem newItem
  | splitOff _ amount ih => exact ih
  | splitRest _ amount ih => exact ih
  | copyWithCount _ count ih => exact ih.copyWithCount count

end ItemStack

def ComponentPatchEntry.value {V : Type} : ComponentPatchEntry V → Option V
  | .set value => some value
  | .removed => none

namespace ItemStack

def effective {V : Type} {registries : Registries V} (stack : ItemStack registries)
    (key : Identifier) : Option V :=
  (stack.patch.lookup key).elim (stack.prototype.lookup key) ComponentPatchEntry.value

variable {stack a b : ItemStack registries}

omit [BEq V] in
theorem getEffectiveValueRaw_eq (key : Identifier) :
    stack.getEffectiveValueRaw key = stack.effective key := by
  unfold getEffectiveValueRaw effective
  rcases stack.patch.lookup key with _ | ⟨_ | _⟩ <;> rfl

omit [BEq V] in
theorem hasComponent_eq (key : Identifier) :
    stack.hasComponent key = (stack.effective key).isSome := by
  unfold hasComponent effective
  rcases stack.patch.lookup key with _ | ⟨_ | _⟩ <;> rfl

omit [BEq V] in
theorem effective_eq_none {key : Identifier} (h : key ∉ stack.visibleKeys) :
    stack.effective key = none := by
  rw [visibleKeys, mem_append, mem_filter, mem_filter, not_or] at h
  obtain ⟨hprototype, hset⟩ := h
  unfold effective
  cases hlookup : stack.patch.lookup key with
  | none =>
    have hkey : key ∉ stack.prototype := fun hmem =>
      hprototype ⟨hmem, by rw [DataComponentPatch.isRemoved, hlookup]; rfl⟩
    exact lookup_eq_none.2 hkey
  | some entry =>
    cases entry with
    | removed => rfl
    | set value =>
      have hmem : key ∈ stack.patch := lookup_isSome.1 (by rw [hlookup]; rfl)
      exact absurd ⟨hmem, by rw [DataComponentPatch.isSet, hlookup]⟩ hset

theorem componentsEqual_iff :
    componentsEqual a b = true ↔ ∀ key, (a.effective key == b.effective key) = true := by
  have hall : componentsEqual a b =
      (a.visibleKeys ++ b.visibleKeys).all fun key => a.effective key == b.effective key := by
    unfold componentsEqual
    congr 1
    funext key
    rw [getEffectiveValueRaw_eq, getEffectiveValueRaw_eq]
    cases a.effective key <;> cases b.effective key <;> rfl
  rw [hall, all_eq_true]
  constructor
  · intro h key
    by_cases hmem : key ∈ a.visibleKeys ++ b.visibleKeys
    · exact h key hmem
    · rw [mem_append, not_or] at hmem
      rw [effective_eq_none hmem.1, effective_eq_none hmem.2]
      rfl
  · exact fun h key _ => h key

variable [EquivBEq V]

omit [BEq V] [EquivBEq V] in
theorem option_beq_symm [BEq V] [EquivBEq V] {x y : Option V} (h : (x == y) = true) :
    (y == x) = true := by
  cases x with
  | none => cases y with
    | none => rfl
    | some y => cases h
  | some x => cases y with
    | none => cases h
    | some y => exact BEq.symm (α := V) h

omit [BEq V] [EquivBEq V] in
theorem entry_beq_symm [BEq V] [EquivBEq V] {x y : Option (ComponentPatchEntry V)}
    (h : (x == y) = true) : (y == x) = true := by
  rcases x with _ | ⟨x | _⟩ <;> rcases y with _ | ⟨y | _⟩
  case some.set.some.set => exact BEq.symm (α := V) h
  all_goals first | rfl | cases h

/-- An entry of a canonical patch changes the component. -/
theorem Canonical.value_ne (h : stack.Canonical) {key : Identifier}
    {entry : ComponentPatchEntry V} (hentry : stack.patch.lookup key = some entry) :
    (entry.value == stack.prototype.lookup key) = false := by
  rw [Bool.eq_false_iff]
  intro heq
  cases entry with
  | set value =>
    have hne := DataComponents.Canonical.set h key value hentry
    exact Bool.false_ne_true (hne.symm.trans (option_beq_symm heq))
  | removed =>
    have hsome := DataComponents.Canonical.removed h key hentry
    cases hlookup : stack.prototype.lookup key with
    | none =>
      rw [hlookup] at hsome
      cases hsome
    | some value =>
      rw [hlookup] at heq
      cases heq

theorem effective_beq_iff (ha : a.Canonical) (hb : b.Canonical) (hitem : a.item = b.item)
    (key : Identifier) : (a.effective key == b.effective key) = true ↔
      (a.patch.lookup key == b.patch.lookup key) = true := by
  have hprototype : a.prototype = b.prototype := by rw [prototype, prototype, hitem]
  unfold effective
  cases hlookup : a.patch.lookup key with
  | none =>
    cases hlookup' : b.patch.lookup key with
    | none =>
      refine iff_of_true ?_ rfl
      rw [hprototype]
      cases b.prototype.lookup key with
      | none => rfl
      | some value => exact BEq.refl (α := V) value
    | some entry =>
      refine iff_of_false (fun heq => ?_) Bool.false_ne_true
      have hne := hb.value_ne hlookup'
      rw [← hprototype] at hne
      exact Bool.false_ne_true (hne.symm.trans (option_beq_symm heq))
  | some entry =>
    cases hlookup' : b.patch.lookup key with
    | none =>
      refine iff_of_false (fun heq => ?_) Bool.false_ne_true
      have hne := ha.value_ne hlookup
      rw [hprototype] at hne
      exact Bool.false_ne_true (hne.symm.trans heq)
    | some entry' => cases entry <;> cases entry' <;> exact Iff.rfl

/-- Stacks with canonical patches are equal if their patches are. -/
theorem isSameItemSameComponents_iff (ha : a.Canonical) (hb : b.Canonical)
    (hitem : a.item = b.item) (hempty : a.isEmpty = false) (hempty' : b.isEmpty = false) :
    isSameItemSameComponents a b = true ↔ DataComponentPatch.Same a.patch b.patch := by
  have hsame : isSameItem a b = true := by
    rw [isSameItem, effectiveItem, effectiveItem, hempty, hempty', hitem]
    exact decide_eq_true rfl
  rw [isSameItemSameComponents, hsame, hempty, Bool.not_true, Bool.false_and,
    if_neg Bool.false_ne_true, if_neg Bool.false_ne_true, componentsEqual_iff]
  exact forall_congr' fun key => effective_beq_iff ha hb hitem key

end ItemStack

/-- Whatever a codec writes, it reads back as an equal value. -/
def Registries.CodecsInverse (registries : Registries V) : Prop :=
  ∀ id value bytes, (registries.dataComponents.entry id).writeNetwork value = some bytes →
    ∀ rest, ∃ value', (registries.dataComponents.entry id).readNetwork (bytes ++ rest) =
      some (value', rest) ∧ (value' == value) = true

theorem readNonNegativeVarint_write {n : ℕ} (h : n < 2 ^ 31) (name : String) (rest : List UInt8) :
    readNonNegativeVarint name (VarInt.write (Int32.ofNat n) ++ rest) = .ok (n, rest) := by
  have htoInt : (Int32.ofNat n).toInt = n := Int32.toInt_ofNat_of_lt h
  rw [readNonNegativeVarint, VarInt.read_write]
  dsimp only
  rw [if_neg, htoInt, Int.toNat_natCast]
  rw [Int32.lt_iff_toInt_lt, htoInt, Int32.toInt_zero]
  omega

omit [BEq V] in
theorem entryOfId_coe (id : Fin registries.dataComponents.size) :
    entryOfId registries id = .ok (registries.dataComponents.entry id) := by
  rw [entryOfId, RegistryOf.byId, dif_pos id.isLt]

omit [BEq V] in
theorem key_of_idOfKey {id : Fin registries.dataComponents.size}
    (h : idOfKey registries key = .ok id) : (registries.dataComponents.entry id).key = key := by
  unfold idOfKey at h
  split at h
  · cases h
    exact RegistryOf.key_of_byKey ‹_›
  · cases h

namespace DataComponentPatch

variable {chunks : List (List UInt8)}

theorem readAdded_write (hinverse : registries.CodecsInverse) {added : List (Identifier × V)}
    (h : List.Forall₂ (fun entry bytes => writeAdded registries entry = .ok bytes) added chunks)
    (hnodup : (added.map Prod.fst).Nodup) (patch : DataComponentPatch V) (rest : List UInt8) :
    ∃ patch', readAdded registries added.length patch (chunks.flatten ++ rest) =
        .ok (patch', rest) ∧
      (∀ entry ∈ added, ∃ value, patch'.lookup entry.1 = some (.set value) ∧
        (value == entry.2) = true) ∧
      ∀ key, key ∉ added.map Prod.fst → patch'.lookup key = patch.lookup key := by
  induction h generalizing patch with
  | nil => exact ⟨patch, rfl, nofun, fun _ _ => rfl⟩
  | @cons entry bytes added chunks hentry _ ih =>
    rw [map_cons, nodup_cons] at hnodup
    obtain ⟨id, hid, hbytes⟩ := bind_eq_ok.1 hentry
    split at hbytes
    · rename_i written hwritten
      cases hbytes
      obtain ⟨value, hvalue, hequal⟩ :=
        hinverse id entry.2 written hwritten (chunks.flatten ++ rest)
      obtain ⟨patch', hread, hadded, hother⟩ := ih hnodup.2 (patch.insert entry.1 (.set value))
      refine ⟨patch', ?_, ?_, ?_⟩
      · rw [length_cons, readAdded, flatten_cons, append_assoc, append_assoc,
          readNonNegativeVarint_write (id.isLt.trans_le registries.dataComponents.size_le),
          Except.ok_bind]
        dsimp only
        rw [entryOfId_coe, Except.ok_bind, hvalue, key_of_idOfKey hid]
        exact hread
      · rw [forall_mem_cons]
        refine ⟨⟨value, ?_, hequal⟩, hadded⟩
        rw [hother _ hnodup.1, lookup_insert]
      · intro key hkey
        rw [map_cons, mem_cons, not_or] at hkey
        rw [hother key hkey.2, lookup_insert_ne hkey.1]
    · cases hbytes

omit [BEq V] in
theorem readRemoved_write {removed : List Identifier}
    (h : List.Forall₂ (fun key bytes => writeRemoved registries key = .ok bytes) removed chunks)
    (patch : DataComponentPatch V) (rest : List UInt8) :
    ∃ patch', readRemoved registries removed.length patch (chunks.flatten ++ rest) =
        .ok (patch', rest) ∧
      ∀ key, patch'.lookup key = if key ∈ removed then some .removed else patch.lookup key := by
  induction h generalizing patch with
  | nil => exact ⟨patch, rfl, fun _ => rfl⟩
  | @cons key bytes removed chunks hkey _ ih =>
    obtain ⟨id, hid, hbytes⟩ := bind_eq_ok.1 hkey
    cases hbytes
    obtain ⟨patch', hread, hlookup⟩ := ih (patch.insert key .removed)
    refine ⟨patch', ?_, ?_⟩
    · rw [length_cons, readRemoved, flatten_cons, append_assoc,
        readNonNegativeVarint_write (id.isLt.trans_le registries.dataComponents.size_le),
        Except.ok_bind]
      dsimp only
      rw [entryOfId_coe, Except.ok_bind, key_of_idOfKey hid]
      exact hread
    · intro key'
      rw [hlookup]
      by_cases hmem : key' ∈ removed
      · rw [if_pos hmem, if_pos (mem_cons_of_mem _ hmem)]
      · rw [if_neg hmem]
        by_cases hkey' : key' = key
        · rw [hkey', lookup_insert, if_pos mem_cons_self]
        · rw [lookup_insert_ne hkey', if_neg fun h => (mem_cons.1 h).elim hkey' hmem]

variable {iteration : Iteration Identifier} {patch : DataComponentPatch V}

omit [BEq V] in
theorem mem_added
    {key : Identifier} {value : V} :
    (key, value) ∈ patch.added iteration ↔ patch.lookup key = some (.set value) := by
  rw [added, mem_filterMap]
  constructor
  · rintro ⟨key', -, hentry⟩
    split at hentry
    · cases hentry
      assumption
    · cases hentry
  · intro hlookup
    exact ⟨key, Iteration.mem_keys.2 (by rw [hlookup]; rfl), by rw [hlookup]⟩

omit [BEq V] in
theorem nodup_added (iteration : Iteration Identifier) (patch : DataComponentPatch V) :
    ((patch.added iteration).map Prod.fst).Nodup := by
  rw [List.Nodup, pairwise_map, added, pairwise_filterMap]
  refine (iteration.nodup_keys patch).imp fun hne entry hentry entry' hentry' heq => hne ?_
  split at hentry
  · split at hentry'
    · cases hentry
      cases hentry'
      exact heq
    · cases hentry'
  · cases hentry

omit [BEq V] in
theorem mem_removed
    {key : Identifier} : key ∈ patch.removed iteration ↔ patch.lookup key = some .removed := by
  rw [removed, mem_filter, Iteration.mem_keys, isRemoved]
  rcases patch.lookup key with _ | ⟨_ | _⟩ <;> simp

theorem read_write (hinverse : registries.CodecsInverse)
    {bytes : List UInt8}
    (h : patch.write registries iteration = .ok bytes) (rest : List UInt8) :
    ∃ patch', read registries (bytes ++ rest) = .ok (patch', rest) ∧ Same patch' patch := by
  unfold write at h
  dsimp only at h
  split_ifs at h with hadded hremoved
  obtain ⟨addedBytes, haddedBytes, h⟩ := bind_eq_ok.1 h
  obtain ⟨removedBytes, hremovedBytes, h⟩ := bind_eq_ok.1 h
  cases h
  obtain ⟨set, hread, hset, hother⟩ := readAdded_write hinverse (mapM_eq_ok.1 haddedBytes)
    (nodup_added iteration patch) ∅ (removedBytes.flatten ++ rest)
  obtain ⟨result, hread', hlookup⟩ := readRemoved_write (mapM_eq_ok.1 hremovedBytes) set rest
  refine ⟨result, ?_, fun key => ?_⟩
  · simp only [append_assoc]
    rw [read, readNonNegativeVarint_write (not_le.1 hadded), Except.ok_bind]
    dsimp only
    rw [readNonNegativeVarint_write (not_le.1 hremoved), Except.ok_bind]
    dsimp only
    rw [hread, Except.ok_bind]
    exact hread'
  · rw [hlookup]
    cases hentry : patch.lookup key with
    | none =>
      have hnotRemoved : key ∉ patch.removed iteration := fun hmem => by
        cases (mem_removed.1 hmem).symm.trans hentry
      have hnotAdded : key ∉ (patch.added iteration).map Prod.fst := by
        intro hmem
        obtain ⟨⟨key', value⟩, hadded, rfl⟩ := mem_map.1 hmem
        cases (mem_added.1 hadded).symm.trans hentry
      rw [if_neg hnotRemoved, hother key hnotAdded]
      rfl
    | some entry =>
      cases entry with
      | removed =>
        rw [if_pos (mem_removed.2 hentry)]
        rfl
      | set value =>
        have hnotRemoved : key ∉ patch.removed iteration := fun hmem => by
          cases (mem_removed.1 hmem).symm.trans hentry
        obtain ⟨value', hvalue, hequal⟩ := hset (key, value) (mem_added.2 hentry)
        rw [if_neg hnotRemoved, hvalue]
        exact hequal

end DataComponentPatch

namespace ItemStack

variable {stack : ItemStack registries} [EquivBEq V]

theorem lookup_sanitizeAgainst_of_same {prototype : DataComponentMap V}
    {patch result : DataComponentPatch V} (h : DataComponents.Canonical prototype patch)
    (hsame : DataComponentPatch.Same result patch) (key : Identifier) :
    (result.sanitizeAgainst prototype).lookup key = result.lookup key := by
  refine Option.ext fun entry => ?_
  rw [DataComponentPatch.lookup_sanitizeAgainst]
  refine and_iff_left_of_imp fun hentry => ?_
  have heq := hsame key
  rw [hentry] at heq
  cases hlookup : patch.lookup key with
  | none =>
    rw [hlookup] at heq
    cases heq
  | some original =>
    rw [hlookup] at heq
    cases entry with
    | removed =>
      cases original with
      | removed => exact h.removed key hlookup
      | set value => cases heq
    | set value' =>
      cases original with
      | removed => cases heq
      | set value =>
        have hne := h.set key value hlookup
        rw [DataComponentPatch.retains, bne, Bool.not_eq_true']
        cases hdefault : prototype.lookup key with
        | none => rfl
        | some default =>
          rw [hdefault] at hne
          rw [Bool.eq_false_iff]
          intro hdefault'
          have htrans : (default == value) = true :=
            BEq.trans (α := V) (b := value') hdefault' heq
          exact Bool.false_ne_true (hne.symm.trans htrans)

omit [EquivBEq V] in
theorem matchesStack_of_isEmpty {a b : ItemStack registries} (ha : a.isEmpty = true)
    (hb : b.isEmpty = true) : matchesStack a b = true := by
  have hsame : isSameItem a b = true := by
    rw [isSameItem, effectiveItem, effectiveItem, ha, hb]
    exact decide_eq_true rfl
  rw [matchesStack, effectiveCount, effectiveCount, isSameItemSameComponents, hsame, ha, hb]
  rfl

/-- A stack is read back from what has been written of it. -/
theorem read_write (h : stack.Canonical) (hinverse : registries.CodecsInverse)
    {iteration : Iteration Identifier} {bytes : List UInt8}
    (hwrite : stack.write iteration = .ok bytes) (rest : List UInt8) :
    ∃ stack', read registries (bytes ++ rest) = .ok (stack', rest) ∧
      matchesStack stack stack' = true ∧
      (stack.isEmpty = false → stack'.item = stack.item ∧ stack'.count = stack.count ∧
        DataComponentPatch.Same stack.patch stack'.patch) := by
  unfold write at hwrite
  cases hempty : stack.isEmpty with
  | true =>
    rw [hempty, if_pos rfl] at hwrite
    cases hwrite
    refine ⟨empty, ?_, matchesStack_of_isEmpty hempty ?_, nofun⟩
    · rw [read, VarInt.read_write]
      rfl
    · rw [isEmpty, empty, decide_eq_true rfl]
      rfl
  | false =>
    rw [hempty, if_neg Bool.false_ne_true] at hwrite
    obtain ⟨patchBytes, hpatch, hwrite⟩ := bind_eq_ok.1 hwrite
    cases hwrite
    obtain ⟨result, hread, hsame⟩ := DataComponentPatch.read_write hinverse hpatch rest
    have hcount : ¬ stack.count ≤ 0 := by
      rw [isEmpty, Bool.or_eq_false_iff, decide_eq_false_iff_not, decide_eq_false_iff_not] at hempty
      exact hempty.2
    have hsame' : DataComponentPatch.Same stack.patch
        (withCountAndPatch stack.item stack.count result).patch := by
      intro key
      have hlookup := lookup_sanitizeAgainst_of_same h hsame key
      rw [withCountAndPatch, show (registries.items.entry stack.item).components = stack.prototype
        from rfl, hlookup]
      exact entry_beq_symm (hsame key)
    refine ⟨withCountAndPatch stack.item stack.count result, ?_, ?_, fun _ => ⟨rfl, rfl, hsame'⟩⟩
    · rw [read, append_assoc, append_assoc, VarInt.read_write]
      dsimp only
      rw [if_neg hcount,
        readNonNegativeVarint_write (stack.item.isLt.trans_le registries.items.size_le),
        Except.ok_bind]
      dsimp only
      rw [RegistryOf.byId, dif_pos stack.item.isLt]
      dsimp only
      rw [hread]
      rfl
    · have hempty' : (withCountAndPatch stack.item stack.count result).isEmpty = false := hempty
      have hcanonical' : (withCountAndPatch stack.item stack.count result).Canonical :=
        canonical_sanitizeAgainst _ _
      rw [matchesStack, effectiveCount, effectiveCount, hempty, hempty',
        (isSameItemSameComponents_iff h hcanonical' rfl hempty hempty').2 hsame', Bool.and_true]
      exact decide_eq_true (p := stack.count = stack.count) rfl

/-- The components of the patch are registered, and their codecs write their values. -/
structure Writable {V : Type} {registries : Registries V} (stack : ItemStack registries) :
    Prop where
  registered : ∀ key entry, stack.patch.lookup key = some entry →
    ∃ id, registries.dataComponents.byKey ComponentEntry.key key = some id ∧
      ∀ value, entry = .set value →
        ((registries.dataComponents.entry id).writeNetwork value).isSome = true
  size : stack.patch.keys.length < 2 ^ 31

omit [EquivBEq V] [BEq V] in
theorem Writable.exists_write (h : stack.Writable) (iteration : Iteration Identifier) :
    ∃ bytes, stack.write iteration = .ok bytes := by
  have hkeys : (iteration.keys stack.patch).length < 2 ^ 31 :=
    (iteration.perm stack.patch.keys).length_eq.trans_lt h.size
  have hmapM : ∀ {α : Type} {f : α → Except ComponentError (List UInt8)} (l : List α),
      (∀ a ∈ l, ∃ bytes, f a = .ok bytes) → ∃ chunks, l.mapM f = .ok chunks := by
    intro α f l hl
    induction l with
    | nil => exact ⟨[], rfl⟩
    | cons a l ih =>
      rw [forall_mem_cons] at hl
      obtain ⟨⟨bytes, hbytes⟩, hrest⟩ := hl
      obtain ⟨chunks, hchunks⟩ := ih hrest
      exact ⟨bytes :: chunks, by rw [mapM_cons, hbytes, hchunks]; rfl⟩
  have hid : ∀ key entry, stack.patch.lookup key = some entry →
      ∃ id, idOfKey registries key = .ok id ∧ ∀ value, entry = .set value →
        ((registries.dataComponents.entry id).writeNetwork value).isSome = true := by
    intro key entry hentry
    obtain ⟨id, hid, hvalue⟩ := h.registered key entry hentry
    exact ⟨id, by rw [idOfKey, hid], hvalue⟩
  obtain ⟨addedBytes, hadded⟩ : ∃ chunks,
      (stack.patch.added iteration).mapM (writeAdded registries) = .ok chunks := by
    refine hmapM _ fun entry hentry => ?_
    obtain ⟨id, hid, hvalue⟩ := hid entry.1 _ (DataComponentPatch.mem_added.1 hentry)
    obtain ⟨bytes, hbytes⟩ := Option.isSome_iff_exists.1 (hvalue entry.2 rfl)
    exact ⟨_, by rw [writeAdded, hid, Except.ok_bind, hbytes]⟩
  obtain ⟨removedBytes, hremoved⟩ : ∃ chunks,
      (stack.patch.removed iteration).mapM (writeRemoved registries) = .ok chunks := by
    refine hmapM _ fun key hkey => ?_
    obtain ⟨id, hid, -⟩ := hid key _ (DataComponentPatch.mem_removed.1 hkey)
    exact ⟨_, by rw [writeRemoved, hid, Except.ok_bind]⟩
  have hpatch : ∃ bytes, stack.patch.write registries iteration = .ok bytes := by
    have haddedSize : (stack.patch.added iteration).length < 2 ^ 31 :=
      (length_filterMap_le _ _).trans_lt hkeys
    have hremovedSize : (stack.patch.removed iteration).length < 2 ^ 31 :=
      (length_filter_le _ _).trans_lt hkeys
    unfold DataComponentPatch.write
    rw [if_neg (not_le.2 haddedSize), if_neg (not_le.2 hremovedSize), hadded, Except.ok_bind,
      hremoved]
    exact ⟨_, rfl⟩
  obtain ⟨bytes, hbytes⟩ := hpatch
  unfold write
  split_ifs
  · exact ⟨_, rfl⟩
  · exact ⟨_, by rw [hbytes]; rfl⟩

/-- Whatever is done to a stack, its patch is canonical, so that stacks of one item are the same if
their patches are. The components are those of the prototype, overridden by the patch, and a stack
that can be written is read back from exactly the bytes that were written. -/
theorem Obtained.stays_canonical (hobtained : stack.Obtained)
    (hinverse : registries.CodecsInverse) :
    stack.Canonical ∧
    (∀ other : ItemStack registries, other.Obtained → stack.item = other.item →
      stack.isEmpty = false → other.isEmpty = false →
      (isSameItemSameComponents stack other = true ↔
        DataComponentPatch.Same stack.patch other.patch)) ∧
    (∀ key, stack.hasComponent key = (stack.effective key).isSome ∧
      ∀ (T : Type) (downcast : V → Option T),
        stack.get key downcast = (stack.effective key).bind downcast) ∧
    (∀ (iteration : Iteration Identifier) (bytes rest : List UInt8),
      stack.write iteration = .ok bytes →
      ∃ stack', ItemStack.read registries (bytes ++ rest) = .ok (stack', rest) ∧
        matchesStack stack stack' = true ∧
        (stack.isEmpty = false → stack'.item = stack.item ∧ stack'.count = stack.count ∧
          DataComponentPatch.Same stack.patch stack'.patch)) ∧
    (stack.Writable → ∀ iteration, ∃ bytes, stack.write iteration = .ok bytes) := by
  have h := hobtained.canonical
  refine ⟨h, ?_, ?_, ?_, ?_⟩
  · exact fun other hother hitem hempty hempty' =>
      isSameItemSameComponents_iff h hother.canonical hitem hempty hempty'
  · exact fun key => ⟨hasComponent_eq key, fun T downcast => by rw [get, getEffectiveValueRaw_eq]⟩
  · exact fun iteration bytes rest hwrite => read_write h hinverse hwrite rest
  · exact fun hwritable iteration => hwritable.exists_write iteration

/-- Air and stone, with one component whose values are single bytes. -/
def airAndStone : Registries UInt8 where
  items := ⟨2, fun i => if i = 0 then ⟨⟨"minecraft", "air"⟩, ∅⟩ else
    ⟨⟨"minecraft", "stone"⟩, .singleton ⟨"minecraft", "rarity"⟩ 1⟩, by decide⟩
  air := 0
  dataComponents := ⟨1, fun _ => ⟨⟨"minecraft", "rarity"⟩, fun value => some [value], fun bytes =>
    match bytes with
    | [] => none
    | value :: rest => some (value, rest)⟩, by decide⟩

def stone : Fin airAndStone.items.size := (1 : Fin 2)

theorem Obtained.stays_canonical_bareStone :
    let rarity : Identifier := ⟨"minecraft", "rarity"⟩
    let rare := (ItemStack.new stone).set rarity 3
    let bare := rare.remove rarity
    bare.Canonical ∧
    (isSameItemSameComponents bare rare = true ↔ DataComponentPatch.Same bare.patch rare.patch) ∧
    (bare.hasComponent rarity = (bare.effective rarity).isSome ∧
      bare.get rarity some = (bare.effective rarity).bind some) ∧
    ∀ iteration, ∃ bytes, bare.write iteration = .ok bytes ∧
      ∃ stack', ItemStack.read airAndStone bytes = .ok (stack', []) ∧
        matchesStack bare stack' = true := by
  intro rarity rare bare
  have hrare : rare.Obtained := .set (.new stone) _ _
  obtain ⟨hcanonical, hsame, hget, hread, hwrite⟩ :=
    Obtained.stays_canonical (hrare.remove rarity) fun id value bytes hwrite rest => by
      cases hwrite
      exact ⟨value, rfl, BEq.refl value⟩
  have hwritable : bare.Writable := by
    refine ⟨fun key entry hentry => ?_, by decide⟩
    have hpatch : bare.patch = AList.singleton rarity .removed := rfl
    rw [hpatch, ← insert_empty] at hentry
    by_cases hkey : key = rarity
    · subst hkey
      rw [lookup_insert] at hentry
      cases hentry
      exact ⟨(0 : Fin 1), by decide, nofun⟩
    · rw [lookup_insert_ne hkey] at hentry
      cases hentry
  refine ⟨hcanonical, hsame rare hrare rfl (by decide) (by decide),
    ⟨(hget rarity).1, (hget rarity).2 UInt8 some⟩, fun iteration => ?_⟩
  obtain ⟨bytes, hbytes⟩ := hwrite hwritable iteration
  obtain ⟨stack', hstack, hmatches, -⟩ := hread iteration bytes [] hbytes
  rw [append_nil] at hstack
  exact ⟨bytes, hbytes, stack', hstack, hmatches⟩

end ItemStack

end DataComponents

end Steel
