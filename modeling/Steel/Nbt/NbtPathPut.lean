import Steel.Nbt.NbtPathGet

/-! # Going through a node and back

A node selects parts of a value, creates one where it can, and puts changed parts back.
-/

namespace Steel

open List NbtTag Bool
open NbtPathNode (deadEnd getOne select)

def HasNoArray (tag : NbtTag) : Prop :=
  ∀ part, NbtTag.Part part tag → (∀ values, part ≠ .byteArray values) ∧
    (∀ values, part ≠ .intArray values) ∧ ∀ values, part ≠ .longArray values

/-- The values that can be gone through: there are no arrays, and no wrappers in lists. -/
structure Plain (tag : NbtTag) : Prop where
  noArray : HasNoArray tag
  noWrapper : ∀ kind values, NbtTag.Part (.list kind values) tag →
    ∀ element ∈ listValues values, ¬ element.IsWrapper

variable {kind : NbtKind} {values news : List NbtTag} {entries : NbtCompound} {name : List Char}
  {tag child new : NbtTag}

theorem Plain.of_mem_listValues {value : NbtTag} (h : Plain (.list kind values))
    (hmem : value ∈ listValues values) : Plain value where
  noArray part hpart := h.noArray part (hpart.of_mem_listValues hmem)
  noWrapper kind' values' hpart := h.noWrapper kind' values' (hpart.of_mem_listValues hmem)

theorem Plain.of_get {value : NbtTag} (h : Plain (.compound entries))
    (hget : NbtCompound.get entries name = some value) :
    Plain value where
  noArray part hpart := h.noArray part (.compound (mem_of_get hget) hpart)
  noWrapper kind values hpart := h.noWrapper kind values (.compound (mem_of_get hget) hpart)

def IsCreated (tag : NbtTag) : Prop := tag = .compound [] ∨ tag = .list .empty []

theorem isCreated_createPreferredParentTag (node : NbtPathNode) :
    IsCreated node.createPreferredParentTag := by
  cases node <;> simp [NbtPathNode.createPreferredParentTag, IsCreated]

theorem IsCreated.not_isWrapper (h : IsCreated tag) : ¬ tag.IsWrapper := by
  rintro ⟨value, rfl⟩
  rcases h with h | h <;> cases h

theorem IsCreated.plain (h : IsCreated tag) : Plain tag := by
  constructor
  · intro part hpart
    rcases h with rfl | rfl
    · cases hpart with
      | refl => exact ⟨nofun, nofun, nofun⟩
      | compound hmem _ => cases hmem
    · cases hpart with
      | refl => exact ⟨nofun, nofun, nofun⟩
      | list _ hmem _ => cases hmem
  · intro kind values hpart
    rcases h with rfl | rfl
    · cases hpart with
      | compound hmem _ => cases hmem
    · cases hpart with
      | refl => simp [listValues]
      | list _ hmem _ => cases hmem

theorem IsCreated.child?_eq_none (h : IsCreated tag) (step : PathStep) :
    tag.child? step = none := by
  rcases h with rfl | rfl <;> cases step <;> rfl

/-- What holds of a value after new parts have been put in the place of those that a node goes
through. -/
structure PutSpec (node : NbtPathNode) (child tag : NbtTag) (parts news : List NbtTag)
    (after : NbtTag) : Prop where
  get : node.getOne after = news
  again : (node.select child after).parts = news
  put : (node.select child after).put news = after
  frame : ∀ step, ¬ node.GoesThrough (some tag) step → after.child? step = tag.child? step
  through : ∀ step, node.GoesThrough (some tag) step →
    (after.child? step = none ∧ tag.child? step = none) ∨
    ∃ part new, (part, new) ∈ parts.zip news ∧ after.child? step = some new ∧
      (tag.child? step = some part ∨ (tag.child? step = none ∧ part = child))
  same : after.same tag = true →
    after = tag ∧ List.Forall₂ (fun part new => same new part = true) parts news
  notWrapper : node ≠ .compoundChild [] → ¬ tag.IsWrapper → ¬ after.IsWrapper

section Key

variable {compound : NbtCompound} {name : List Char} {tag new : NbtTag}

theorem get_cons (entry : Mutf8String × NbtTag) (compound : NbtCompound) (name : List Char) :
    NbtCompound.get (entry :: compound) name =
      if entry.1 = .text name then some entry.2 else NbtCompound.get compound name := by
  by_cases h : entry.1 = .text name <;> simp [NbtCompound.get, h]

theorem get_set_self (h : NbtCompound.get compound name = some tag) :
    NbtCompound.get (NbtCompound.set compound name new) name = some new := by
  induction compound with
  | nil => cases h
  | cons entry compound ih =>
    rw [get_cons] at h
    rw [NbtCompound.set]
    split_ifs at h ⊢ with hkey
    · rw [get_cons, if_pos hkey]
    · rw [get_cons, if_neg hkey, ih h]

theorem get_set_of_ne {name' : List Char} (hne : name' ≠ name) :
    NbtCompound.get (NbtCompound.set compound name new) name' = NbtCompound.get compound name' := by
  induction compound with
  | nil => rfl
  | cons entry compound ih =>
    rw [NbtCompound.set, get_cons]
    split_ifs with hkey hkey'
    · simp [hkey, hne.symm] at hkey'
    · rw [get_cons, if_neg hkey']
    · rw [get_cons, if_pos ‹_›]
    · rw [get_cons, if_neg ‹_›, ih]

theorem set_set : NbtCompound.set (NbtCompound.set compound name tag) name new =
    NbtCompound.set compound name new := by
  induction compound with
  | nil => rfl
  | cons entry compound ih =>
    rw [NbtCompound.set]
    split_ifs with hkey
    · simp [NbtCompound.set, hkey]
    · simp [NbtCompound.set, hkey, ih]

theorem set_get (h : NbtCompound.get compound name = some tag) :
    NbtCompound.set compound name tag = compound := by
  induction compound with
  | nil => rfl
  | cons entry compound ih =>
    rw [get_cons] at h
    rw [NbtCompound.set]
    split_ifs at h ⊢ with hkey
    · rw [← Option.some.inj h]
    · rw [ih h]

theorem same_of_sameEntries_set (h : NbtCompound.get compound name = some tag)
    (hsame : sameEntries (NbtCompound.set compound name new) compound = true) :
    new.same tag = true := by
  induction compound with
  | nil => cases h
  | cons entry compound ih =>
    rw [get_cons] at h
    rw [NbtCompound.set] at hsame
    split_ifs at h hsame with hkey
    · rw [sameEntries, and_eq_true, and_eq_true] at hsame
      rw [← Option.some.inj h]
      exact hsame.1.2
    · rw [sameEntries, and_eq_true] at hsame
      exact ih h hsame.2

theorem contains_eq_isSome : compound.contains name = (NbtCompound.get compound name).isSome := by
  induction compound with
  | nil => rfl
  | cons entry compound ih =>
    rw [get_cons]
    rw [NbtCompound.contains] at ih ⊢
    split_ifs with hkey
    · simp [hkey]
    · simp [hkey, ← ih]

theorem get_insert (h : NbtCompound.get compound name = none) (name' : List Char) :
    NbtCompound.get (NbtCompound.insert compound name new) name' =
      if name' = name then some new else NbtCompound.get compound name' := by
  induction compound with
  | nil =>
    rw [NbtCompound.insert, nil_append, get_cons]
    simp [eq_comm, NbtCompound.get]
  | cons entry compound ih =>
    rw [get_cons] at h
    split_ifs at h with hkey
    rw [NbtCompound.insert] at ih
    rw [NbtCompound.insert, cons_append, get_cons, get_cons, ih h]
    by_cases hname : name' = name
    · simp [hname, hkey]
    · simp [hname]

theorem set_append_of_get_eq_none (h : NbtCompound.get compound name = none) :
    NbtCompound.set (NbtCompound.insert compound name tag) name new =
      NbtCompound.insert compound name new := by
  induction compound with
  | nil => simp [NbtCompound.insert, NbtCompound.set]
  | cons entry compound ih =>
    rw [get_cons] at h
    split_ifs at h with hkey
    rw [NbtCompound.insert] at ih
    rw [NbtCompound.insert, cons_append, NbtCompound.set, if_neg hkey, ih h]
    rfl

theorem length_eq_of_sameEntries {lefts rights : NbtCompound}
    (h : sameEntries lefts rights = true) : lefts.length = rights.length := by
  induction lefts generalizing rights with
  | nil =>
    cases rights with
    | nil => rfl
    | cons right rights => simp [sameEntries] at h
  | cons left lefts ih =>
    cases rights with
    | nil => simp [sameEntries] at h
    | cons right rights =>
      rw [sameEntries, and_eq_true] at h
      rw [length_cons, length_cons, ih h.2]

end Key

theorem not_isWrapper_of_get (h : NbtCompound.get entries name = some tag) (hname : name ≠ []) :
    ¬ (compound entries).IsWrapper := by
  rintro ⟨value, heq⟩
  obtain rfl := compound.inj heq
  rw [get_cons, if_neg (by simpa using hname.symm)] at h
  cases h

theorem select_compoundChild_of_get (h : NbtCompound.get entries name = some tag) (child : NbtTag) :
    (NbtPathNode.compoundChild name).select child (.compound entries) =
      ⟨[tag], fun parts => .compound (NbtCompound.set entries name (parts.headD tag))⟩ := by
  have hcontains : entries.contains name = true := by
    rw [contains_eq_isSome, h]
    rfl
  simp [select, ensureCompoundChild, hcontains, h]

/-- What the entries are after the value under a key has been replaced or added. -/
theorem putSpec_key {entries' : NbtCompound} {part : NbtTag}
    (hget : NbtCompound.get entries' name = some new)
    (hset : NbtCompound.set entries' name new = entries')
    (hother : ∀ name', name' ≠ name →
      NbtCompound.get entries' name' = NbtCompound.get entries name')
    (hpart : NbtCompound.get entries name = some part ∨
      (NbtCompound.get entries name = none ∧ part = child))
    (hsame : sameEntries entries' entries = true →
      entries' = entries ∧ new.same part = true) :
    PutSpec (.compoundChild name) child (.compound entries) [part] [new] (.compound entries') where
  get := by simp [getOne, hget]
  again := by rw [select_compoundChild_of_get hget]
  put := by simp [select_compoundChild_of_get hget, hset]
  frame := by
    rintro (name' | index) hstep
    · exact hother name' hstep
    · rfl
  through := by
    rintro (name' | index) hstep
    · obtain rfl : name' = name := hstep
      exact .inr ⟨part, new, by simp, hget, hpart⟩
    · cases hstep
  same := by
    intro h
    obtain ⟨rfl, hnew⟩ := hsame h
    exact ⟨rfl, .cons hnew .nil⟩
  notWrapper := by
    intro hname _
    exact not_isWrapper_of_get hget fun h => hname (by rw [h])

theorem putSpec_compoundChild (child : NbtTag) :
    ∃ part, ((NbtPathNode.compoundChild name).select child (.compound entries)).parts = [part] ∧
      (NbtCompound.get entries name = some part ∨
        (NbtCompound.get entries name = none ∧ part = child)) ∧
      ∀ new, (new.same part = true → new = part) →
        PutSpec (.compoundChild name) child (.compound entries) [part] [new]
          (((NbtPathNode.compoundChild name).select child (.compound entries)).put [new]) := by
  cases hget : NbtCompound.get entries name with
  | some tag =>
    rw [select_compoundChild_of_get hget]
    refine ⟨tag, rfl, .inl rfl, fun new hnew => ?_⟩
    refine putSpec_key (get_set_self hget) set_set (fun _ => get_set_of_ne) (.inl hget) ?_
    intro hsame
    have hsame' := same_of_sameEntries_set hget hsame
    obtain rfl := hnew hsame'
    exact ⟨set_get hget, hsame'⟩
  | none =>
    have hcontains : entries.contains name = false := by
      rw [contains_eq_isSome, hget]
      rfl
    have hcreated : NbtCompound.get (NbtCompound.insert entries name child) name = some child := by
      rw [get_insert hget, if_pos rfl]
    have hselect : (NbtPathNode.compoundChild name).select child (.compound entries) =
        ⟨[child], fun parts => .compound
          (NbtCompound.set (NbtCompound.insert entries name child) name (parts.headD child))⟩ := by
      simp [select, ensureCompoundChild, hcontains, hcreated]
    rw [hselect]
    refine ⟨child, rfl, .inr ⟨rfl, rfl⟩, fun new _ => ?_⟩
    have hput : NbtCompound.set (NbtCompound.insert entries name child) name new =
        NbtCompound.insert entries name new := set_append_of_get_eq_none hget
    have hafter : NbtCompound.get (NbtCompound.insert entries name new) name = some new := by
      rw [get_insert hget, if_pos rfl]
    dsimp only [headD_cons]
    rw [hput]
    refine putSpec_key hafter (set_get hafter) ?_ (.inr ⟨hget, rfl⟩) ?_
    · intro name' hname
      rw [get_insert hget, if_neg hname]
    · intro hsame
      have hlength := length_eq_of_sameEntries hsame
      simp [NbtCompound.insert] at hlength

theorem anyChanged_eq_false {before after : List NbtTag} (hlength : after.length = before.length) :
    anyChanged before after = false ↔
      List.Forall₂ (fun before after => same after before = true) before after := by
  induction before generalizing after with
  | nil =>
    obtain rfl := length_eq_zero_iff.1 hlength
    simp [anyChanged]
  | cons part before ih =>
    cases after with
    | nil => cases hlength
    | cons new after =>
      have ih := ih (Nat.succ.inj hlength)
      simp only [anyChanged] at ih
      simp [anyChanged, id, ih]

theorem eq_of_forall₂_same {parts : List NbtTag}
    (heq : List.Forall₂ (fun part new => same new part = true → new = part) parts news)
    (hsame : List.Forall₂ (fun part new => same new part = true) parts news) :
    news = parts := by
  induction heq with
  | nil => rfl
  | cons hhead _ ih =>
    rw [forall₂_cons] at hsame
    rw [hhead hsame.1, ih hsame.2]

theorem writtenBack_anyChanged (hlength : news.length = (listValues values).length)
    (heq : List.Forall₂ (fun part new => same new part = true → new = part)
      (listValues values) news) (hwrapper : ∀ new ∈ news, ¬ new.IsWrapper) :
    NbtTag.WrittenBack kind values news (anyChanged (listValues values) news) where
  notWrapper := hwrapper
  unchanged h := eq_of_forall₂_same heq ((anyChanged_eq_false hlength).1 h)
  changed h hsame := by
    rw [(anyChanged_eq_false hlength).2 hsame.flip] at h
    cases h

theorem select_allElements (hne : values ≠ []) (child : NbtTag) :
    NbtPathNode.allElements.select child (.list kind values) =
      ⟨listValues values, fun parts =>
        if anyChanged (listValues values) parts then listOf parts
        else .list kind values⟩ := by
  have hlen : values.length ≠ 0 := fun h => hne (length_eq_zero_iff.1 h)
  simp [select, ensureNonEmptyCollection, collectionLen, hlen,
    collectionElements, replaceCollection]

theorem exists_zip_getElem? {parts : List NbtTag} (hlength : news.length = parts.length)
    (index : ℕ) :
    (news[index]? = none ∧ parts[index]? = none) ∨
      ∃ part new, (part, new) ∈ parts.zip news ∧ news[index]? = some new ∧
        parts[index]? = some part := by
  by_cases hindex : index < parts.length
  · have hindex' : index < news.length := by omega
    refine .inr ⟨parts[index], news[index], ?_, List.getElem?_eq_getElem hindex',
      List.getElem?_eq_getElem hindex⟩
    rw [mem_iff_getElem]
    exact ⟨index, by rw [length_zip]; omega, getElem_zip⟩
  · refine .inl ⟨?_, ?_⟩ <;> rw [List.getElem?_eq_none_iff] <;> omega

theorem putSpec_allElements_of_ne (hne : values ≠ []) (child : NbtTag)
    (hlength : news.length = (listValues values).length)
    (heq : List.Forall₂ (fun part new => same new part = true → new = part)
      (listValues values) news) (hwrapper : ∀ new ∈ news, ¬ new.IsWrapper) :
    ∃ kind' values', (NbtPathNode.allElements.select child (.list kind values)).put news =
        .list kind' values' ∧ listValues values' = news ∧
      PutSpec .allElements child (.list kind values) (listValues values) news
        (.list kind' values') := by
  have hback : NbtTag.WrittenBack kind values news (anyChanged (listValues values) news) :=
    writtenBack_anyChanged hlength heq hwrapper
  obtain ⟨kind', values', hafter, hvalues'⟩ := hback.exists_list
  have hne' : values' ≠ [] := by
    rintro rfl
    rw [← hvalues'] at hlength
    simp only [listValues, map_nil, length_nil, length_map] at hlength
    exact hne (length_eq_zero_iff.1 hlength.symm)
  rw [select_allElements hne]
  refine ⟨kind', values', hafter, hvalues', ?_⟩
  constructor
  · exact hvalues'
  · rw [select_allElements hne']
    exact hvalues'
  · rw [select_allElements hne', hvalues']
    rw [← hafter]
    refine NbtTag.WrittenBack.again fun hunchanged => ?_
    have hsame := (anyChanged_eq_false hlength).1 hunchanged
    rw [hback.unchanged hunchanged] at hsame ⊢
    exact (anyChanged_eq_false rfl).2 hsame
  · rintro (name | index) hstep
    · rfl
    · exact absurd trivial hstep
  · rintro (name | index) hstep
    · cases hstep
    · change ((listValues values')[index]? = none ∧ _) ∨ ∃ part new, _ ∧
        (listValues values')[index]? = some new ∧ _
      rw [hvalues']
      rcases exists_zip_getElem? hlength index with h | ⟨part, new, hmem, hnew, hpart⟩
      · exact .inl h
      · exact .inr ⟨part, new, hmem, hnew, .inl hpart⟩
  · intro hsame
    rw [← hafter] at hsame
    obtain ⟨hunchanged, hall⟩ := hback.eq_of_same hsame
    refine ⟨?_, hall.flip⟩
    rw [← hafter, hunchanged, if_neg Bool.false_ne_true]
  · rintro _ _ ⟨value, heq⟩
    cases heq

theorem putSpec_allElements_nil (hchild : ¬ child.IsWrapper)
    (heq : new.same child = true → new = child) (hwrapper : ¬ new.IsWrapper) :
    (NbtPathNode.allElements.select child (.list kind [])).parts = [child] ∧
      ∃ kind' values', (NbtPathNode.allElements.select child (.list kind [])).put [new] =
          .list kind' values' ∧
        PutSpec .allElements child (.list kind []) [child] [new] (.list kind' values') := by
  have hvalues : listValues [child] = [child] := by
    rw [listValues, map_singleton, unwrapListWrapper_of_not hchild]
  have hselect : NbtPathNode.allElements.select child (.list kind []) =
      NbtPathNode.allElements.select child (.list child.kind [child]) := by
    simp [select, ensureNonEmptyCollection, collectionLen,
      addCollectionElement, listValues, listOf, collectionElements,
      replaceCollection]
  obtain ⟨kind', values', hput, hvalues', hspec⟩ := @putSpec_allElements_of_ne child.kind [child]
    [new] (cons_ne_nil _ _) child (by rw [hvalues]; rfl)
    (by rw [hvalues]; exact .cons heq .nil) (by simpa using hwrapper)
  rw [hselect]
  refine ⟨?_, kind', values', hput, ?_⟩
  · rw [select_allElements (cons_ne_nil _ _)]
    exact hvalues
  constructor
  · exact hspec.get
  · exact hspec.again
  · exact hspec.put
  · rintro (name | index) hstep
    · rfl
    · exact absurd trivial hstep
  · rintro (name | index) hstep
    · cases hstep
    · change ((listValues values')[index]? = none ∧ _) ∨ ∃ part new, _ ∧
        (listValues values')[index]? = some new ∧ _
      rw [hvalues']
      cases index with
      | zero => exact .inr ⟨child, new, mem_cons_self, rfl, .inr ⟨rfl, rfl⟩⟩
      | succ index => exact .inl ⟨rfl, rfl⟩
  · intro hsame
    have hall := forall₂_same_of_list hsame
    rw [hvalues'] at hall
    cases hall
  · rintro _ _ ⟨value, heq⟩
    cases heq

theorem rel_of_forall₂ {α β : Type} {R : α → β → Prop} {l : List α} {l' : List β}
    (h : List.Forall₂ R l l') {index : ℕ} {a : α} {b : β} (ha : l[index]? = some a)
    (hb : l'[index]? = some b) : R a b := by
  induction h generalizing index with
  | nil => cases ha
  | cons hab _ ih =>
    cases index with
    | zero =>
      cases ha
      cases hb
      exact hab
    | succ index => exact ih ha hb

section

variable {index : Int32} {actualIndex : ℕ} {before : NbtTag} (hindex :
    actualCollectionIndex (listValues values).length index = some actualIndex)
  (hbefore : (listValues values)[actualIndex]? = some before)

include hindex hbefore

theorem select_indexedElement (child : NbtTag) :
    (NbtPathNode.indexedElement index).select child (.list kind values) = ⟨[before], fun parts =>
        if anyChanged [before] parts then
          listOf ((listValues values).set actualIndex (parts.headD before))
        else .list kind values⟩ := by
  simp [select, collectionElements, hindex, hbefore, replaceCollection]

theorem putSpec_indexedElement (child : NbtTag) (heq : new.same before = true → new = before)
    (hplain : ∀ element ∈ listValues values, ¬ element.IsWrapper)
    (hwrapper : ¬ new.IsWrapper) :
    ∃ kind' values',
      ((NbtPathNode.indexedElement index).select child (.list kind values)).put [new] =
        .list kind' values' ∧
      PutSpec (.indexedElement index) child (.list kind values) [before] [new]
        (.list kind' values') := by
  obtain ⟨hlt, hgetElem⟩ := List.getElem?_eq_some_iff.1 hbefore
  have hset : (listValues values).set actualIndex before = listValues values := by
    rw [← hgetElem, set_getElem_self]
  have hchanged : anyChanged [before] [new] = !new.same before := by
    simp [anyChanged]
  have hback : NbtTag.WrittenBack kind values ((listValues values).set actualIndex new)
      (!new.same before) := by
    constructor
    · intro element helement
      rcases mem_or_eq_of_mem_set helement with hmem | rfl
      · exact hplain element hmem
      · exact hwrapper
    · intro h
      rw [heq (by simpa using h), hset]
    · intro h hall
      have hsame := rel_of_forall₂ hall (List.getElem?_set_self hlt) hbefore
      rw [hsame] at h
      cases h
  obtain ⟨kind', values', hafter, hvalues'⟩ := hback.exists_list
  have hindex' : actualCollectionIndex (listValues values').length index =
      some actualIndex := by
    rw [hvalues', length_set, hindex]
  have hbefore' : (listValues values')[actualIndex]? = some new := by
    rw [hvalues', List.getElem?_set_self hlt]
  rw [select_indexedElement hindex hbefore]
  refine ⟨kind', values', ?_, ?_⟩
  · dsimp only
    rw [hchanged]
    exact hafter
  constructor
  · simp [getOne, collectionElementsOrEmpty, collectionElements, indexedElement,
      hindex', hbefore']
  · rw [select_indexedElement hindex' hbefore']
  · rw [select_indexedElement hindex' hbefore', hvalues']
    dsimp only [headD_cons]
    rw [List.set_set, ← hafter]
    refine NbtTag.WrittenBack.again fun hunchanged => ?_
    have hsame : new.same before = true := by simpa using hunchanged
    rw [← heq hsame] at hsame
    simp [anyChanged, hsame]
  · rintro (name | i) hstep
    · rfl
    · change (listValues values')[i]? = (listValues values)[i]?
      rw [hvalues']
      refine List.getElem?_set_ne fun heq => hstep ?_
      subst heq
      exact hindex
  · rintro (name | i) hstep
    · cases hstep
    · have hi : actualCollectionIndex (listValues values).length index = some i :=
        hstep
      rw [hindex, Option.some.injEq] at hi
      subst hi
      exact .inr ⟨before, new, mem_cons_self, hbefore', .inl hbefore⟩
  · intro hsame
    rw [← hafter] at hsame
    obtain ⟨hunchanged, hall⟩ := hback.eq_of_same hsame
    refine ⟨?_, .cons (by simpa using hunchanged) .nil⟩
    rw [← hafter, hunchanged, if_neg Bool.false_ne_true]
  · rintro _ _ ⟨value, heq⟩
    cases heq

end

theorem forall₂_singleton {α β : Type} {R : α → β → Prop} {a : α} {l : List β}
    (h : List.Forall₂ R [a] l) : ∃ b, l = [b] ∧ R a b := by
  cases h with
  | cons hab hnil =>
    cases hnil
    exact ⟨_, rfl, hab⟩

/-- The parts that a node goes through, and what putting other parts in their place does. -/
theorem select_spec {node : NbtPathNode} (hnode : node.HasNoPattern) (hchild : IsCreated child)
    (hplain : Plain tag) (hne : (node.select child tag).parts ≠ []) :
    (∀ part ∈ (node.select child tag).parts, Plain part ∧ (node.IsElement → ¬ part.IsWrapper)) ∧
    ∀ news : List NbtTag, List.Forall₂ (fun part new => same new part = true → new = part)
        (node.select child tag).parts news →
      (node.IsElement → ∀ new ∈ news, ¬ new.IsWrapper) →
      PutSpec node child tag (node.select child tag).parts news
        ((node.select child tag).put news) := by
  cases node with
  | compoundChild name =>
    cases tag with
    | compound entries =>
      obtain ⟨part, hparts, hpart, hspec⟩ := @putSpec_compoundChild entries name child
      rw [hparts]
      constructor
      · intro part' hpart'
        rw [mem_singleton] at hpart'
        subst hpart'
        refine ⟨?_, nofun⟩
        rcases hpart with hget | ⟨-, rfl⟩
        · exact hplain.of_get hget
        · exact hchild.plain
      · intro news heq _
        obtain ⟨new, rfl, hnew⟩ := forall₂_singleton heq
        exact hspec new hnew
    | _ => exact absurd rfl hne
  | allElements =>
    cases tag with
    | list kind values =>
      by_cases hnil : values = []
      · subst hnil
        have hspec := fun new => @putSpec_allElements_nil kind child new hchild.not_isWrapper
        have hparts := (hspec child (fun _ => rfl) hchild.not_isWrapper).1
        rw [hparts]
        constructor
        · intro part hpart
          rw [mem_singleton] at hpart
          subst hpart
          exact ⟨hchild.plain, fun _ => hchild.not_isWrapper⟩
        · intro news heq hwrapper
          obtain ⟨new, rfl, hnew⟩ := forall₂_singleton heq
          obtain ⟨-, kind', values', hput, hspec⟩ :=
            hspec new hnew (hwrapper trivial new mem_cons_self)
          rwa [hput]
      · have hparts : (NbtPathNode.allElements.select child (.list kind values)).parts =
            listValues values := by
          rw [select_allElements hnil]
        rw [hparts]
        constructor
        · exact fun part hpart => ⟨hplain.of_mem_listValues hpart,
            fun _ => hplain.noWrapper kind values (.refl _) part hpart⟩
        · intro news heq hwrapper
          obtain ⟨kind', values', hput, -, hspec⟩ :=
            @putSpec_allElements_of_ne kind values news hnil
            child heq.length_eq.symm heq (hwrapper trivial)
          rwa [hput]
    | byteArray values => exact absurd rfl ((hplain.noArray _ (.refl _)).1 values)
    | intArray values => exact absurd rfl ((hplain.noArray _ (.refl _)).2.1 values)
    | longArray values => exact absurd rfl ((hplain.noArray _ (.refl _)).2.2 values)
    | _ => exact absurd rfl hne
  | indexedElement index =>
    cases tag with
    | list kind values =>
      cases hindex : actualCollectionIndex (listValues values).length index with
      | none =>
        refine absurd ?_ hne
        simp [select, collectionElements, hindex, deadEnd]
      | some actualIndex =>
        cases hbefore : (listValues values)[actualIndex]? with
        | none =>
          refine absurd ?_ hne
          simp [select, collectionElements, hindex, hbefore, deadEnd]
        | some before =>
          have hmem := mem_of_getElem? hbefore
          have hnowrapper := hplain.noWrapper kind values (.refl _)
          have hparts :
              ((NbtPathNode.indexedElement index).select child (.list kind values)).parts =
              [before] := by
            rw [select_indexedElement hindex hbefore]
          rw [hparts]
          constructor
          · intro part hpart
            rw [mem_singleton] at hpart
            subst hpart
            exact ⟨hplain.of_mem_listValues hmem, fun _ => hnowrapper part hmem⟩
          · intro news heq hwrapper
            obtain ⟨new, rfl, hnew⟩ := forall₂_singleton heq
            obtain ⟨kind', values', hput, hspec⟩ := putSpec_indexedElement hindex hbefore child hnew
              hnowrapper (hwrapper trivial new mem_cons_self)
            rwa [hput]
    | byteArray values => exact absurd rfl ((hplain.noArray _ (.refl _)).1 values)
    | intArray values => exact absurd rfl ((hplain.noArray _ (.refl _)).2.1 values)
    | longArray values => exact absurd rfl ((hplain.noArray _ (.refl _)).2.2 values)
    | _ => exact absurd rfl hne
  | matchObject name pattern => cases hnode
  | matchRootObject pattern => cases hnode
  | matchElement pattern => cases hnode

end Steel
