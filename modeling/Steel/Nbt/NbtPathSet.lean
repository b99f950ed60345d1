import Steel.Lib.Fallible
import Steel.Nbt.NbtPathPut

/-! # What has been set is found again

A value that has been set through a path is what the path selects afterwards, setting it once more
changes nothing, and no other position has changed.
-/

namespace Steel

open NbtPathNode (setTag getOne
  setCompoundChild setAllCollectionElements setIndexedCollectionElement)

open NbtTag List Selection

/-- What holds of a value after a node has been set in it. -/
structure LastSpec (node : NbtPathNode) (value tag : NbtTag) (modified : ℕ) (after : NbtTag) :
    Prop where
  get : ∀ found ∈ node.getOne after, NbtTag.same found value = true
  found : 0 < modified → node.getOne after ≠ []
  again : node.setTag after value = (0, after)
  frame : ∀ step, ¬ node.GoesThrough (some tag) step → after.child? step = tag.child? step
  same : after.same tag = true → after = tag ∧ modified = 0
  notWrapper : node ≠ .compoundChild [] → ¬ tag.IsWrapper → ¬ after.IsWrapper

theorem lastSpec_unchanged {node : NbtPathNode} {value tag : NbtTag}
    (hset : node.setTag tag value = (0, tag))
    (hget : ∀ found ∈ node.getOne tag, NbtTag.same found value = true) :
    LastSpec node value tag 0 tag where
  get := hget
  found := nofun
  again := hset
  frame _ _ := rfl
  same _ := ⟨rfl, rfl⟩
  notWrapper _ h := h

section Last

variable {value : NbtTag}

abbrev SetsLast (node : NbtPathNode) (value tag : NbtTag) : Prop :=
  LastSpec node value tag (node.setTag tag value).1 (node.setTag tag value).2

variable {node : NbtPathNode} {kind : NbtKind} {values : List NbtTag}

theorem setsLast_unchanged {tag : NbtTag} (hset : node.setTag tag value = (0, tag))
    (hget : ∀ found ∈ node.getOne tag, NbtTag.same found value = true) :
    SetsLast node value tag := by
  rw [SetsLast, hset]
  exact lastSpec_unchanged hset hget

theorem setsLast_compoundChild (hself : value.same value = true) (name : List Char) (tag : NbtTag) :
    SetsLast (.compoundChild name) value tag := by
  cases tag with
  | compound entries =>
    have hwritten (entries' : NbtCompound)
        (hset : setTag (.compoundChild name) (.compound entries) value =
          (1, .compound entries'))
        (hget : NbtCompound.get entries' name = some value)
        (hother : ∀ name', name' ≠ name →
          NbtCompound.get entries' name' = NbtCompound.get entries name')
        (hsame : NbtTag.sameEntries entries' entries = false) :
        SetsLast (.compoundChild name) value (.compound entries) := by
      rw [SetsLast, hset]
      constructor
      · simp [getOne, hget, hself]
      · simp [getOne, hget]
      · simp [setTag, setCompoundChild, hget, hself]
      · rintro (name' | index) hstep
        · exact hother name' hstep
        · rfl
      · simp [NbtTag.same, hsame]
      · exact fun hname _ => not_isWrapper_of_get hget fun h => hname (by rw [h])
    cases hget : NbtCompound.get entries name with
    | none =>
      refine hwritten (NbtCompound.insert entries name value) ?_ ?_ ?_ ?_
      · simp [setTag, setCompoundChild, hget]
      · rw [get_insert hget, if_pos rfl]
      · intro name' hname
        rw [get_insert hget, if_neg hname]
      · rw [Bool.eq_false_iff]
        intro hsame
        simpa [NbtCompound.insert] using length_eq_of_sameEntries hsame
    | some current =>
      by_cases hsame : current.same value = true
      · refine setsLast_unchanged ?_ ?_
        · simp [setTag, setCompoundChild, hget, hsame]
        · simp [getOne, hget, hsame]
      · refine hwritten (NbtCompound.set entries name value) ?_ ?_ ?_ ?_
        · simp [setTag, setCompoundChild, hget, hsame]
        · exact get_set_self hget
        · exact fun name' hname => get_set_of_ne hname
        · rw [Bool.eq_false_iff]
          intro hsame'
          exact hsame (same_symm (same_of_sameEntries_set hget hsame'))
  | _ => exact setsLast_unchanged rfl (by simp [getOne])

theorem setsLast_list {kind' : NbtKind} {values' : List NbtTag} {modified : ℕ}
    (hset : node.setTag (.list kind values) value = (modified, .list kind' values'))
    (hget : ∀ found ∈ node.getOne (.list kind' values'), NbtTag.same found value = true)
    (hfound : node.getOne (.list kind' values') ≠ [])
    (hagain : node.setTag (.list kind' values') value = (0, .list kind' values'))
    (hitem : ∀ index, ¬ node.GoesThrough (some (.list kind values)) (.item index) →
      (NbtTag.listValues values')[index]? = (NbtTag.listValues values)[index]?)
    (hsame : ¬ List.Forall₂ (fun left right => NbtTag.same left right = true)
      (NbtTag.listValues values') (NbtTag.listValues values)) :
    SetsLast node value (.list kind values) := by
  rw [SetsLast, hset]
  constructor
  · exact hget
  · exact fun _ => hfound
  · exact hagain
  · rintro (name | index) hstep
    · rfl
    · exact hitem index hstep
  · exact fun h => absurd (forall₂_same_of_list h) hsame
  · rintro _ _ ⟨value, heq⟩
    cases heq

theorem setsLast_allElements (hself : value.same value = true) (hvalue : ¬ value.IsWrapper) :
    SetsLast .allElements value (.list kind values) := by
  have hwritten (modified count : ℕ) (hpos : 0 < count)
      (hset : setTag .allElements (.list kind values) value =
        (modified, NbtTag.listOf (.replicate count value)))
      (hsame : ¬ List.Forall₂ (fun left right => NbtTag.same left right = true)
        (.replicate count value) (NbtTag.listValues values)) :
      SetsLast .allElements value (.list kind values) := by
    obtain ⟨kind', values', hlist, hvalues'⟩ := @NbtTag.exists_listOf (.replicate count value)
      fun element helement => by rwa [eq_of_mem_replicate helement]
    rw [hlist] at hset
    refine setsLast_list hset ?_ ?_ ?_ ?_ (by rwa [hvalues'])
    · change ∀ found ∈ NbtTag.listValues values', _
      rw [hvalues']
      intro found hfound
      rwa [eq_of_mem_replicate hfound]
    · change NbtTag.listValues values' ≠ []
      rw [hvalues']
      exact fun h => by simp at h; omega
    · obtain ⟨count, rfl⟩ : ∃ count', count = count' + 1 := ⟨count - 1, by omega⟩
      simp [setTag, setAllCollectionElements, NbtTag.collectionElements,
        hvalues', replicate_succ, hself, countP_replicate]
    · exact fun index hstep => absurd trivial hstep
  by_cases hnil : values = []
  · subst hnil
    refine hwritten 1 1 Nat.one_pos ?_ ?_
    · simp [setTag, setAllCollectionElements, NbtTag.collectionElements,
        NbtTag.listValues, NbtTag.addCollectionElement]
    · rintro ⟨⟩
  · have hset : setTag .allElements (.list kind values) value =
        if (NbtTag.listValues values).countP (fun element => !element.same value) = 0 then
          (0, .list kind values)
        else ((NbtTag.listValues values).countP (fun element => !element.same value),
          NbtTag.listOf (.replicate (NbtTag.listValues values).length value)) := by
      obtain ⟨element, elements, helements⟩ : ∃ element elements,
          NbtTag.listValues values = element :: elements :=
        exists_cons_of_ne_nil (by simpa [NbtTag.listValues] using hnil)
      simp only [setTag, setAllCollectionElements,
        NbtTag.collectionElements, helements, NbtTag.replaceCollectionWithRepeated]
    by_cases hcount : (NbtTag.listValues values).countP (fun element => !element.same value) = 0
    · rw [if_pos hcount] at hset
      refine setsLast_unchanged hset ?_
      change ∀ found ∈ NbtTag.listValues values, _
      simpa [countP_eq_zero] using hcount
    · rw [if_neg hcount] at hset
      refine hwritten _ _ ?_ hset ?_
      · rw [length_listValues]
        exact length_pos_of_ne_nil hnil
      · intro hall
        refine hcount (countP_eq_zero.2 fun element helement => ?_)
        obtain ⟨other, hother, hsame⟩ := exists_mem_of_forall₂ hall.flip helement
        rw [eq_of_mem_replicate hother] at hsame
        simp [same_symm hsame]

theorem setsLast_indexedElement (hself : value.same value = true) (hvalue : ¬ value.IsWrapper)
    (hplain : ∀ element ∈ NbtTag.listValues values, ¬ element.IsWrapper) (index : Int32) :
    SetsLast (.indexedElement index) value (.list kind values) := by
  cases hindex : NbtTag.actualCollectionIndex (NbtTag.listValues values).length index with
  | none =>
    refine setsLast_unchanged ?_ ?_
    · simp [setTag, setIndexedCollectionElement, NbtTag.collectionElements,
        hindex]
    · simp [getOne, collectionElementsOrEmpty, NbtTag.collectionElements,
        indexedElement, hindex]
  | some actualIndex =>
    have hlt := actualCollectionIndex_lt hindex
    have hcurrent := List.getElem?_eq_getElem hlt
    by_cases hsame : (NbtTag.listValues values)[actualIndex].same value = true
    · refine setsLast_unchanged ?_ ?_
      · simp [setTag, setIndexedCollectionElement,
          NbtTag.collectionElements, hindex, hcurrent, hsame]
      · simp [getOne, collectionElementsOrEmpty, NbtTag.collectionElements,
          indexedElement, hindex, hcurrent, hsame]
    · obtain ⟨kind', values', hlist, hvalues'⟩ := @NbtTag.exists_listOf
        ((NbtTag.listValues values).set actualIndex value) fun element helement => by
          rcases mem_or_eq_of_mem_set helement with hmem | rfl
          · exact hplain element hmem
          · exact hvalue
      have hlt' : actualIndex < values.length := by rwa [← length_listValues]
      have hset : setTag (.indexedElement index) (.list kind values) value =
          (1, .list kind' values') := by
        simp [setTag, setIndexedCollectionElement,
          NbtTag.collectionElements, hindex, hcurrent, hsame, NbtTag.setCollectionElement, hlt',
          hlist]
      have hindex' : NbtTag.actualCollectionIndex (NbtTag.listValues values').length index =
          some actualIndex := by
        rw [hvalues', length_set, hindex]
      have hcurrent' : (NbtTag.listValues values')[actualIndex]? = some value := by
        rw [hvalues', List.getElem?_set_self hlt]
      refine setsLast_list hset ?_ ?_ ?_ ?_ ?_
      · simp [getOne, collectionElementsOrEmpty, NbtTag.collectionElements,
          indexedElement, hindex', hcurrent', hself]
      · simp [getOne, collectionElementsOrEmpty, NbtTag.collectionElements,
          indexedElement, hindex', hcurrent']
      · simp [setTag, setIndexedCollectionElement,
          NbtTag.collectionElements, hindex', hcurrent', hself]
      · intro i hstep
        rw [hvalues']
        refine List.getElem?_set_ne fun heq => hstep ?_
        subst heq
        exact hindex
      · intro hall
        exact hsame (same_symm (rel_of_forall₂ hall hcurrent' hcurrent))

theorem indexedElement_nil (index : Int32) : indexedElement [] index = none := by
  rw [indexedElement]
  cases hindex : NbtTag.actualCollectionIndex ([] : List NbtTag).length index with
  | none => rfl
  | some actualIndex => exact absurd (actualCollectionIndex_lt hindex) (Nat.not_lt_zero _)

theorem setsLast (hself : value.same value = true) (hvalue : ¬ value.IsWrapper)
    (hnode : node.HasNoPattern) {tag : NbtTag} (hplain : Plain tag) : SetsLast node value tag := by
  have hunchanged (hset : node.setTag tag value = (0, tag)) (hget : node.getOne tag = []) :
      SetsLast node value tag :=
    setsLast_unchanged hset (by simp [hget])
  cases node with
  | compoundChild name => exact setsLast_compoundChild hself name tag
  | allElements =>
    cases tag with
    | list kind values => exact setsLast_allElements hself hvalue
    | byteArray values => exact absurd rfl ((hplain.noArray _ (.refl _)).1 values)
    | intArray values => exact absurd rfl ((hplain.noArray _ (.refl _)).2.1 values)
    | longArray values => exact absurd rfl ((hplain.noArray _ (.refl _)).2.2 values)
    | _ => exact hunchanged rfl rfl
  | indexedElement index =>
    cases tag with
    | list kind values =>
      exact setsLast_indexedElement hself hvalue (hplain.noWrapper kind values (.refl _)) index
    | byteArray values => exact absurd rfl ((hplain.noArray _ (.refl _)).1 values)
    | intArray values => exact absurd rfl ((hplain.noArray _ (.refl _)).2.1 values)
    | longArray values => exact absurd rfl ((hplain.noArray _ (.refl _)).2.2 values)
    | _ => exact hunchanged rfl (congrArg Option.toList (indexedElement_nil index))
  | matchObject name pattern => cases hnode
  | matchRootObject pattern => cases hnode
  | matchElement pattern => cases hnode

end Last

namespace NbtPath

def selected : List NbtPathNodeEntry → NbtTag → List NbtTag
  | [], tag => [tag]
  | entry :: entries, tag => (entry.node.getOne tag).flatMap (selected entries)

theorem getNodes_eq (entries : List NbtPathNodeEntry) (tags : List NbtTag) :
    getNodes entries tags = tags.flatMap (selected entries) := by
  induction entries generalizing tags with
  | nil => simp [getNodes, selected]
  | cons entry entries ih =>
    rw [getNodes]
    have hflat : tags.flatMap (selected (entry :: entries)) =
        (entry.node.get tags).flatMap (selected entries) := by
      rw [NbtPathNode.get, flatMap_assoc]
      rfl
    rw [hflat]
    split
    · rename_i hempty
      rw [List.isEmpty_iff] at hempty
      rw [hempty, flatMap_nil]
    · exact ih _

theorem get_eq (path : NbtPath) (tag : NbtTag) : path.get tag = selected path.nodes tag := by
  rw [get, getNodes_eq, flatMap_singleton]

variable {child : NbtTag}

theorem goesThrough_created {node : NbtPathNode} (hchild : IsCreated child) (step : PathStep) :
    node.GoesThrough (some child) step ↔ node.GoesThrough none step := by
  cases node <;> cases step <;> rcases hchild with rfl | rfl <;>
    simp [NbtPathNode.GoesThrough, NbtTag.collectionElements, NbtTag.listValues]

variable {entries : List NbtPathNodeEntry} {position : List PathStep}

/-- A position that leaves a path in a value that is missing leaves it in one that is created. -/
theorem leaves_created (hchild : IsCreated child) (h : Leaves entries none position) :
    Leaves entries (some child) position := by
  cases entries with
  | nil => exact h
  | cons entry entries =>
    cases position with
    | nil => exact h
    | cons step position =>
      rw [Leaves, goesThrough_created hchild, Option.bind_some, hchild.child?_eq_none]
      exact h

theorem valueAt_created {tag : Option NbtTag}
    (hchild : IsCreated child) (h : Leaves entries tag position) :
    child.valueAt position = none := by
  cases position with
  | nil => cases entries <;> cases h
  | cons step position => rw [NbtTag.valueAt, hchild.child?_eq_none, Option.bind_none]

/-- What holds of a value after a value has been set in it through a path. -/
structure SetSpec (value : NbtTag) (nodes : List NbtPathNodeEntry) (last : NbtPathNodeEntry)
    (tag : NbtTag) (modified : ℕ) (after : NbtTag) : Prop where
  get : ∀ found ∈ selected nodes after, NbtTag.same found value = true
  found : 0 < modified → selected nodes after ≠ []
  again : depthFirst (fun part => last.node.setTag part value) (steps nodes) after =
    .ok (0, after)
  frame : ∀ position, Leaves nodes (some tag) position →
    after.valueAt position = tag.valueAt position
  same : after.same tag = true → after = tag ∧ modified = 0
  notWrapper : (∀ head, nodes.head? = some head → head.node ≠ .compoundChild []) →
    ¬ tag.IsWrapper → ¬ after.IsWrapper

theorem forall₂_of_forall {α β : Type} {P : α → Prop} {R : α → β → Prop} {l : List α} {l' : List β}
    (h : List.Forall₂ (fun a b => P a → R a b) l l') (hP : ∀ a ∈ l, P a) : List.Forall₂ R l l' := by
  induction h with
  | nil => exact .nil
  | cons hab _ ih =>
    obtain ⟨ha, hl⟩ := forall_mem_cons.1 hP
    exact .cons (hab ha) (ih hl)

theorem setSpec_cons {value : NbtTag} {entry next last : NbtPathNodeEntry}
    {rest : List NbtPathNodeEntry} {tag : NbtTag} {results : List (ℕ × NbtTag)}
    (hnode : entry.node.HasNoPattern) (hplain : Plain tag)
    (hsep : entry.node.IsElement → next.node ≠ .compoundChild [])
    (hne : (entry.node.select next.node.createPreferredParentTag tag).parts ≠ [])
    (hresults : List.Forall₂ (fun part result =>
        Plain part → SetSpec value (next :: rest) last part result.1 result.2)
      (entry.node.select next.node.createPreferredParentTag tag).parts results) :
    SetSpec value (entry :: next :: rest) last tag (results.map Prod.fst).sum
      ((entry.node.select next.node.createPreferredParentTag tag).put (results.map Prod.snd)) := by
  have hchild := isCreated_createPreferredParentTag next.node
  obtain ⟨hparts, hput⟩ := select_spec hnode hchild hplain hne
  have hspecs : List.Forall₂ (fun part result =>
      SetSpec value (next :: rest) last part result.1 result.2)
      (entry.node.select next.node.createPreferredParentTag tag).parts results :=
    forall₂_of_forall hresults fun part hpart => (hparts part hpart).1
  have hspec : ∀ part new, (part, new) ∈
      (entry.node.select next.node.createPreferredParentTag tag).parts.zip (results.map Prod.snd) →
      ∃ modified, SetSpec value (next :: rest) last part modified new := by
    intro part new hmem
    rw [zip_map_right] at hmem
    obtain ⟨⟨part', modified, new'⟩, hresult, heq⟩ := mem_map.1 hmem
    obtain ⟨hpart, rfl⟩ := Prod.mk.inj heq
    rw [← show part' = part from hpart]
    have h := forall₂_zip hspecs hresult
    exact ⟨modified, h⟩
  have hmemSpec : ∀ result ∈ results, ∃ part ∈
      (entry.node.select next.node.createPreferredParentTag tag).parts,
      SetSpec value (next :: rest) last part result.1 result.2 := by
    intro result hresult
    obtain ⟨part, hpart, h⟩ := exists_mem_of_forall₂ hspecs.flip hresult
    exact ⟨part, hpart, h⟩
  have hput := hput (results.map Prod.snd)
    (forall₂_map_right_iff.2 (hspecs.imp fun _ _ h hsame => (h.same hsame).1)) (by
      intro helement new hnew
      obtain ⟨result, hresult, rfl⟩ := mem_map.1 hnew
      obtain ⟨part, hpart, h⟩ := hmemSpec result hresult
      refine h.notWrapper ?_ ((hparts part hpart).2 helement)
      rintro head ⟨⟩
      exact hsep helement)
  have hselected : selected (entry :: next :: rest)
      ((entry.node.select next.node.createPreferredParentTag tag).put (results.map Prod.snd)) =
      (results.map Prod.snd).flatMap (selected (next :: rest)) := by
    rw [selected, hput.get]
  constructor
  · rw [hselected]
    intro found hfound
    obtain ⟨new, hnew, hfound⟩ := mem_flatMap.1 hfound
    obtain ⟨result, hresult, rfl⟩ := mem_map.1 hnew
    obtain ⟨part, -, h⟩ := hmemSpec result hresult
    exact h.get found hfound
  · rw [hselected]
    intro hpos hnil
    obtain ⟨modified, hmodified, hne⟩ := exists_mem_ne_zero_of_sum_ne_zero hpos.ne'
    obtain ⟨result, hresult, rfl⟩ := mem_map.1 hmodified
    obtain ⟨part, -, h⟩ := hmemSpec result hresult
    refine h.found (Nat.pos_of_ne_zero hne) ?_
    exact flatMap_eq_nil_iff.1 hnil _ (mem_map_of_mem hresult)
  · have hnews : results.map Prod.snd ≠ [] := by
      intro hnil
      refine hne (length_eq_zero_iff.1 ?_)
      rw [hspecs.length_eq, ← length_map Prod.snd, hnil, length_nil]
    have hagain : (results.map Prod.snd).mapM (depthFirst
        (fun part => last.node.setTag part value) (steps (next :: rest))) =
        .ok ((results.map Prod.snd).map fun new => (0, new)) := by
      refine mapM_ok fun new hnew => ?_
      obtain ⟨result, hresult, rfl⟩ := mem_map.1 hnew
      obtain ⟨part, -, h⟩ := hmemSpec result hresult
      exact h.again
    rw [steps, depthFirst, hput.again, if_neg (by simpa using hnews), hagain]
    simp only [map_map, Function.comp_def, map_const', sum_replicate, Nat.nsmul_eq_mul,
      Nat.mul_zero]
    exact congrArg (fun after => Except.ok (0, after)) hput.put
  · rintro (_ | ⟨step, position⟩) hposition
    · cases hposition
    rw [NbtTag.valueAt, NbtTag.valueAt]
    by_cases hthrough : entry.node.GoesThrough (some tag) step
    · have hleaves : Leaves (next :: rest) (tag.child? step) position :=
        hposition.resolve_left (not_not_intro hthrough)
      rcases hput.through step hthrough with ⟨hafter, htag⟩ | ⟨part, new, hmem, hafter, htag⟩
      · rw [hafter, htag]
      · obtain ⟨modified, h⟩ := hspec part new hmem
        rw [hafter, Option.bind_some]
        rcases htag with htag | ⟨htag, rfl⟩
        · rw [htag] at hleaves ⊢
          exact h.frame position hleaves
        · rw [htag] at hleaves ⊢
          rw [h.frame position (leaves_created hchild hleaves), valueAt_created hchild hleaves]
          rfl
    · rw [hput.frame step hthrough]
  · intro hsame
    obtain ⟨hafter, hall⟩ := hput.same hsame
    refine ⟨hafter, sum_eq_zero fun modified hmodified => ?_⟩
    obtain ⟨result, hresult, rfl⟩ := mem_map.1 hmodified
    have hzero : List.Forall₂ (fun _ result => result.1 = 0)
        (entry.node.select next.node.createPreferredParentTag tag).parts results :=
      hspecs.mp (fun _ _ h hsame => (h.same hsame).2) (forall₂_map_right_iff.1 hall)
    obtain ⟨-, -, h⟩ := exists_mem_of_forall₂ hzero.flip hresult
    exact h
  · intro hhead
    exact hput.notWrapper (hhead entry rfl)

theorem setSpec {value : NbtTag} {last : NbtPathNodeEntry} (hself : value.same value = true)
    (hvalue : ¬ value.IsWrapper) (nodes : List NbtPathNodeEntry) :
    ∀ {tag : NbtTag} {modified : ℕ} {after : NbtTag}, (∀ entry ∈ nodes, entry.node.HasNoPattern) →
      (∀ entry ∈ nodes, entry.node ≠ .compoundChild []) → nodes.getLast? = some last → Plain tag →
      depthFirst (fun part => last.node.setTag part value) (steps nodes) tag =
        .ok (modified, after) →
      SetSpec value nodes last tag modified after := by
  induction nodes using steps.induct with
  | case1 entry next rest ih =>
    intro tag modified after hnode hnamed hlast hplain h
    obtain ⟨hentry, hrest⟩ := forall_mem_cons.1 hnode
    have hnamedRest := (forall_mem_cons.1 hnamed).2
    rw [steps, depthFirst] at h
    split at h
    · cases h
    · rename_i hne
      split at h
      · cases h
      · rename_i results hresults
        cases h
        refine setSpec_cons hentry hplain (fun _ => hnamedRest next mem_cons_self)
          (by simpa using hne) ?_
        refine (Except.mapM_eq_ok.1 hresults).imp fun part result hresult hpart => ?_
        exact ih hrest hnamedRest (by simpa using hlast) hpart hresult
  | case2 nodes hnodes =>
    intro tag modified after hnode _ hlast hplain h
    rcases nodes with _ | ⟨entry, _ | ⟨next, rest⟩⟩
    · cases hlast
    · obtain rfl : entry = last := by simpa using hlast
      have hset := setsLast hself hvalue (hnode entry mem_cons_self) hplain
      have hupdate : entry.node.setTag tag value = (modified, after) := Except.ok.inj h
      rw [SetsLast, hupdate] at hset
      have hselected (tag : NbtTag) : selected [entry] tag = entry.node.getOne tag := by
        exact flatMap_singleton' _
      constructor
      · rw [hselected]
        exact hset.get
      · rw [hselected]
        exact hset.found
      · exact congrArg Except.ok hset.again
      · rintro (_ | ⟨step, position⟩) hposition
        · cases hposition
        · have hstep := hposition.resolve_right id
          rw [NbtTag.valueAt, NbtTag.valueAt, hset.frame step hstep]
      · exact hset.same
      · exact fun hhead => hset.notWrapper (hhead entry rfl)
    · exact absurd rfl (hnodes entry next rest)

theorem pathResult_eq_ok {path : NbtPath} {result : Except ℕ (ℕ × NbtTag)} {outcome : ℕ × NbtTag}
    (h : path.pathResult result = .ok outcome) : result = .ok outcome := by
  cases result with
  | error left => cases h
  | ok outcome' =>
    cases h
    rfl

theorem get_of_set (path : NbtPath) (tag value : NbtTag) {modified : ℕ} {after : NbtTag}
    (hne : path.nodes ≠ []) (hnodes : ∀ entry ∈ path.nodes, entry.node.HasNoPattern)
    (hplain : Plain tag) (hvalue : ¬ value.IsWrapper) (hself : value.same value = true)
    (h : path.set tag value = .ok (modified, after)) :
    (∀ found ∈ path.get after, found.same value = true) ∧ (0 < modified → path.get after ≠ []) ∧
      path.set after value = .ok (0, after) ∧
      ∀ position, Leaves path.nodes (some tag) position →
        after.valueAt position = tag.valueAt position := by
  obtain ⟨last, hlast⟩ := Option.ne_none_iff_exists'.1 (mt List.getLast?_eq_none_iff.1 hne)
  cases hdeep : value.isTooDeep path.nodes.length with
  | true =>
    rw [set, hdeep, if_pos rfl] at h
    cases h
  | false =>
    rw [path.set_eq_depthFirst hdeep hlast] at h
    have hspec :=
      setSpec hself hvalue path.nodes hnodes path.named hlast hplain (pathResult_eq_ok h)
    rw [path.get_eq]
    refine ⟨hspec.get, hspec.found, ?_, hspec.frame⟩
    rw [path.set_eq_depthFirst hdeep hlast, hspec.again]
    rfl

/-- `a[-1]` -/
def lastOfA : NbtPath where
  original := ['a', '[', '-', '1', ']']
  nodes := [⟨.compoundChild ['a'], 1⟩, ⟨.indexedElement (-1), 5⟩]
  ends := by decide
  ends_le := by simp
  named := by simp

/-- The last of two numbers becomes a text, and the list one of wrapped values. -/
theorem get_of_set_lastOfA : let value := NbtTag.string (.text ['x'])
    let after := NbtTag.compound [(.text ['a'], .list .compound
      [.compound [(.text [], .int 1)], .compound [(.text [], value)]])]
    (∀ found ∈ lastOfA.get after, found.same value = true) ∧
      (0 < 1 → lastOfA.get after ≠ []) ∧ lastOfA.set after value = .ok (0, after) ∧
      ∀ position, Leaves lastOfA.nodes (some (.compound [(.text ['a'], .list .int
        [.int 1, .int 2])])) position → after.valueAt position =
          (NbtTag.compound [(.text ['a'], .list .int [.int 1, .int 2])]).valueAt position := by
  intro value after
  have hleaf (n : Int32) : (NbtTag.int n).IsLeaf := by simp [NbtTag.IsLeaf]
  have hdeep : value.isTooDeep lastOfA.nodes.length = false := by
    simp [NbtTag.isTooDeep, lastOfA, value]
  refine get_of_set lastOfA _ value (cons_ne_nil _ _) ?_ ?_ (by simp [IsWrapper, value]) rfl ?_
  · intro entry hentry
    simp only [lastOfA, mem_cons, not_mem_nil, or_false] at hentry
    rcases hentry with rfl | rfl <;> trivial
  · constructor
    · intro part hpart
      simp only [part_compound_iff, part_list_iff,
        part_iff_of_isLeaf (hleaf _), mem_cons, not_mem_nil, or_false,
        exists_eq_left, exists_eq_or_imp] at hpart
      rcases hpart with rfl | rfl | rfl | rfl <;> simp
    · intro kind values hpart
      simp only [part_compound_iff, part_list_iff,
        part_iff_of_isLeaf (hleaf _), mem_cons, not_mem_nil, or_false,
        exists_eq_left, exists_eq_or_imp, reduceCtorEq, false_or, NbtTag.list.injEq] at hpart
      obtain ⟨-, rfl⟩ := hpart
      rintro element helement ⟨value, rfl⟩
      simp [NbtTag.listValues, NbtTag.unwrapListWrapper] at helement
  · rw [set, hdeep]
    rfl

/-- `[1]` -/
def secondElement : NbtPath where
  original := ['[', '1', ']']
  nodes := [⟨.indexedElement 1, 3⟩]
  ends := by decide
  ends_le := by simp
  named := by simp

/-- `a` -/
def childA : NbtPath where
  original := ['a']
  nodes := [⟨.compoundChild ['a'], 1⟩]
  ends := by decide
  ends_le := by simp
  named := by simp

/-- `[{"":{"":5}},{a:1}]` with the given second value, in the form in which it is kept -/
def wrapperInList (second : NbtTag) : NbtTag :=
  .list .compound [.compound [(.text [], .compound [(.text [], .int 5)])], second]

theorem get_of_set_exceptions : let nan := NbtTag.double 0x7ff8000000000000
    let withNan := NbtTag.compound [(.text ['a'], nan)]
    let one := NbtTag.compound [(.text ['a'], .int 1)]
    let two := NbtTag.compound [(.text ['b'], .int 2)]
    (HasNoArray (.compound []) ∧ ¬ nan.IsWrapper ∧
      childA.set (.compound []) nan = .ok (1, withNan) ∧
      childA.set withNan nan = .ok (1, withNan)) ∧
    (HasNoArray (wrapperInList one) ∧ ¬ two.IsWrapper ∧
      secondElement.set (wrapperInList one) two =
        .ok (1, .list .compound [.compound [(.text [], .int 5)], two]) ∧
      Leaves secondElement.nodes (some (wrapperInList one)) [.item 0] ∧
      (wrapperInList one).valueAt [.item 0] = some (.compound [(.text [], .int 5)]) ∧
      (NbtTag.list .compound [.compound [(.text [], .int 5)], two]).valueAt [.item 0] =
        some (.int 5)) := by
  have hleaf (n : Int32) : (NbtTag.int n).IsLeaf := by simp [NbtTag.IsLeaf]
  intro nan withNan one two
  refine ⟨⟨?_, by simp [IsWrapper, nan], ?_, ?_⟩, ?_, ?_, ?_, ?_, rfl, rfl⟩
  · intro part hpart
    simp only [part_compound_iff, not_mem_nil, false_and, exists_false, or_false] at hpart
    subst hpart
    simp
  · rw [set, show nan.isTooDeep _ = false by simp [NbtTag.isTooDeep, childA, nan]]
    rfl
  · rw [set, show nan.isTooDeep _ = false by simp [NbtTag.isTooDeep, childA, nan]]
    rfl
  · intro part hpart
    simp only [wrapperInList, one, part_list_iff, part_compound_iff,
      part_iff_of_isLeaf (hleaf _), mem_cons, not_mem_nil, or_false,
      exists_eq_left, exists_eq_or_imp] at hpart
    rcases hpart with rfl | (rfl | rfl | rfl) | rfl | rfl <;> simp
  · rintro ⟨value, h⟩
    simp [two] at h
  · rw [set, show two.isTooDeep _ = false by simp [NbtTag.isTooDeep, secondElement, two]]
    rfl
  · refine .inl ?_
    simp [NbtPathNode.GoesThrough, wrapperInList, NbtTag.collectionElements,
      NbtTag.listValues, NbtTag.actualCollectionIndex]

end NbtPath

end Steel
