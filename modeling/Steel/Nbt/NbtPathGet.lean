import Steel.Nbt.NbtCompare
import Steel.Nbt.NbtPathLevels

/-! # Reading through a path

The values that a path selects, and the positions in a value that it leaves alone.
-/

namespace Steel

open List
open Bool (and_eq_true)

def collectionElementsOrEmpty (tag : NbtTag) : List NbtTag := tag.collectionElements.getD []

def indexedElement (elements : List NbtTag) (index : Int32) : Option NbtTag :=
  (NbtTag.actualCollectionIndex elements.length index).bind
    fun actualIndex => elements[actualIndex]?

namespace NbtPathNode

def getOne (node : NbtPathNode) (tag : NbtTag) : List NbtTag :=
  match node with
  | compoundChild name =>
    match tag with
    | .compound compound => (NbtCompound.get compound name).toList
    | _ => []
  | matchObject name pattern =>
    match tag with
    | .compound compound =>
      (NbtCompound.get compound name).toList.filter (compoundPatternMatches pattern)
    | _ => []
  | matchRootObject pattern => if compoundPatternMatches pattern tag then [tag] else []
  | allElements => collectionElementsOrEmpty tag
  | indexedElement index => (Steel.indexedElement (collectionElementsOrEmpty tag) index).toList
  | matchElement pattern =>
    (collectionElementsOrEmpty tag).filter (compoundPatternMatches pattern)

def get (node : NbtPathNode) (input : List NbtTag) : List NbtTag := input.flatMap node.getOne

end NbtPathNode

namespace NbtPath

/-- The loop of `NbtPath::get`, which ends when nothing is selected. -/
def getNodes : List NbtPathNodeEntry → List NbtTag → List NbtTag
  | [], tags => tags
  | entry :: entries, tags =>
    let tags := entry.node.get tags
    if tags.isEmpty then tags else getNodes entries tags

def get (path : NbtPath) (tag : NbtTag) : List NbtTag := getNodes path.nodes [tag]

end NbtPath

/-- One step into a value. -/
inductive PathStep where
  | key (name : List Char)
  | item (index : ℕ)

namespace NbtTag

def child? (tag : NbtTag) (step : PathStep) : Option NbtTag :=
  match tag, step with
  | .compound entries, .key name => NbtCompound.get entries name
  | .list _ values, .item index => (listValues values)[index]?
  | _, _ => none

def valueAt : List PathStep → NbtTag → Option NbtTag
  | [], tag => some tag
  | step :: position, tag => (tag.child? step).bind (valueAt position)

end NbtTag

namespace NbtPathNode

def HasNoPattern : NbtPathNode → Prop
  | compoundChild _ => True
  | allElements => True
  | indexedElement _ => True
  | _ => False

def IsElement : NbtPathNode → Prop
  | allElements => True
  | indexedElement _ => True
  | _ => False

/-- Whether a node goes through a step, from a value that may be missing. -/
def GoesThrough (node : NbtPathNode) (tag : Option NbtTag) (step : PathStep) : Prop :=
  match node, step with
  | compoundChild name, .key name' => name' = name
  | allElements, .item _ => True
  | indexedElement index, .item i =>
    NbtTag.actualCollectionIndex ((tag.bind NbtTag.collectionElements).getD []).length index =
    some i
  | _, _ => False

end NbtPathNode

/-- A position that a path does not reach: at one of its steps, the path goes elsewhere. -/
def Leaves : List NbtPathNodeEntry → Option NbtTag → List PathStep → Prop
  | entry :: entries, tag, step :: position =>
    ¬ entry.node.GoesThrough tag step ∨
      Leaves entries (tag.bind fun tag => tag.child? step) position
  | _, _, _ => False

namespace NbtTag

def IsWrapper (tag : NbtTag) : Prop := ∃ value, tag = .compound [(.text [], value)]

theorem unwrapListWrapper_of_not {tag : NbtTag} (h : ¬ IsWrapper tag) :
    tag.unwrapListWrapper = tag := by
  unfold unwrapListWrapper
  split
  · exact absurd ⟨_, rfl⟩ h
  · rfl

theorem exists_listOf {elements : List NbtTag} (h : ∀ element ∈ elements, ¬ IsWrapper element) :
    ∃ kind values, listOf elements = .list kind values ∧ listValues values = elements := by
  cases elements with
  | nil => exact ⟨_, _, rfl, rfl⟩
  | cons element elements =>
    rw [listOf]
    split
    · refine ⟨_, _, rfl, ?_⟩
      rw [listValues, map_congr_left fun value hvalue =>
        unwrapListWrapper_of_not (h value hvalue)]
      exact map_id _
    · refine ⟨_, _, rfl, ?_⟩
      rw [listValues, map_map]
      exact map_id _

theorem length_listValues (values : List NbtTag) : (listValues values).length = values.length :=
  length_map _

theorem actualCollectionIndex_lt {len : ℕ} {index : Int32} {actualIndex : ℕ}
    (h : actualCollectionIndex len index = some actualIndex) : actualIndex < len := by
  unfold actualCollectionIndex at h
  rw [Option.ite_none_right_eq_some, Option.some.injEq] at h
  obtain ⟨hrange, rfl⟩ := h
  omega

theorem eq_wrapper_of_same {value tag : NbtTag}
    (h : same (.compound [(.text [], value)]) tag = true) :
    ∃ value', tag = .compound [(.text [], value')] ∧ same value value' = true := by
  cases tag with
  | compound entries =>
    rw [same] at h
    match entries, h with
    | [(key, value')], h =>
      simp only [sameEntries, Bool.and_true, and_eq_true, decide_eq_true_eq] at h
      obtain ⟨rfl, hsame⟩ := h
      exact ⟨value', rfl, hsame⟩
    | [], h => simp [sameEntries] at h
    | _ :: _ :: _, h => simp [sameEntries] at h
  | _ => simp [same] at h

theorem isWrapper_of_same {value tag : NbtTag}
    (h : same tag (.compound [(.text [], value)]) = true) : IsWrapper tag := by
  cases tag with
  | compound entries =>
    rw [same] at h
    match entries, h with
    | [(key, value')], h =>
      simp only [sameEntries, Bool.and_true, and_eq_true, decide_eq_true_eq] at h
      obtain ⟨rfl, -⟩ := h
      exact ⟨value', rfl⟩
    | [], h => simp [sameEntries] at h
    | _ :: _ :: _, h => simp [sameEntries] at h
  | _ => simp [same] at h

theorem same_unwrapListWrapper {left right : NbtTag} (h : same left right = true) :
    same left.unwrapListWrapper right.unwrapListWrapper = true := by
  by_cases hleft : IsWrapper left
  · obtain ⟨value, rfl⟩ := hleft
    obtain ⟨value', rfl, hsame⟩ := eq_wrapper_of_same h
    exact hsame
  · have hright : ¬ IsWrapper right := by
      rintro ⟨value, rfl⟩
      exact hleft (isWrapper_of_same h)
    rwa [unwrapListWrapper_of_not hleft, unwrapListWrapper_of_not hright]

theorem forall₂_same_of_sameAll {lefts rights : List NbtTag} (h : sameAll lefts rights = true) :
    List.Forall₂ (fun left right => same left right = true) (listValues lefts)
      (listValues rights) := by
  induction lefts generalizing rights with
  | nil =>
    cases rights with
    | nil => exact .nil
    | cons right rights => simp [sameAll] at h
  | cons left lefts ih =>
    cases rights with
    | nil => simp [sameAll] at h
    | cons right rights =>
      rw [sameAll, and_eq_true] at h
      exact .cons (same_unwrapListWrapper h.1) (ih h.2)

theorem forall₂_same_of_list {kind kind' : NbtKind} {lefts rights : List NbtTag}
    (h : same (.list kind lefts) (.list kind' rights) = true) :
    List.Forall₂ (fun left right => same left right = true) (listValues lefts)
      (listValues rights) := by
  rw [same, and_eq_true] at h
  exact forall₂_same_of_sameAll h.2

theorem floatEq_comm {fractionBits exponentBits left right : ℕ}
    (h : floatEq fractionBits exponentBits left right = true) :
    floatEq fractionBits exponentBits right left = true := by
  simp only [floatEq, and_eq_true, Bool.or_eq_true, decide_eq_true_eq] at h ⊢
  obtain ⟨⟨hleft, hright⟩, h⟩ := h
  exact ⟨⟨hright, hleft⟩, h.imp Eq.symm And.symm⟩

mutual

theorem same_symm {left right : NbtTag} (h : same left right = true) : same right left = true := by
  cases left with
  | list kind values =>
    cases right with
    | list kind' values' =>
      rw [same, and_eq_true, decide_eq_true_eq] at h ⊢
      exact ⟨h.1.symm, sameAll_symm h.2⟩
    | _ => simp [same] at h
  | compound entries =>
    cases right with
    | compound entries' =>
      rw [same] at h ⊢
      exact sameEntries_symm h
    | _ => simp [same] at h
  | float bits =>
    cases right with
    | float bits' =>
      rw [same] at h ⊢
      exact floatEq_comm h
    | _ => simp [same] at h
  | double bits =>
    cases right with
    | double bits' =>
      rw [same] at h ⊢
      exact floatEq_comm h
    | _ => simp [same] at h
  | _ => cases right <;> simp_all [same]

theorem sameAll_symm {lefts rights : List NbtTag} (h : sameAll lefts rights = true) :
    sameAll rights lefts = true := by
  match lefts, rights, h with
  | [], [], _ => rfl
  | left :: lefts, right :: rights, h =>
    rw [sameAll, and_eq_true] at h ⊢
    exact ⟨same_symm h.1, sameAll_symm h.2⟩
  | [], _ :: _, h => simp [sameAll] at h
  | _ :: _, [], h => simp [sameAll] at h

theorem sameEntries_symm {lefts rights : List (Mutf8String × NbtTag)}
    (h : sameEntries lefts rights = true) : sameEntries rights lefts = true := by
  match lefts, rights, h with
  | [], [], _ => rfl
  | (key, left) :: lefts, (key', right) :: rights, h =>
    rw [sameEntries, and_eq_true, and_eq_true, decide_eq_true_eq] at h ⊢
    exact ⟨⟨h.1.1.symm, same_symm h.1.2⟩, sameEntries_symm h.2⟩
  | [], _ :: _, h => simp [sameEntries] at h
  | _ :: _, [], h => simp [sameEntries] at h

end

/-- A list with other values. It is written back if one of them is not the same as before. -/
structure WrittenBack (kind : NbtKind) (values elements : List NbtTag) (changed : Bool) : Prop where
  notWrapper : ∀ element ∈ elements, ¬ IsWrapper element
  unchanged : changed = false → elements = listValues values
  changed : changed = true →
    ¬ List.Forall₂ (fun left right => same left right = true) elements (listValues values)

namespace WrittenBack

variable {kind : NbtKind} {values elements : List NbtTag} {changed : Bool}

theorem exists_list (h : WrittenBack kind values elements changed) :
    ∃ kind' values', (if changed then listOf elements else .list kind values) =
      .list kind' values' ∧ listValues values' = elements := by
  cases changed with
  | true => exact exists_listOf h.notWrapper
  | false => exact ⟨kind, values, rfl, (h.unchanged rfl).symm⟩

theorem eq_of_same (h : WrittenBack kind values elements changed)
    (hsame : same (if changed then listOf elements else .list kind values)
      (.list kind values) = true) :
    changed = false ∧
      List.Forall₂ (fun left right => same left right = true) elements (listValues values) := by
  obtain ⟨kind', values', heq, hvalues⟩ := h.exists_list
  rw [heq] at hsame
  have hall := forall₂_same_of_list hsame
  rw [hvalues] at hall
  cases changed with
  | true => exact absurd hall (h.changed rfl)
  | false => exact ⟨rfl, hall⟩

theorem again {changedAgain : Bool} (hagain : changed = false → changedAgain = false) :
    (if changedAgain then listOf elements
      else if changed then listOf elements else .list kind values) =
      if changed then listOf elements else .list kind values := by
  cases changed with
  | true => simp
  | false => simp [hagain rfl]

end WrittenBack

end NbtTag

end Steel
