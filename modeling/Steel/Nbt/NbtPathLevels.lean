import Steel.Lib.Selection
import Steel.Nbt.NbtPath

/-! # Setting values level by level

What setting a value through a path is meant to do: every node selects parts of all the parts that
the nodes before it have selected, and it is an error only when none is left.
-/

namespace Steel

open List NbtCompound
open Selection (depthFirst levels levels_error_lt levelwise whole)

variable {σ : Type}

/-- Parts in the places of the elements that are selected. -/
def mergeElements (selected : NbtTag → Bool) : List NbtTag → List NbtTag → List NbtTag
  | [], _ => []
  | element :: elements, parts =>
    if selected element then
      parts.headD element :: mergeElements selected elements parts.tail
    else element :: mergeElements selected elements parts

def anyChanged (before after : List NbtTag) : Bool :=
  (before.zipWith (fun before after => !after.same before) after).any id

namespace NbtPathNode

def deadEnd (tag : NbtTag) : Selection NbtTag := ⟨[], fun _ => tag⟩

/-- The selected parts of a value, where one is created if it is missing. -/
def select (node : NbtPathNode) (child parent : NbtTag) : Selection NbtTag :=
  match node with
  | compoundChild name =>
    match parent with
    | .compound compound =>
      let compound := ensureCompoundChild compound name child
      match get compound name with
      | none => deadEnd (.compound compound)
      | some tag => ⟨[tag], fun parts => .compound (set compound name (parts.headD tag))⟩
    | parent => deadEnd parent
  | matchObject name pattern =>
    match parent with
    | .compound compound =>
      let compound := ensureCompoundChild compound name (.compound pattern)
      match get compound name with
      | none => deadEnd (.compound compound)
      | some tag =>
        if compoundPatternMatches pattern tag then
          ⟨[tag], fun parts => .compound (set compound name (parts.headD tag))⟩
        else deadEnd (.compound compound)
    | parent => deadEnd parent
  | matchRootObject pattern =>
    if compoundPatternMatches pattern parent then .whole parent else deadEnd parent
  | allElements =>
    let parent := ensureNonEmptyCollection parent child
    match parent.collectionElements with
    | none => deadEnd parent
    | some elements =>
      ⟨elements, fun parts =>
        if anyChanged elements parts then parent.replaceCollection parts else parent⟩
  | indexedElement index =>
    match parent.collectionElements with
    | none => deadEnd parent
    | some elements =>
      match NbtTag.actualCollectionIndex elements.length index with
      | none => deadEnd parent
      | some actualIndex =>
        match elements[actualIndex]? with
        | none => deadEnd parent
        | some before =>
          ⟨[before], fun parts =>
            if anyChanged [before] parts then
              parent.replaceCollection (elements.set actualIndex (parts.headD before))
            else parent⟩
  | matchElement pattern =>
    match parent with
    | .list kind values =>
      let parent := ensureMatchingListElement kind values pattern
      let elements := parent.collectionElements.getD []
      ⟨elements.filter (compoundPatternMatches pattern), fun parts =>
        if anyChanged (elements.filter (compoundPatternMatches pattern)) parts then
          .listOf (mergeElements (compoundPatternMatches pattern) elements parts)
        else parent⟩
    | parent => deadEnd parent

end NbtPathNode

def visitParts (visitor : NbtVisitor σ) : σ → List NbtTag →
    Except NbtPathMutationError (Bool × List NbtTag × σ)
  | state, [] => pure (false, [], state)
  | state, part :: parts => do
    let (found, part, state) ← visitor state part
    let (foundLater, parts, state) ← visitParts visitor state parts
    pure (found || foundLater, part :: parts, state)

theorem visitParts_singleton (visitor : NbtVisitor σ) (state : σ) (part : NbtTag) :
    visitParts visitor state [part] =
      (visitor state part).map fun (found, part, state) => (found, [part], state) := by
  cases h : visitor state part with
  | error e => simp only [visitParts, h, bind, Except.bind, Except.map]
  | ok result => simp [visitParts, h, bind, Except.bind, Except.map, pure, Except.pure]

theorem visitElements_eq (selected : NbtTag → Bool) (visitor : NbtVisitor σ)
    (elements : List NbtTag) :
    ∀ state, visitElements selected visitor state elements =
      (visitParts visitor state (elements.filter selected)).map fun (found, parts, state) =>
        (found, anyChanged (elements.filter selected) parts,
          mergeElements selected elements parts, state) := by
  induction elements with
  | nil => exact fun state => rfl
  | cons element elements ih =>
    intro state
    by_cases hselected : selected element
    · simp only [visitElements, if_pos hselected, filter_cons_of_pos hselected, visitParts]
      cases hvisit : visitor state element with
      | error e => rfl
      | ok result =>
        simp only [bind, Except.bind, ih]
        cases hparts : visitParts visitor result.2.2 (elements.filter selected) with
        | error e => rfl
        | ok results =>
          simp [pure, Except.pure, Except.map, anyChanged, mergeElements, hselected]
    · simp only [visitElements, if_neg hselected, filter_cons_of_neg hselected, ih]
      cases hparts : visitParts visitor state (elements.filter selected) with
      | error e => rfl
      | ok results =>
        simp [bind, Except.bind, Except.map, pure, Except.pure, mergeElements, hselected]

theorem length_visitParts {visitor : NbtVisitor σ} {parts : List NbtTag} :
    ∀ {state found after state'}, visitParts visitor state parts = .ok (found, after, state') →
      after.length = parts.length := by
  induction parts with
  | nil =>
    intro state found after state' h
    cases h
    rfl
  | cons part parts ih =>
    intro state found after state' h
    rw [visitParts] at h
    cases hvisit : visitor state part with
    | error e => simp [hvisit, bind, Except.bind] at h
    | ok result =>
      cases hparts : visitParts visitor result.2.2 parts with
      | error e => simp [hvisit, hparts, bind, Except.bind] at h
      | ok results =>
        simp [hvisit, hparts, bind, Except.bind, pure, Except.pure] at h
        rw [← h.2.1, length_cons, ih hparts, length_cons]

theorem mergeElements_all : ∀ {elements parts : List NbtTag}, parts.length = elements.length →
    mergeElements (fun _ => true) elements parts = parts := by
  intro elements
  induction elements with
  | nil => exact fun h => (length_eq_zero_iff.1 h).symm
  | cons element elements ih =>
    rintro (_ | ⟨part, parts⟩) h
    · cases h
    · simp [mergeElements, ih (Nat.succ.inj h)]

namespace NbtPathNode

theorem getOrCreateTag_eq (node : NbtPathNode) (parent child : NbtTag) (visitor : NbtVisitor σ)
    (state : σ) :
    node.getOrCreateTag parent child visitor state =
      (visitParts visitor state (node.select child parent).parts).map
        fun (found, parts, state) => (found, (node.select child parent).put parts, state) := by
  cases node with
  | compoundChild name =>
    cases parent with
    | compound compound =>
      simp only [getOrCreateTag, select]
      cases get (ensureCompoundChild compound name child) name with
      | none => rfl
      | some tag =>
        simp only [visitParts_singleton]
        cases visitor state tag <;> rfl
    | _ => rfl
  | matchObject name pattern =>
    cases parent with
    | compound compound =>
      simp only [getOrCreateTag, select]
      cases get (ensureCompoundChild compound name (.compound pattern)) name with
      | none => rfl
      | some tag =>
        dsimp only
        split_ifs
        · simp only [visitParts_singleton]
          cases visitor state tag <;> rfl
        · rfl
    | _ => rfl
  | matchRootObject pattern =>
    simp only [getOrCreateTag, select]
    split_ifs
    · simp only [whole, visitParts_singleton]
      cases visitor state parent <;> rfl
    · rfl
  | allElements =>
    simp only [getOrCreateTag, visitAllCollectionElements, select]
    cases (ensureNonEmptyCollection parent child).collectionElements with
    | none => rfl
    | some elements =>
      cases elements with
      | nil => rfl
      | cons element elements =>
        simp only [isEmpty_cons, Bool.false_eq_true, if_false, visitElements_eq, filter_true]
        cases hparts : visitParts visitor state (element :: elements) with
        | error e => rfl
        | ok results =>
          have hmerge := mergeElements_all (length_visitParts hparts)
          simp [bind, Except.bind, Except.map, pure, Except.pure, hmerge]
  | indexedElement index =>
    simp only [getOrCreateTag, visitIndexedCollectionElement, select]
    cases parent.collectionElements with
    | none => rfl
    | some elements =>
      dsimp only
      cases NbtTag.actualCollectionIndex elements.length index with
      | none => rfl
      | some actualIndex =>
        dsimp only
        cases elements[actualIndex]? with
        | none => rfl
        | some before =>
          simp only [visitParts_singleton]
          cases visitor state before with
          | error e => rfl
          | ok result => simp [bind, Except.bind, Except.map, pure, Except.pure, anyChanged]
  | matchElement pattern =>
    cases parent with
    | list kind values =>
      simp only [getOrCreateTag, visitMatchingListElements, select, visitElements_eq]
      cases visitParts visitor state _ <;> rfl
    | _ => rfl

end NbtPathNode

namespace NbtPath

def selectLevels (original : List Char) : List NbtPathNodeEntry → Selection NbtTag →
    Except NbtPathMutationError (Selection NbtTag)
  | entry :: next :: rest, selection =>
    let selection := selection.bind (entry.node.select next.node.createPreferredParentTag)
    if selection.parts.isEmpty then .error (.nothingFound (original.take entry.originalEnd))
    else selectLevels original (next :: rest) selection
  | _, selection => .ok selection

variable (path : NbtPath)

def setLevels (tag value : NbtTag) : Except NbtPathMutationError (ℕ × NbtTag) :=
  if value.isTooDeep path.nodes.length then .error .tooDeep
  else
    match path.nodes.getLast? with
    | none => .ok (0, tag)
    | some last =>
      (selectLevels path.original path.nodes (.whole tag)).map fun selection =>
        let results := selection.parts.map fun part => last.node.setTag part value
        ((results.map Prod.fst).sum, selection.put (results.map Prod.snd))

def steps : List NbtPathNodeEntry → List (NbtTag → Selection NbtTag)
  | entry :: next :: rest =>
    entry.node.select next.node.createPreferredParentTag :: steps (next :: rest)
  | _ => []

/-- How far the branches get: to the last node, or to a dead end with so many nodes between it
and the last one. -/
def branchEnds (tag : NbtTag) : List (Option ℕ) :=
  Selection.ends (steps path.nodes) tag

/-- The error for a dead end with so many nodes between it and the last one. -/
def nothingFoundAt (original : List Char) (nodes : List NbtPathNodeEntry) (left : ℕ) :
    NbtPathMutationError :=
  .nothingFound (original.take ((nodes.reverse[left + 1]?.map (·.originalEnd)).getD 0))

theorem length_steps (nodes : List NbtPathNodeEntry) : (steps nodes).length = nodes.length - 1 := by
  induction nodes using steps.induct with
  | case1 entry next rest ih => simp [steps, ih]
  | case2 nodes hnodes =>
    match nodes with
    | [] => rfl
    | [_] => rfl
    | entry :: next :: rest => exact absurd rfl (hnodes entry next rest)

variable {nodes : List NbtPathNodeEntry} (original : List Char)

theorem nothingFoundAt_cons (entry : NbtPathNodeEntry) {left : ℕ} (h : left + 1 < nodes.length) :
    nothingFoundAt original (entry :: nodes) left = nothingFoundAt original nodes left := by
  rw [nothingFoundAt, reverse_cons, List.getElem?_append_left (by simpa using h)]
  rfl

theorem nothingFoundAt_head (entry next : NbtPathNodeEntry) (rest : List NbtPathNodeEntry) :
    nothingFoundAt original (entry :: next :: rest) rest.length =
      .nothingFound (original.take entry.originalEnd) := by
  rw [nothingFoundAt, reverse_cons, List.getElem?_append_right (by simp)]
  simp

theorem nothingFoundAt_inj {left left' : ℕ} (hleft : left + 1 < path.nodes.length)
    (hleft' : left' + 1 < path.nodes.length)
    (h : nothingFoundAt path.original path.nodes left =
      nothingFoundAt path.original path.nodes left') : left = left' := by
  have hreverse : (path.nodes.reverse.map (·.originalEnd)).Pairwise (· > ·) := by
    rw [map_reverse, pairwise_reverse]
    exact path.ends
  have hend : ∀ index (hindex : index < path.nodes.reverse.length),
      (path.nodes.reverse[index]).originalEnd ≤ path.original.length :=
    fun index hindex => path.ends_le _ (mem_reverse.1 (getElem_mem hindex))
  rw [← path.nodes.length_reverse] at hleft hleft'
  simp only [nothingFoundAt, List.getElem?_eq_getElem hleft, List.getElem?_eq_getElem hleft',
    Option.map_some, Option.getD_some, NbtPathMutationError.nothingFound.injEq] at h
  have hlength := congrArg List.length h
  rw [length_take, length_take, Nat.min_eq_left (hend _ hleft),
    Nat.min_eq_left (hend _ hleft')] at hlength
  have hdecreasing := pairwise_iff_getElem.1 hreverse
  simp only [length_map, getElem_map] at hdecreasing
  rcases Nat.lt_trichotomy left left' with hlt | heq | hgt
  · have := hdecreasing _ _ hleft hleft' (by omega)
    omega
  · exact heq
  · have := hdecreasing _ _ hleft' hleft (by omega)
    omega

/-- The outcome of the depth-first update, with the error of the dead end. -/
def setResult (error : ℕ → NbtPathMutationError) :
    Except ℕ (ℕ × NbtTag) → Except NbtPathMutationError (SetOutcome × NbtTag)
  | .error left => .error (error left)
  | .ok (modified, tag) => .ok (⟨true, modified⟩, tag)

theorem visitParts_eq_mapM {update : NbtTag → Except ℕ (ℕ × NbtTag)}
    {error : ℕ → NbtPathMutationError} {visitor : NbtVisitor (ℕ × Bool)}
    (h : ∀ modified deeperFound part, visitor (modified, deeperFound) part =
      (setResult error (update part)).map fun (outcome, part) =>
        (outcome.found, part, modified + outcome.modified, deeperFound || outcome.found))
    (parts : List NbtTag) :
    ∀ modified deeperFound, visitParts visitor (modified, deeperFound) parts =
      match parts.mapM update with
      | .error left => .error (error left)
      | .ok results =>
        .ok (!parts.isEmpty, results.map Prod.snd,
          (modified + (results.map Prod.fst).sum, deeperFound || !parts.isEmpty)) := by
  induction parts with
  | nil =>
    intro modified deeperFound
    simp [visitParts, pure, Except.pure]
  | cons part parts ih =>
    intro modified deeperFound
    simp only [visitParts, h, mapM_cons]
    cases update part with
    | error left => rfl
    | ok result =>
      simp only [setResult, Except.map, bind, Except.bind, ih]
      cases parts.mapM update with
      | error left => rfl
      | ok results => simp [pure, Except.pure, Nat.add_assoc]

variable {last : NbtPathNodeEntry}

theorem setAt_eq (value : NbtTag) (hlast : nodes.getLast? = some last) :
    ∀ tag, setAt original value nodes tag = setResult (nothingFoundAt original nodes)
        (depthFirst (fun part => last.node.setTag part value) (steps nodes) tag) := by
  induction nodes using steps.induct with
  | case1 entry next rest ih =>
    intro tag
    have hnext := ih (by simpa using hlast)
    obtain ⟨update, hupdate⟩ : ∃ update, update = depthFirst
        (fun part => last.node.setTag part value) (steps (next :: rest)) := ⟨_, rfl⟩
    rw [← hupdate] at hnext
    have hvisitor : ∀ modified deeperFound part,
        (setAt original value (next :: rest) part).map (fun (outcome, part) =>
          (outcome.found, part, modified + outcome.modified, deeperFound || outcome.found)) =
        (setResult (nothingFoundAt original (entry :: next :: rest)) (update part)).map
          fun (outcome, part) =>
            (outcome.found, part, modified + outcome.modified, deeperFound || outcome.found) := by
      intro modified deeperFound part
      rw [hnext part]
      cases hpart : update part with
      | error left =>
        rw [hupdate] at hpart
        have hlt := Selection.depthFirst_error_lt hpart
        rw [length_steps] at hlt
        rw [setResult, setResult, nothingFoundAt_cons original entry (by omega)]
      | ok result => rfl
    rw [setAt, NbtPathNode.getOrCreateTag_eq, visitParts_eq_mapM hvisitor, steps,
      depthFirst, ← hupdate]
    generalize entry.node.select next.node.createPreferredParentTag tag = selection
    cases hempty : selection.parts.isEmpty with
    | true =>
      rw [List.isEmpty_iff] at hempty
      simp [hempty, bind, Except.bind, Except.map, pure, Except.pure, throw, throwThe,
        MonadExceptOf.throw, setResult, length_steps, nothingFoundAt_head]
    | false =>
      cases selection.parts.mapM update with
      | error left => rfl
      | ok results => simp [bind, Except.bind, Except.map, pure, Except.pure, setResult]
  | case2 nodes hnodes =>
    intro tag
    rcases nodes with _ | ⟨entry, _ | ⟨next, rest⟩⟩
    · cases hlast
    · obtain rfl : entry = last := by simpa using hlast
      rfl
    · exact absurd rfl (hnodes entry next rest)

theorem selectLevels_eq : ∀ selection, selectLevels original nodes selection =
      match levels (steps nodes) selection with
      | .error left => .error (nothingFoundAt original nodes left)
      | .ok selection => .ok selection := by
  induction nodes using steps.induct with
  | case1 entry next rest ih =>
    intro selection
    rw [selectLevels, steps, levels]
    generalize selection.bind (entry.node.select next.node.createPreferredParentTag) = selection
    split_ifs
    · rw [length_steps, length_cons, Nat.add_sub_cancel]
      exact congrArg Except.error (nothingFoundAt_head original entry next rest).symm
    · rw [ih]
      cases hlevels : levels (steps (next :: rest)) selection with
      | error left =>
        have hlt := levels_error_lt hlevels
        rw [length_steps] at hlt
        dsimp only
        rw [nothingFoundAt_cons original entry (by omega)]
      | ok selection => rfl
  | case2 nodes hnodes =>
    intro selection
    rcases nodes with _ | ⟨entry, _ | ⟨next, rest⟩⟩
    · rfl
    · rfl
    · exact absurd rfl (hnodes entry next rest)

def pathResult : Except ℕ (ℕ × NbtTag) → Except NbtPathMutationError (ℕ × NbtTag)
  | .error left => .error (nothingFoundAt path.original path.nodes left)
  | .ok result => .ok result

theorem set_eq_depthFirst {tag value : NbtTag}
    (hvalue : value.isTooDeep path.nodes.length = false) (hlast : path.nodes.getLast? = some last) :
    path.set tag value = path.pathResult
      (depthFirst (fun part => last.node.setTag part value) (steps path.nodes) tag) := by
  rw [set, hvalue, if_neg Bool.false_ne_true]
  match hnodes : path.nodes with
  | [] =>
    rw [hnodes] at hlast
    cases hlast
  | [entry] =>
    rw [hnodes] at hlast
    obtain rfl : entry = last := by simpa using hlast
    rfl
  | entry :: next :: rest =>
    rw [hnodes] at hlast
    dsimp only
    rw [setAt_eq path.original value hlast tag]
    cases hupdate : depthFirst (fun part => last.node.setTag part value)
      (steps (entry :: next :: rest)) tag with
    | error left => simp [setResult, pathResult, hnodes, bind, Except.bind]
    | ok result => rfl

theorem setLevels_eq_levelwise {tag value : NbtTag}
    (hvalue : value.isTooDeep path.nodes.length = false) (hlast : path.nodes.getLast? = some last) :
    path.setLevels tag value = path.pathResult
      (levelwise (fun part => last.node.setTag part value) (steps path.nodes) tag) := by
  rw [setLevels, hvalue, if_neg Bool.false_ne_true, hlast]
  dsimp only
  rw [selectLevels_eq, levelwise]
  cases levels (steps path.nodes) (.whole tag) <;> rfl

theorem pathResult_inj {result result' : Except ℕ (ℕ × NbtTag)}
    (hresult : ∀ left, result = .error left → left < (steps path.nodes).length)
    (hresult' : ∀ left, result' = .error left → left < (steps path.nodes).length)
    (h : path.pathResult result = path.pathResult result') : result = result' := by
  cases result with
  | error left =>
    cases result' with
    | error left' =>
      have hlt := hresult left rfl
      have hlt' := hresult' left' rfl
      rw [length_steps] at hlt hlt'
      simp only [pathResult, Except.error.injEq] at h
      rw [path.nothingFoundAt_inj (by omega) (by omega) h]
    | ok result' => cases h
  | ok result =>
    cases result' with
    | error left' => cases h
    | ok result' => exact congrArg Except.ok (Except.ok.inj h)

/-- Setting depth first is setting level by level if and only if no branch ends before the last
node, or all of them do and the first one gets as far as any other. -/
theorem set_eq_setLevels_iff (path : NbtPath) (tag value : NbtTag) :
    path.set tag value = path.setLevels tag value ↔
      value.isTooDeep path.nodes.length ∨ (∀ e ∈ path.branchEnds tag, e = none) ∨
        (none ∉ path.branchEnds tag ∧ ∃ left, (path.branchEnds tag).head? = some (some left) ∧
          ∀ other, some other ∈ path.branchEnds tag → left ≤ other) := by
  cases hvalue : value.isTooDeep path.nodes.length with
  | true => simp [set, setLevels, hvalue, throw, throwThe, MonadExceptOf.throw]
  | false =>
    cases hlast : path.nodes.getLast? with
    | none =>
      have hnodes : path.nodes = [] := List.getLast?_eq_none_iff.1 hlast
      rw [hnodes, length_nil] at hvalue
      simp [set, setLevels, hvalue, hnodes, branchEnds, steps, Selection.ends, pure, Except.pure]
    | some last =>
      rw [path.set_eq_depthFirst hvalue hlast, path.setLevels_eq_levelwise hvalue hlast]
      simp only [Bool.false_eq_true, false_or]
      rw [branchEnds, ← Selection.depthFirst_eq_levelwise_iff
        (fun part => last.node.setTag part value)]
      constructor
      · intro heq
        refine path.pathResult_inj (fun left h => Selection.depthFirst_error_lt h) ?_ heq
        intro left h
        rw [levelwise] at h
        cases hlevels : levels (steps path.nodes) (.whole tag) with
        | error left' =>
          rw [hlevels] at h
          cases h
          exact levels_error_lt hlevels
        | ok selection =>
          rw [hlevels] at h
          cases h
      · exact congrArg path.pathResult

/-- `a[].b.c.d` -/
def sample : NbtPath where
  original := ['a', '[', ']', '.', 'b', '.', 'c', '.', 'd']
  nodes := [⟨.compoundChild ['a'], 1⟩, ⟨.allElements, 3⟩, ⟨.compoundChild ['b'], 5⟩,
    ⟨.compoundChild ['c'], 7⟩, ⟨.compoundChild ['d'], 9⟩]
  ends := by decide
  ends_le := by simp
  named := by simp

/-- `{a:[{b:1},{b:{}}]}` with the given value for the second `b` -/
def sampleTag (second : NbtTag) : NbtTag :=
  .compound [(.text ['a'], .list .compound
    [.compound [(.text ['b'], .int 1)], .compound [(.text ['b'], second)]])]

/-- The first element cannot be descended into, and keeps the second one from being set. -/
theorem sample_set_setLevels : (NbtTag.int 7).isTooDeep sample.nodes.length = false ∧
    sample.set (sampleTag (.compound [])) (.int 7) =
      .error (.nothingFound ['a', '[', ']', '.', 'b', '.', 'c']) ∧
    sample.setLevels (sampleTag (.compound [])) (.int 7) =
      .ok (1, sampleTag (.compound [(.text ['c'], .compound [(.text ['d'], .int 7)])])) := by
  have hvalue : (NbtTag.int 7).isTooDeep sample.nodes.length = false := by
    simp [NbtTag.isTooDeep, sample]
  constructor
  · exact hvalue
  · rw [set, setLevels, hvalue]
    constructor <;> rfl

end NbtPath

end Steel
