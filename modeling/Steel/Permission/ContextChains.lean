import Mathlib.Data.List.Pairwise
import Mathlib.Data.List.Sort
import Mathlib.Data.Set.Lattice
import Steel.Permission.RuleContext

/-! # Chains as sets of constraints

What a chain demands is a set of constraints on the active context. Building a chain fails if two
of them contradict each other, and the form of a chain is determined by them.
-/

namespace Steel

open List

namespace PermissionRuleContext

/-- What a single constraint is about. -/
inductive Slot where
  | domain
  | world
  | custom (key : List Char)
  deriving DecidableEq

def slot : PermissionRuleContext → Option Slot
  | .domain _ => some .domain
  | .world _ => some .world
  | .custom key _ => some (.custom key)
  | .global => none
  | .all _ => none

def IsAtom (context : PermissionRuleContext) : Prop := (slot context).isSome = true

def atoms : PermissionRuleContext → List PermissionRuleContext
  | .global => []
  | .all contexts => contexts
  | context => [context]

def implied : PermissionRuleContext → Set PermissionRuleContext
  | .world id => {.world id, .domain id.nameSpace.toList}
  | context => {context}

def demands (contexts : List PermissionRuleContext) : Set PermissionRuleContext :=
  ⋃ context ∈ contexts, implied context

def Consistent (constraints : Set PermissionRuleContext) : Prop :=
  ∀ x ∈ constraints, ∀ y ∈ constraints, slot x = slot y → x = y

section

variable {contexts : List PermissionRuleContext} {y : PermissionRuleContext}

theorem mem_demands : y ∈ demands contexts ↔ ∃ x ∈ contexts, y ∈ implied x := by
  simp [demands]

theorem demands_append (contexts contexts' : List PermissionRuleContext) :
    demands (contexts ++ contexts') = demands contexts ∪ demands contexts' := by
  ext y
  simp [mem_demands, or_and_right, exists_or]

theorem demands_congr {contexts' : List PermissionRuleContext}
    (h : ∀ x, x ∈ contexts ↔ x ∈ contexts') : demands contexts = demands contexts' := by
  ext y
  simp [mem_demands, h]

theorem mem_implied_self (context : PermissionRuleContext) : context ∈ implied context := by
  cases context <;> simp [implied]

variable {x : PermissionRuleContext}

theorem mem_demands_of_mem (hx : x ∈ contexts) :
    x ∈ demands contexts := mem_demands.2 ⟨x, hx, mem_implied_self x⟩

theorem mem_demands_iff :
    y ∈ demands contexts ↔
      y ∈ contexts ∨ ∃ id, .world id ∈ contexts ∧ y = .domain id.nameSpace.toList := by
  rw [mem_demands]
  constructor
  · rintro ⟨x, hx, hy⟩
    cases x with
    | world id =>
      rcases hy with rfl | rfl
      · exact .inl hx
      · exact .inr ⟨id, hx, rfl⟩
    | _ =>
      obtain rfl : y = _ := hy
      exact .inl hx
  · rintro (hy | ⟨id, hid, rfl⟩)
    · exact ⟨y, hy, mem_implied_self y⟩
    · exact ⟨_, hid, .inr rfl⟩

theorem Consistent.mono {constraints constraints' : Set PermissionRuleContext}
    (hsub : constraints ⊆ constraints') (h : Consistent constraints') : Consistent constraints :=
  fun x hx y hy hslot => h x (hsub hx) y (hsub hy) hslot

variable {context : PermissionRuleContext}

theorem slot_eq_domain :
    slot context = some .domain ↔ ∃ value, context = .domain value := by
  cases context <;> simp [slot]

section Push

variable {context existing : PermissionRuleContext} {contexts : List PermissionRuleContext}

theorem findBinding_of_slot_ne (hslot : slot existing ≠ slot context) :
    findBinding context (existing :: contexts) = findBinding context contexts := by
  cases context <;> cases existing <;> simp_all [findBinding, slot, eq_comm]

section

variable (hatom : IsAtom context)

include hatom

theorem findBinding_cons_self :
    findBinding context (context :: contexts) = some (.ok ()) := by
  cases context <;> simp_all [findBinding, IsAtom, slot]

theorem findBinding_of_ne (hslot : slot existing = slot context) (hne : existing ≠ context) :
    ∃ e, findBinding context (existing :: contexts) = some (.error e) := by
  cases context <;> cases existing <;> simp_all [findBinding, IsAtom, slot, eq_comm]

theorem findBinding_spec : match findBinding context contexts with
    | none => ∀ x ∈ contexts, slot x ≠ slot context
    | some (.ok ()) => context ∈ contexts
    | some (.error _) => ∃ x ∈ contexts, slot x = slot context ∧ x ≠ context := by
  induction contexts with
  | nil => simp [findBinding]
  | cons existing contexts ih =>
    by_cases hslot : slot existing = slot context
    · by_cases heq : existing = context
      · subst heq
        rw [findBinding_cons_self hatom]
        exact mem_cons_self
      · obtain ⟨e, he⟩ := findBinding_of_ne hatom hslot heq
        rw [he]
        exact ⟨existing, mem_cons_self, hslot, heq⟩
    · rw [findBinding_of_slot_ne hslot]
      split at ih
      · exact forall_mem_cons.2 ⟨hslot, ih⟩
      · exact mem_cons_of_mem _ ih
      · obtain ⟨x, hx, hne⟩ := ih
        exact ⟨x, mem_cons_of_mem _ hx, hne⟩

theorem slot_eq_of_beq (h : (context == existing) = true) :
    slot existing = slot context := by
  change beq context existing = true at h
  cases context <;> cases existing <;> simp_all [beq, slot, IsAtom]

theorem contains_eq_false (h : ∀ x ∈ contexts, slot x ≠ slot context) :
    contexts.contains context = false := by
  rw [contains_eq_any_beq, any_eq_false]
  intro x hx hbeq
  exact h x hx (slot_eq_of_beq hatom hbeq)

end

def Distinct (contexts : List PermissionRuleContext) : Prop :=
  (∀ x ∈ contexts, IsAtom x) ∧ contexts.Pairwise fun x y => slot x ≠ slot y

theorem Distinct.consistent (h : Distinct contexts) {x y : PermissionRuleContext}
    (hx : x ∈ contexts) (hy : y ∈ contexts) (hslot : slot x = slot y) : x = y := by
  have : Std.Symm fun x y : PermissionRuleContext => slot x ≠ slot y := ⟨fun _ _ hne => hne.symm⟩
  by_contra hne
  exact h.2.forall hx hy hne hslot

theorem pushUniqueContext_spec (h : Distinct contexts) (hatom : IsAtom context) :
    match pushUniqueContext contexts context with
    | .ok contexts' => Distinct contexts' ∧ ∀ x, x ∈ contexts' ↔ x ∈ contexts ∨ x = context
    | .error _ => ∃ x ∈ contexts, slot x = slot context ∧ x ≠ context := by
  have hspec := @findBinding_spec context contexts hatom
  unfold pushUniqueContext
  rcases hfind : findBinding context contexts with _ | e | _ <;> rw [hfind] at hspec
  · change ∀ x ∈ contexts, slot x ≠ slot context at hspec
    simp only [contains_eq_false hatom hspec, Bool.false_eq_true, if_false]
    constructor
    · constructor
      · intro x hx
        rcases mem_append.1 hx with hx | hx
        · exact h.1 x hx
        · rwa [mem_singleton.1 hx]
      · rw [pairwise_append]
        refine ⟨h.2, pairwise_singleton _ _, fun x hx y hy => ?_⟩
        rw [mem_singleton.1 hy]
        exact hspec x hx
    · simp
  · exact hspec
  · exact ⟨h, fun x => ⟨.inl, fun hx => hx.elim id fun heq => heq ▸ hspec⟩⟩

/-- Pushing links keeps all of them, and fails if two of them have one slot. -/
theorem foldlM_pushUniqueContext_spec {links : List PermissionRuleContext} (h : Distinct contexts)
    (hatom : ∀ x ∈ links, IsAtom x) :
    match links.foldlM pushUniqueContext contexts with
    | .ok contexts' => Distinct contexts' ∧ ∀ x, x ∈ contexts' ↔ x ∈ contexts ∨ x ∈ links
    | .error _ => ¬ Consistent {x | x ∈ contexts ∨ x ∈ links} := by
  induction links generalizing contexts with
  | nil => exact ⟨h, by simp⟩
  | cons link links ih =>
    obtain ⟨hlink, hlinks⟩ := forall_mem_cons.1 hatom
    have hpush := pushUniqueContext_spec h hlink
    rw [foldlM_cons]
    cases hpushed : pushUniqueContext contexts link with
    | error e =>
      rw [hpushed] at hpush
      obtain ⟨x, hx, hslot, hne⟩ := hpush
      exact fun hcons => hne (hcons x (.inl hx) link (.inr mem_cons_self) hslot)
    | ok contexts' =>
      rw [hpushed] at hpush
      obtain ⟨hdistinct, hmem⟩ := hpush
      have hset : ∀ x, (x ∈ contexts' ∨ x ∈ links) ↔ (x ∈ contexts ∨ x ∈ link :: links) := by
        intro x
        rw [hmem, mem_cons, or_assoc]
      have hrest := ih hdistinct hlinks
      simp only [hset] at hrest
      exact hrest

end Push

theorem foldlM_flattenContext (contexts flattened : List PermissionRuleContext) :
    contexts.foldlM flattenContext flattened =
      (contexts.flatMap atoms).foldlM pushUniqueContext flattened := by
  induction contexts generalizing flattened with
  | nil => rfl
  | cons context contexts ih =>
    rw [foldlM_cons, flatMap_cons, foldlM_append]
    have hcontext : flattenContext flattened context =
        (atoms context).foldlM pushUniqueContext flattened := by
      cases context with
      | global => rfl
      | all contexts => rfl
      | _ => exact (bind_pure _).symm
    rw [hcontext]
    exact bind_congr ih

theorem findSome?_domain? {value : List Char} (h : contexts.findSome? domain? = some value) :
    .domain value ∈ contexts := by
  obtain ⟨x, hx, hvalue⟩ := List.exists_of_findSome?_eq_some h
  cases x <;> simp_all [domain?]

theorem findSome?_worldDomain? {value : List Char}
    (h : contexts.findSome? worldDomain? = some value) :
    ∃ id, .world id ∈ contexts ∧ id.nameSpace.toList = value := by
  obtain ⟨x, hx, hvalue⟩ := List.exists_of_findSome?_eq_some h
  cases x with
  | world id => exact ⟨id, hx, by simpa [worldDomain?] using hvalue⟩
  | _ => simp [worldDomain?] at hvalue

/-- A flat chain without a domain beside a world. -/
structure Normalized (contexts : List PermissionRuleContext) : Prop where
  distinct : Distinct contexts
  noDomain : ∀ value id, .domain value ∈ contexts → .world id ∉ contexts

theorem Normalized.consistent (h : Normalized contexts) : Consistent (demands contexts) := by
  intro x hx y hy hslot
  rw [mem_demands_iff] at hx hy
  rcases hx with hx | ⟨id, hid, rfl⟩ <;> rcases hy with hy | ⟨id', hid', rfl⟩
  · exact h.distinct.consistent hx hy hslot
  · obtain ⟨value, rfl⟩ := slot_eq_domain.1 hslot
    exact absurd hid' (h.noDomain _ _ hx)
  · obtain ⟨value, rfl⟩ := slot_eq_domain.1 hslot.symm
    exact absurd hid (h.noDomain _ _ hy)
  · obtain rfl : id = id' := by
      simpa using h.distinct.consistent hid hid' rfl
    rfl

/-- A domain beside a world is dropped, and it must be the domain of the world. -/
theorem normalizeWorldDomain_spec {contexts : List PermissionRuleContext} (h : Distinct contexts) :
    match normalizeWorldDomain contexts with
    | .ok contexts' => Normalized contexts' ∧ demands contexts' = demands contexts
    | .error _ => ¬ Consistent (demands contexts) := by
  unfold normalizeWorldDomain
  cases hdomain : contexts.findSome? domain? with
  | none =>
    refine ⟨⟨h, fun value id hvalue => ?_⟩, rfl⟩
    simpa [domain?] using List.findSome?_eq_none_iff.1 hdomain _ hvalue
  | some value =>
    have hvalue := findSome?_domain? hdomain
    cases hworld : contexts.findSome? worldDomain? with
    | none =>
      refine ⟨⟨h, fun value id _ hid => ?_⟩, rfl⟩
      simpa [worldDomain?] using List.findSome?_eq_none_iff.1 hworld _ hid
    | some worldValue =>
      obtain ⟨id, hid, rfl⟩ := findSome?_worldDomain? hworld
      by_cases heq : value = id.nameSpace.toList
      · simp only [heq, ne_eq, not_true_eq_false, if_false]
        subst heq
        constructor
        · refine ⟨⟨fun x hx => h.1 x (mem_of_mem_filter hx), h.2.filter _⟩, ?_⟩
          intro value id hvalue
          simp [domain?] at hvalue
        · ext y
          rw [mem_demands_iff, mem_demands_iff]
          constructor
          · rintro (hy | ⟨id', hid', rfl⟩)
            · exact .inl (mem_of_mem_filter hy)
            · exact .inr ⟨id', mem_of_mem_filter hid', rfl⟩
          · rintro (hy | ⟨id', hid', rfl⟩)
            · cases hdomain : domain? y with
              | none => exact .inl (mem_filter.2 ⟨hy, by simp [hdomain]⟩)
              | some value =>
                obtain rfl : y = .domain id.nameSpace.toList := by
                  refine h.consistent hy hvalue ?_
                  cases y <;> simp_all [domain?, slot]
                exact .inr ⟨id, mem_filter.2 ⟨hid, rfl⟩, rfl⟩
            · exact .inr ⟨id', mem_filter.2 ⟨hid', rfl⟩, rfl⟩
      · simp only [ne_eq, heq, not_false_eq_true, if_true]
        intro hcons
        have heq' := hcons _ (mem_demands_of_mem hvalue) _
          (mem_demands_iff.2 (.inr ⟨id, hid, rfl⟩)) rfl
        rw [domain.injEq] at heq'
        exact heq heq'

def orderKey (context : PermissionRuleContext) : ℕ ×ₗ List Char ×ₗ List Char :=
  toLex (ruleContextRank context,
    match context with
    | .domain value => toLex (value, [])
    | .world id => toLex (id.nameSpace.toList, id.path.toList)
    | .custom key value => toLex (key, value)
    | _ => toLex ([], []))

theorem compareRuleContexts_eq (left right : PermissionRuleContext) :
    compareRuleContexts left right = compare (orderKey left) (orderKey right) := by
  cases left <;> cases right <;>
    simp [compareRuleContexts, orderKey, ruleContextRank, Prod.Lex.compare_def, compareLex,
      compareOn] <;>
    rfl

instance : Std.TransCmp compareRuleContexts where
  eq_swap := by
    intro x y
    rw [compareRuleContexts_eq, compareRuleContexts_eq]
    exact Std.OrientedOrd.eq_swap
  isLE_trans := by
    intro x y z hxy hyz
    rw [compareRuleContexts_eq] at hxy hyz ⊢
    exact Std.TransOrd.isLE_trans hxy hyz

theorem eq_of_compareRuleContexts {x : PermissionRuleContext} (hx : IsAtom x)
    (h : compareRuleContexts x y = .eq) : x = y := by
  cases x with
  | world id =>
    cases y with
    | world id' =>
      obtain ⟨nameSpace, path⟩ := id
      obtain ⟨nameSpace', path'⟩ := id'
      simpa [compareRuleContexts, ruleContextRank, Ordering.then_eq_eq, String.toList_inj] using h
    | _ => cases h
  | _ =>
    cases y <;>
      simp_all [compareRuleContexts, ruleContextRank, IsAtom, slot, Ordering.then_eq_eq]

theorem isLE_or_isLE (x y : PermissionRuleContext) :
    ((compareRuleContexts x y).isLE || (compareRuleContexts y x).isLE) = true := by
  rw [@Std.OrientedCmp.eq_swap _ compareRuleContexts _ y]
  cases compareRuleContexts x y <;> rfl

/-- The links of a finished chain. -/
structure Sorted (contexts : List PermissionRuleContext) : Prop extends Normalized contexts where
  sorted : contexts.Pairwise fun x y => compareRuleContexts x y = .lt

theorem Normalized.sort (h : Normalized contexts) :
    Sorted (contexts.mergeSort fun left right => (compareRuleContexts left right).isLE) := by
  have hperm := mergeSort_perm contexts fun left right => (compareRuleContexts left right).isLE
  have hdistinct : Distinct
      (contexts.mergeSort fun left right => (compareRuleContexts left right).isLE) := by
    constructor
    · intro x hx
      exact h.distinct.1 x (hperm.mem_iff.1 hx)
    · exact hperm.symm.pairwise h.distinct.2 Ne.symm
  refine ⟨⟨hdistinct, fun value id hvalue hid => ?_⟩, ?_⟩
  · exact h.noDomain value id (hperm.mem_iff.1 hvalue) (hperm.mem_iff.1 hid)
  · have hle := pairwise_mergeSort (fun _ _ _ => Std.TransCmp.isLE_trans) isLE_or_isLE contexts
    refine (hle.and hdistinct.2).imp_of_mem fun {x y} hx _ ⟨hxy, hne⟩ => ?_
    cases hcompare : compareRuleContexts x y with
    | lt => rfl
    | eq => exact absurd (congrArg slot (eq_of_compareRuleContexts (hdistinct.1 x hx) hcompare)) hne
    | gt =>
      rw [hcompare] at hxy
      cases hxy

theorem Normalized.mem_iff (h : Normalized contexts) :
    x ∈ contexts ↔ x ∈ demands contexts ∧
      (slot x = some .domain → ∀ id, .world id ∉ demands contexts) := by
  have hworld (id : Identifier) : .world id ∈ demands contexts ↔ .world id ∈ contexts := by
    simp [mem_demands_iff]
  constructor
  · intro hx
    refine ⟨mem_demands_of_mem hx, fun hslot id hid => ?_⟩
    obtain ⟨value, rfl⟩ := slot_eq_domain.1 hslot
    exact h.noDomain value id hx ((hworld id).1 hid)
  · rintro ⟨hx, hdomain⟩
    rcases mem_demands_iff.1 hx with hx | ⟨id, hid, rfl⟩
    · exact hx
    · exact absurd ((hworld id).2 hid) (hdomain rfl id)

theorem Sorted.eq_of_demands {contexts' : List PermissionRuleContext} (h : Sorted contexts)
    (h' : Sorted contexts') (hdemands : demands contexts = demands contexts') :
    contexts = contexts' := by
  have : Std.Irrefl fun x y => compareRuleContexts x y = .lt :=
    ⟨fun x hlt => by
      rw [@Std.ReflCmp.compare_self _ compareRuleContexts] at hlt
      cases hlt⟩
  have : Std.Antisymm fun x y => compareRuleContexts x y = .lt :=
    ⟨fun x y hxy hyx => absurd hyx (Std.OrientedCmp.not_lt_of_lt hxy)⟩
  refine h.sorted.eq_of_mem_iff h'.sorted fun x => ?_
  rw [h.mem_iff, h'.mem_iff, hdemands]

theorem atoms_eq_singleton (h : IsAtom context) :
    atoms context = [context] := by
  cases context <;> simp_all [IsAtom, slot, atoms]

theorem flatMap_atoms (h : ∀ x ∈ contexts, IsAtom x) : contexts.flatMap atoms = contexts := by
  rw [flatMap_congr fun x hx => atoms_eq_singleton (h x hx), flatMap_singleton']

/-- A context in its final form. -/
structure Canonical (context : PermissionRuleContext) : Prop where
  sorted : Sorted (atoms context)
  ofContexts_atoms : ofContexts (atoms context) = context

theorem atoms_ofContexts (h : ∀ x ∈ contexts, IsAtom x) :
    atoms (ofContexts contexts) = contexts := by
  match contexts, h with
  | [], _ => rfl
  | [context], h =>
    cases context <;> simp_all [ofContexts, atoms, IsAtom, slot]
  | _ :: _ :: _, _ => rfl

theorem Sorted.canonical (h : Sorted contexts) : Canonical (ofContexts contexts) := by
  have hatoms := atoms_ofContexts h.distinct.1
  constructor
  · rwa [hatoms]
  · rw [hatoms]

theorem Canonical.eq_of_demands {context context' : PermissionRuleContext} (h : Canonical context)
    (h' : Canonical context') (hdemands : demands (atoms context) = demands (atoms context')) :
    context = context' := by
  rw [← h.ofContexts_atoms, h.sorted.eq_of_demands h'.sorted hdemands, h'.ofContexts_atoms]

theorem canonical_of_isAtom (h : IsAtom context) :
    Canonical context := by
  have hatoms := atoms_eq_singleton h
  constructor
  · rw [hatoms]
    refine ⟨⟨⟨by simpa using h, pairwise_singleton _ _⟩, fun value id hvalue hid => ?_⟩,
      pairwise_singleton _ _⟩
    rw [mem_singleton] at hvalue hid
    cases hvalue.trans hid.symm
  · rw [hatoms, ofContexts]

theorem canonical_global : Canonical .global := by
  constructor
  · refine ⟨⟨⟨?_, .nil⟩, ?_⟩, .nil⟩ <;> simp [atoms]
  · rfl

/-- A chain demands what the contexts demand that it is built of, and it is built unless they
contradict each other. -/
theorem ofAll_spec {contexts : List PermissionRuleContext} (h : ∀ c ∈ contexts, Canonical c) :
    match ofAll contexts with
    | .ok c => Canonical c ∧ demands (atoms c) = demands (contexts.flatMap atoms)
    | .error _ => ¬ Consistent (demands (contexts.flatMap atoms)) := by
  have hatom : ∀ x ∈ contexts.flatMap atoms, IsAtom x := by
    intro x hx
    obtain ⟨c, hc, hx⟩ := mem_flatMap.1 hx
    exact (h c hc).sorted.distinct.1 x hx
  have hdistinct : Distinct ([] : List PermissionRuleContext) := ⟨by simp, .nil⟩
  have hflatten := foldlM_pushUniqueContext_spec hdistinct hatom
  rw [← foldlM_flattenContext] at hflatten
  cases hflattened : contexts.foldlM flattenContext [] with
  | error e =>
    rw [hflattened] at hflatten
    have hall : ofAll contexts = .error e := by
      rw [ofAll, hflattened]
      rfl
    rw [hall]
    refine fun hcons => hflatten (hcons.mono ?_)
    rintro x (hx | hx)
    · simp at hx
    · exact mem_demands_of_mem hx
  | ok flattened =>
    rw [hflattened] at hflatten
    obtain ⟨hflat, hmem⟩ := hflatten
    have hdemands : demands flattened = demands (contexts.flatMap atoms) :=
      demands_congr fun x => by simpa using hmem x
    have hnormalize := normalizeWorldDomain_spec hflat
    rw [hdemands] at hnormalize
    cases hnormalized : normalizeWorldDomain flattened with
    | error e =>
      rw [hnormalized] at hnormalize
      have hall : ofAll contexts = .error e := by
        simp [ofAll, hflattened, hnormalized, bind, Except.bind]
      rwa [hall]
    | ok normalized =>
      rw [hnormalized] at hnormalize
      have hall : ofAll contexts = .ok (ofContexts (normalized.mergeSort
          fun left right => (compareRuleContexts left right).isLE)) := by
        simp [ofAll, hflattened, hnormalized, bind, Except.bind, pure, Except.pure]
      rw [hall]
      obtain ⟨hnormal, hdemands'⟩ := hnormalize
      have hsorted := hnormal.sort
      refine ⟨hsorted.canonical, ?_⟩
      rw [atoms_ofContexts hsorted.distinct.1, ← hdemands']
      exact demands_congr fun x => mem_mergeSort

end

/-- The contexts that can be built. -/
inductive Built : PermissionRuleContext → Prop where
  | global : Built .global
  | domain (value : List Char) : Built (.domain value)
  | world (id : Identifier) : Built (.world id)
  | custom (key value : List Char) : Built (.custom key value)
  | all {contexts : List PermissionRuleContext} {context : PermissionRuleContext}
      (hcontexts : ∀ c ∈ contexts, Built c) (hall : ofAll contexts = .ok context) : Built context

theorem Built.canonical (h : Built context) :
    Canonical context := by
  induction h with
  | global => exact canonical_global
  | domain value => exact canonical_of_isAtom rfl
  | world id => exact canonical_of_isAtom rfl
  | custom key value => exact canonical_of_isAtom rfl
  | all _ hall ih =>
    have hspec := ofAll_spec ih
    rw [hall] at hspec
    exact hspec.1

theorem Canonical.consistent (h : Canonical context) :
    Consistent (demands (atoms context)) := h.sorted.consistent

/-- Contexts in nested chains. -/
inductive Arrangement where
  | single (context : PermissionRuleContext)
  | group (parts : List Arrangement)

namespace Arrangement

mutual

def build : Arrangement → Except PermissionRuleContextError PermissionRuleContext
  | .single context => return context
  | .group parts => do
    let contexts ← buildParts parts
    ofAll contexts

def buildParts : List Arrangement → Except PermissionRuleContextError (List PermissionRuleContext)
  | [] => return []
  | part :: parts => do
    let context ← build part
    let contexts ← buildParts parts
    return context :: contexts

end

mutual

def contexts : Arrangement → List PermissionRuleContext
  | .single context => [context]
  | .group parts => contextsOfParts parts

def contextsOfParts : List Arrangement → List PermissionRuleContext
  | [] => []
  | part :: parts => contexts part ++ contextsOfParts parts

end

mutual

theorem build_spec (arrangement : Arrangement) (h : ∀ c ∈ arrangement.contexts, Canonical c) :
    match arrangement.build with
    | .ok c => Canonical c ∧ demands (atoms c) = demands (arrangement.contexts.flatMap atoms)
    | .error _ => ¬ Consistent (demands (arrangement.contexts.flatMap atoms)) := by
  match arrangement with
  | .single context =>
    rw [contexts] at h ⊢
    refine ⟨h context mem_cons_self, ?_⟩
    rw [flatMap_singleton]
  | .group parts =>
    rw [build]
    have hparts := buildParts_spec parts h
    cases hbuilt : buildParts parts with
    | error e =>
      rw [hbuilt] at hparts
      exact hparts
    | ok built =>
      rw [hbuilt] at hparts
      obtain ⟨hcanonical, hdemands⟩ := hparts
      have hall := ofAll_spec hcanonical
      rwa [hdemands] at hall

theorem buildParts_spec (parts : List Arrangement) (h : ∀ c ∈ contextsOfParts parts, Canonical c) :
    match buildParts parts with
    | .ok built => (∀ c ∈ built, Canonical c) ∧
        demands (built.flatMap atoms) = demands ((contextsOfParts parts).flatMap atoms)
    | .error _ => ¬ Consistent (demands ((contextsOfParts parts).flatMap atoms)) := by
  match parts with
  | [] => exact ⟨by simp, rfl⟩
  | part :: parts =>
    rw [contextsOfParts] at h ⊢
    rw [buildParts, flatMap_append, demands_append]
    have hpart := build_spec part fun c hc => h c (mem_append_left _ hc)
    have hparts := buildParts_spec parts fun c hc => h c (mem_append_right _ hc)
    cases hbuilt : build part with
    | error e =>
      rw [hbuilt] at hpart
      exact fun hcons => hpart (hcons.mono Set.subset_union_left)
    | ok context =>
      rw [hbuilt] at hpart
      obtain ⟨hcontext, hdemands⟩ := hpart
      cases hbuilts : buildParts parts with
      | error e =>
        rw [hbuilts] at hparts
        exact fun hcons => hparts (hcons.mono Set.subset_union_right)
      | ok built =>
        rw [hbuilts] at hparts
        obtain ⟨hcanonical, hdemands'⟩ := hparts
        refine ⟨forall_mem_cons.2 ⟨hcontext, hcanonical⟩, ?_⟩
        rw [flatMap_cons, demands_append, hdemands, hdemands']

end

/-- However contexts are nested, ordered and repeated, they are built as if listed once. -/
theorem build_eq_ofAll {arrangement : Arrangement} {contexts : List PermissionRuleContext}
    (hcontexts : ∀ c ∈ contexts, Canonical c)
    (hmem : ∀ c, c ∈ arrangement.contexts ↔ c ∈ contexts) :
    arrangement.build.toOption = (ofAll contexts).toOption := by
  have hbuild := build_spec arrangement fun c hc => hcontexts c ((hmem c).1 hc)
  have hall := ofAll_spec hcontexts
  have hdemands : demands (arrangement.contexts.flatMap atoms) =
      demands (contexts.flatMap atoms) := by
    refine demands_congr fun x => ?_
    simp [hmem]
  rw [hdemands] at hbuild
  cases harrangement : arrangement.build with
  | error e =>
    rw [harrangement] at hbuild
    cases hof : ofAll contexts with
    | error e' => rfl
    | ok c =>
      rw [hof] at hall
      rw [← hall.2] at hbuild
      exact absurd hall.1.consistent hbuild
  | ok c =>
    rw [harrangement] at hbuild
    cases hof : ofAll contexts with
    | error e' =>
      rw [hof] at hall
      rw [← hbuild.2] at hall
      exact absurd hbuild.1.consistent hall
    | ok c' =>
      rw [hof] at hall
      rw [hbuild.1.eq_of_demands hall.1 (hbuild.2.trans hall.2.symm)]

end Arrangement

theorem Canonical.ofAll_atoms (h : Canonical context) :
    ofAll (atoms context) = .ok context := by
  have hatom := h.sorted.distinct.1
  have hall := ofAll_spec fun x hx => canonical_of_isAtom (hatom x hx)
  rw [flatMap_atoms hatom] at hall
  cases hof : ofAll (atoms context) with
  | error e =>
    rw [hof] at hall
    exact absurd h.consistent hall
  | ok c =>
    rw [hof] at hall
    rw [hall.1.eq_of_demands h hall.2]

section Match

variable {active : PermissionContext}

theorem isMatchAll_eq_true {contexts : List PermissionRuleContext} :
    isMatchAll active contexts = true ↔ ∀ x ∈ contexts, isMatch active x = true := by
  induction contexts with
  | nil => simp [isMatchAll]
  | cons context contexts ih => simp [isMatchAll, ih]

theorem isMatch_iff_atoms {context : PermissionRuleContext} :
    isMatch active context = true ↔ ∀ x ∈ atoms context, isMatch active x = true := by
  cases context with
  | global => simp [isMatch, atoms]
  | all contexts => rw [isMatch, atoms, isMatchAll_eq_true]
  | _ => simp [atoms]

end Match

end PermissionRuleContext

namespace PermissionContext

open PermissionRuleContext

def WorldInDomain (active : PermissionContext) : Prop :=
  ∀ id, active.world = some id → active.domain = some id.nameSpace.toList

variable {active : PermissionContext}

variable {contexts : List PermissionRuleContext}

theorem WorldInDomain.isMatch_iff_demands (h : WorldInDomain active) :
    (∀ x ∈ contexts, isMatch active x = true) ↔
      ∀ x ∈ demands contexts, isMatch active x = true := by
  constructor
  · intro hmatch x hx
    rcases mem_demands_iff.1 hx with hx | ⟨id, hid, rfl⟩
    · exact hmatch x hx
    · have hworld : active.world = some id := by simpa [isMatch] using hmatch _ hid
      simpa [isMatch] using h id hworld
  · exact fun hmatch x hx => hmatch x (mem_demands_of_mem hx)

theorem WorldInDomain.isMatch_ofAll (h : WorldInDomain active) {context : PermissionRuleContext}
    (hcontexts : ∀ c ∈ contexts, Canonical c) (hall : ofAll contexts = .ok context) :
    isMatch active context = true ↔ ∀ c ∈ contexts, isMatch active c = true := by
  have hspec := ofAll_spec hcontexts
  rw [hall] at hspec
  rw [isMatch_iff_atoms, h.isMatch_iff_demands, hspec.2, ← h.isMatch_iff_demands]
  simp only [forall_mem_flatMap, ← isMatch_iff_atoms]

theorem worldInDomain_global : WorldInDomain global := nofun

theorem worldInDomain_forWorld (world : Identifier) : WorldInDomain (forWorld world) := by
  rintro id ⟨⟩
  rfl

theorem addCustomContext_eq_ok {key value : List Char} {active' : PermissionContext}
    (h : active.addCustomContext key value = .ok active') :
    active'.domain = active.domain ∧ active'.world = active.world := by
  unfold addCustomContext at h
  cases hcustom : ofCustom key value with
  | error e =>
    rw [hcustom] at h
    cases h
  | ok _ =>
    simp only [hcustom, bind, Except.bind] at h
    split at h
    · split at h
      · cases h
        exact ⟨rfl, rfl⟩
      · cases h
    · cases h
      exact ⟨rfl, rfl⟩

/-- A domain of a chain without worlds does not contradict the active world. -/
theorem appendRuleContexts_worldInDomain {active' : PermissionContext}
    (hatom : ∀ x ∈ contexts, IsAtom x) (h : WorldInDomain active)
    (hworld : ∀ value, .domain value ∈ contexts → active.world = none)
    (hdomain : ∀ value id, .domain value ∈ contexts → .world id ∉ contexts)
    (happend : active.appendRuleContexts contexts = .ok active') : WorldInDomain active' := by
  induction contexts generalizing active with
  | nil =>
    cases happend
    exact h
  | cons context contexts ih =>
    obtain ⟨hcontext, hcontexts⟩ := forall_mem_cons.1 hatom
    rw [appendRuleContexts] at happend
    have hdomain' : ∀ value id, .domain value ∈ contexts → .world id ∉ contexts :=
      fun value id hvalue hid =>
        hdomain value id (mem_cons_of_mem _ hvalue) (mem_cons_of_mem _ hid)
    cases hone : active.appendRuleContext context with
    | error e =>
      rw [hone] at happend
      cases happend
    | ok active₁ =>
      rw [hone] at happend
      cases context with
      | global => cases hcontext
      | all contexts => cases hcontext
      | domain value =>
        cases hone
        have hnone := hworld value mem_cons_self
        refine ih hcontexts ?_ ?_ hdomain' happend
        · intro id hid
          rw [show active.world = some id from hid] at hnone
          cases hnone
        · exact fun _ _ => hnone
      | world id =>
        cases hone
        refine ih hcontexts ?_ ?_ hdomain' happend
        · rintro id' ⟨⟩
          rfl
        · intro value hvalue
          exact absurd mem_cons_self (hdomain value id (mem_cons_of_mem _ hvalue))
      | custom key value =>
        obtain ⟨hdom, hwor⟩ := addCustomContext_eq_ok hone
        refine ih hcontexts ?_ ?_ hdomain' happend
        · intro id hid
          rw [hdom]
          exact h id (hwor ▸ hid)
        · intro value hvalue
          rw [hwor]
          exact hworld value (mem_cons_of_mem _ hvalue)

/-- The active contexts that can be built. -/
inductive Built : PermissionContext → Prop where
  | global : Built global
  | forWorld (world : Identifier) : Built (forWorld world)
  | fromRuleContext {ruleContext : PermissionRuleContext} {active : PermissionContext}
      (hrule : PermissionRuleContext.Built ruleContext)
      (hfrom : fromRuleContext ruleContext = .ok active) : Built active
  | addCustomContext {active active' : PermissionContext} {key value : List Char}
      (h : Built active) (hadd : active.addCustomContext key value = .ok active') : Built active'

theorem Built.worldInDomain (h : Built active) : WorldInDomain active := by
  induction h with
  | global => exact worldInDomain_global
  | forWorld world => exact worldInDomain_forWorld world
  | @fromRuleContext ruleContext active hrule hfrom =>
    have hcanonical := hrule.canonical
    refine appendRuleContexts_worldInDomain hcanonical.sorted.distinct.1 worldInDomain_global
      (fun _ _ => rfl) hcanonical.sorted.noDomain ?_
    rw [← hfrom]
    cases ruleContext with
    | global => rfl
    | all contexts =>
      rw [atoms, PermissionContext.fromRuleContext, appendRuleContext]
    | _ => exact bind_pure (PermissionContext.global.appendRuleContext _)
  | addCustomContext _ hadd ih =>
    obtain ⟨hdomain, hworld⟩ := addCustomContext_eq_ok hadd
    intro id hid
    rw [hdomain]
    exact ih id (hworld ▸ hid)

end PermissionContext

end Steel
