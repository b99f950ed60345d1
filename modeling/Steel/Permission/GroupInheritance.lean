import Steel.Lib.CycleSearch
import Steel.Permission.PermissionKey

/-! # Inheritance of permission groups

A configuration is accepted if groups inherit configured groups only and none inherits itself, be it
along others.
-/

namespace Steel

open List PermissionSegment CycleSearch

structure PermissionGroupConfig where
  inherits : List (List Char)

/-- The groups by name, in the order of the map. -/
structure PermissionGroupsConfig where
  groups : List (List Char × PermissionGroupConfig)
  nodup : (groups.map (·.1)).Nodup

inductive PermissionConfigError where
  | missingInheritedGroup (group inherited : List Char)
  | inheritedGroupCycle (cycle : List (List Char))
  | invalidGroupName (group : List Char) (source : PermissionKeyError)
  deriving DecidableEq

def validateGroupName (group : List Char) : Except PermissionConfigError Unit :=
  match parse group with
  | .error source => .error (.invalidGroupName group source)
  | .ok _ => .ok ()

namespace PermissionGroupsConfig

variable (config : PermissionGroupsConfig)

def get (name : List Char) : Option PermissionGroupConfig :=
  config.groups.lookup name

/-- The first loop of `validate_group_inheritance`. -/
def validateParents : Except PermissionConfigError Unit :=
  forM config.groups fun (group, groupConfig) => forM groupConfig.inherits fun parent => do
    validateGroupName parent
    if (config.get parent).isNone then
      throw (.missingInheritedGroup group parent)

/-- The group comes behind the path that leads to it, and joins what is visited after its parents.
Fuel bounds the depth, and a missing error stands for a recursion that is cut off. -/
def validateGroupInheritanceNode (config : PermissionGroupsConfig) :
    ℕ → List (List Char) → List (List Char) → List Char → PermissionGroupConfig →
      Except (Option PermissionConfigError) (List (List Char))
  | 0, _, _, _, _ => .error none
  | fuel + 1, stack, visited, group, groupConfig =>
    if group ∈ visited then .ok visited
    else
      match stack.findIdx? (· = group) with
      | some cycleStart => .error (some (.inheritedGroupCycle (stack.drop cycleStart ++ [group])))
      | none => do
        let visited ← groupConfig.inherits.foldlM
          (fun visited parent =>
            match config.get parent with
            | none => .error (some (.missingInheritedGroup group parent))
            | some parentConfig =>
              config.validateGroupInheritanceNode fuel (stack ++ [group]) visited parent
                parentConfig)
          visited
        return group :: visited

def validateGroupInheritance : Except (Option PermissionConfigError) Unit := do
  config.validateParents.mapError some
  let _ ← config.groups.foldlM
    (fun visited (group, groupConfig) => config.validateGroupInheritanceNode
      (config.groups.length + 1) [] visited group groupConfig)
    []

variable {config : PermissionGroupsConfig}

def parents (name : List Char) : List (List Char) :=
  (config.get name).elim [] (·.inherits)

/-- All inherited names are valid names of configured groups. -/
def ParentsConfigured : Prop :=
  ∀ group, ∀ parent ∈ config.parents group,
    (∃ segment, parse parent = .ok segment) ∧ (config.get parent).isSome = true

variable {groupConfig : PermissionGroupConfig}

theorem get_eq_some {name : List Char} :
    config.get name = some groupConfig ↔ (name, groupConfig) ∈ config.groups := by
  have hnodup := config.nodup
  unfold get
  generalize config.groups = groups at hnodup ⊢
  induction groups with
  | nil => simp
  | cons group groups ih =>
    obtain ⟨name', groupConfig'⟩ := group
    rw [map_cons, nodup_cons] at hnodup
    rw [lookup_cons, mem_cons, Prod.mk.injEq]
    by_cases hname : name = name'
    · subst hname
      have hnot : (name, groupConfig) ∉ groups := fun hmem =>
        hnodup.1 (mem_map.2 ⟨_, hmem, rfl⟩)
      simp [hnot, eq_comm]
    · rw [beq_eq_false_iff_ne.2 hname]
      simpa [hname] using ih hnodup.2

variable {group parent : List Char}

theorem mem_parents : parent ∈ config.parents group ↔
      ∃ groupConfig, (group, groupConfig) ∈ config.groups ∧ parent ∈ groupConfig.inherits := by
  unfold parents
  simp only [← get_eq_some]
  cases config.get group with
  | none => simp
  | some groupConfig => simp

section Loops

variable {α ε : Type} {l : List α} {f : α → Except ε Unit}

theorem forM_eq_ok : forM l f = .ok () ↔ ∀ a ∈ l, f a = .ok () := by
  induction l with
  | nil => simp [pure, Except.pure]
  | cons a l ih =>
    rw [forM_cons, forall_mem_cons, ← ih]
    cases f a with
    | error error => simp [bind, Except.bind]
    | ok _ => simp [bind, Except.bind]

theorem exists_of_forM_eq_error {error : ε} (h : forM l f = .error error) :
    ∃ a ∈ l, f a = .error error := by
  induction l with
  | nil => cases h
  | cons a l ih =>
    rw [forM_cons] at h
    cases ha : f a with
    | error error' =>
      rw [ha] at h
      obtain rfl : error' = error := Except.error.inj h
      exact ⟨a, mem_cons_self, ha⟩
    | ok _ =>
      rw [ha] at h
      obtain ⟨b, hb, hfb⟩ := ih h
      exact ⟨b, mem_cons_of_mem a hb, hfb⟩

end Loops

theorem validateGroupName_eq_ok {group : List Char} :
    validateGroupName group = .ok () ↔ ∃ segment, parse group = .ok segment := by
  unfold validateGroupName
  cases parse group with
  | error source => simp
  | ok segment => simp

theorem validateParent_eq_ok : (do validateGroupName parent if (config.get parent).isNone then
        throw (.missingInheritedGroup group parent) : Except PermissionConfigError Unit) = .ok () ↔
      (∃ segment, parse parent = .ok segment) ∧
        (config.get parent).isSome = true := by
  rw [← validateGroupName_eq_ok]
  cases validateGroupName parent with
  | error error => simp [bind, Except.bind]
  | ok _ =>
    cases config.get parent with
    | none => simp [bind, Except.bind, throw, throwThe, MonadExceptOf.throw]
    | some groupConfig => simp [bind, Except.bind, pure, Except.pure]

theorem validateParents_eq_ok : config.validateParents = .ok () ↔ config.ParentsConfigured := by
  unfold validateParents ParentsConfigured
  simp only [forM_eq_ok, validateParent_eq_ok, mem_parents]
  constructor
  · rintro h group parent ⟨groupConfig, hgroup, hparent⟩
    exact h (group, groupConfig) hgroup parent hparent
  · rintro h ⟨group, groupConfig⟩ hgroup parent hparent
    exact h group parent ⟨groupConfig, hgroup, hparent⟩

theorem validateParents_ne_cycle (cycle : List (List Char)) :
    config.validateParents ≠ .error (.inheritedGroupCycle cycle) := by
  intro h
  obtain ⟨⟨group, groupConfig⟩, -, hgroup⟩ := exists_of_forM_eq_error h
  obtain ⟨parent, -, hparent⟩ := exists_of_forM_eq_error hgroup
  unfold validateGroupName at hparent
  cases hparse : parse parent with
  | error source =>
    rw [hparse] at hparent
    cases hparent
  | ok segment =>
    rw [hparse] at hparent
    cases hget : config.get parent with
    | none =>
      rw [hget] at hparent
      cases hparent
    | some parentConfig =>
      rw [hget] at hparent
      cases hparent

theorem foldlM_mapError {α β ε ε' : Type} {f : β → α → Except ε β} {f' : β → α → Except ε' β}
    {rename : ε → ε'} {l : List α} (b : β)
    (hf : ∀ b, ∀ a ∈ l, f' b a = (f b a).mapError rename) :
    l.foldlM f' b = (l.foldlM f b).mapError rename := by
  induction l generalizing b with
  | nil => rfl
  | cons a l ih =>
    rw [foldlM_cons, foldlM_cons, hf b a mem_cons_self]
    cases f b a with
    | error error => rfl
    | ok b' => exact ih b' fun b c hc => hf b c (mem_cons_of_mem a hc)

/-- With configured parents only, the recursion is the search of the graph of parents. -/
theorem validateGroupInheritanceNode_eq (h : config.ParentsConfigured) (fuel : ℕ)
    (stack visited : List (List Char)) {group : List Char}
    (hgroup : config.get group = some groupConfig) :
    config.validateGroupInheritanceNode fuel stack visited group groupConfig =
      (visit config.parents fuel stack visited group).mapError
        (Option.map .inheritedGroupCycle) := by
  induction fuel generalizing stack visited group groupConfig with
  | zero => rfl
  | succ fuel ih =>
    have hparents : config.parents group = groupConfig.inherits := by
      unfold parents
      rw [hgroup]
      rfl
    unfold validateGroupInheritanceNode visit
    split
    · rfl
    · have hstep : ∀ visited, ∀ parent ∈ groupConfig.inherits,
          (match config.get parent with
            | none => .error (some (.missingInheritedGroup group parent))
            | some parentConfig =>
              config.validateGroupInheritanceNode fuel (stack ++ [group]) visited
                parent parentConfig) =
            (visit config.parents fuel (stack ++ [group]) visited parent).mapError
              (Option.map .inheritedGroupCycle) := by
        intro visited parent hparent
        obtain ⟨-, hconfigured⟩ := h group parent (hparents ▸ hparent)
        obtain ⟨parentConfig, hget⟩ := Option.isSome_iff_exists.1 hconfigured
        rw [hget]
        exact ih (stack ++ [group]) visited hget
      cases stack.findIdx? (fun ancestor => decide (ancestor = group)) with
      | some cycleStart => rfl
      | none =>
        dsimp only
        rw [hparents, foldlM_mapError visited hstep]
        cases groupConfig.inherits.foldlM (visit config.parents fuel (stack ++ [group]))
          visited with
        | error error => rfl
        | ok visited' => rfl

theorem ParentsConfigured.visitAll (h : config.ParentsConfigured) :
    CycleSearch.Finds config.parents (fun _ => CycleSearch.Acyclic config.parents)
      ((config.groups.map (·.1)).foldlM
        (visit config.parents (config.groups.length + 1) []) []) := by
  have hnames : ∀ name, name ∈ (config.groups.map (·.1)).toFinset ↔
      (config.get name).isSome = true := by
    intro name
    rw [mem_toFinset, mem_map, Option.isSome_iff_exists]
    simp [get_eq_some]
  refine visitAll_spec (config.groups.map (·.1)).toFinset
    (fun group _ parent hparent => (hnames parent).2 (h group parent hparent).2)
    (fun group hgroup => ?_)
    (fun name => mem_toFinset.symm) ?_
  · rw [hnames, Option.not_isSome_iff_eq_none] at hgroup
    unfold parents
    rw [hgroup]
    rfl
  · rw [toFinset_card_of_nodup config.nodup, length_map]
    exact Nat.lt_succ_self _

/-- A valid configuration is one of configured parents without cycles, a reported cycle is one, and
the recursion ends. -/
theorem validateGroupInheritance_spec (config : PermissionGroupsConfig) :
    (config.validateGroupInheritance = .ok () ↔
        config.ParentsConfigured ∧ CycleSearch.Acyclic config.parents) ∧
      (∀ cycle, config.validateGroupInheritance = .error (some (.inheritedGroupCycle cycle)) →
        CycleSearch.IsCycle config.parents cycle) ∧
      config.validateGroupInheritance ≠ .error none := by
  unfold validateGroupInheritance
  cases hparents : config.validateParents with
  | error error =>
    have hnot : ¬ config.ParentsConfigured := by
      rw [← validateParents_eq_ok, hparents]
      exact nofun
    refine ⟨⟨nofun, fun h => absurd h.1 hnot⟩, fun cycle hcycle => ?_, nofun⟩
    have hsame : error = .inheritedGroupCycle cycle := Option.some.inj (Except.error.inj hcycle)
    exact absurd (hsame ▸ hparents) (validateParents_ne_cycle cycle)
  | ok _ =>
    have hconfigured := validateParents_eq_ok.1 hparents
    have hfold : config.groups.foldlM (fun visited (group, groupConfig) =>
        config.validateGroupInheritanceNode (config.groups.length + 1) [] visited group
          groupConfig) [] =
        ((config.groups.map (·.1)).foldlM
          (visit config.parents (config.groups.length + 1) []) []).mapError
            (Option.map .inheritedGroupCycle) := by
      rw [foldlM_map]
      refine foldlM_mapError [] fun visited group hgroup => ?_
      exact validateGroupInheritanceNode_eq hconfigured _ [] visited (get_eq_some.2 hgroup)
    have hsearch := hconfigured.visitAll
    rw [hfold]
    cases hresult : (config.groups.map (·.1)).foldlM
        (visit config.parents (config.groups.length + 1) []) [] with
    | ok visited =>
      rw [hresult] at hsearch
      exact ⟨⟨fun _ => ⟨hconfigured, hsearch⟩, fun _ => rfl⟩, nofun, nofun⟩
    | error error =>
      rw [hresult] at hsearch
      cases error with
      | none => exact absurd hsearch id
      | some cycle =>
        refine ⟨⟨nofun, fun h => absurd h.2 (CycleSearch.IsCycle.not_acyclic hsearch)⟩,
          fun cycle' hcycle => ?_, nofun⟩
        have hsame : PermissionConfigError.inheritedGroupCycle cycle =
            .inheritedGroupCycle cycle' :=
          Option.some.inj (Except.error.inj hcycle)
        obtain rfl := PermissionConfigError.inheritedGroupCycle.inj hsame
        exact hsearch

end PermissionGroupsConfig

end Steel
