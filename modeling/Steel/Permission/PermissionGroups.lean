import Steel.Lib.DepthFirst
import Steel.Permission.PermissionResolution

/-! # Permission groups

A subject has the rules of the default groups, of its own groups and of all groups that these
inherit, and then its own rules.
-/

namespace Steel

open DepthFirst PermissionSet List Option

structure PermissionGroup where
  priority : ℤ
  inherits : List (List Char)
  permissions : PermissionSet

/-- Groups by name, and the groups that everyone has. -/
structure PermissionGroups where
  defaultGroups : List (List Char)
  groups : List (List Char × PermissionGroup)
  nodup : (groups.map (·.1)).Nodup

namespace PermissionGroups

variable {groups groups' : PermissionGroups}

local instance lawfulBEq_name : LawfulBEq (List Char) := inferInstance

variable (groups : PermissionGroups)

def get (name : List Char) : Option PermissionGroup :=
  groups.groups.lookup name

/-- Appends the rules of a group after those of the groups it inherits, unless the group has
been appended before. -/
def appendGroup (groups : PermissionGroups) : ℕ → List Char → PermissionSet × List (List Char) →
      Option (PermissionSet × List (List Char))
  | 0, _, _ => none
  | fuel + 1, groupName, (effective, appendedGroups) =>
    if groupName ∈ appendedGroups then some (effective, appendedGroups)
    else
      let appendedGroups := groupName :: appendedGroups
      match groups.get groupName with
      | none => some (effective, appendedGroups)
      | some group => do
        let (effective, appendedGroups) ← group.inherits.foldlM
          (fun state parent => groups.appendGroup fuel parent state) (effective, appendedGroups)
        let effective := group.permissions.entries.foldl
          (fun effective entry => effective.pushGroup entry groupName group.priority) effective
        some (effective, appendedGroups)

/-- The rules of the default groups, of the assigned groups and of the subject, with fuel for
the depth of inheritance. Groups that do not exist have no effect. -/
def effectivePermissions (fuel : ℕ) (assignedGroups : List (List Char))
    (subjectPermissions : PermissionSet) : Option PermissionSet := do
  let state ← groups.defaultGroups.foldlM
    (fun state group => groups.appendGroup fuel group state) (.new, [])
  let state ← assignedGroups.foldlM
    (fun state group => groups.appendGroup fuel group state) state
  some (subjectPermissions.entries.foldl (fun effective entry => effective.push entry) state.1)

def parents (name : List Char) : List (List Char) :=
  (groups.get name).elim [] (·.inherits)

def emit (name : List Char) (effective : PermissionSet) : PermissionSet :=
  (groups.get name).elim effective fun group => group.permissions.entries.foldl
    (fun effective entry => effective.pushGroup entry name group.priority) effective

theorem appendGroup_eq (fuel : ℕ) :
    groups.appendGroup fuel = visit groups.parents groups.emit fuel := by
  induction fuel with
  | zero => rfl
  | succ fuel ih =>
    funext groupName ⟨effective, appendedGroups⟩
    rw [appendGroup, visit, ← ih]
    split
    · rfl
    · cases hget : groups.get groupName with
      | none => simp [parents, emit, hget]
      | some group => simp [parents, emit, hget]

/-- A group is a default group or an assigned one, or one of these inherits it. -/
def Inherited (assignedGroups : List (List Char)) (name : List Char) : Prop :=
  ∃ root, (root ∈ groups.defaultGroups ∨ root ∈ assignedGroups) ∧
    Relation.ReflTransGen (fun a b => b ∈ groups.parents a) root name

/-- The rules that a subject gets from groups and has itself. -/
def Contributed (assignedGroups : List (List Char)) (subjectPermissions : PermissionSet) :
    Set PermissionRule :=
  {rule | (∃ name group, groups.Inherited assignedGroups name ∧ groups.get name = some group ∧
      rule.1 ∈ group.permissions.entries ∧ rule.2 = .group name group.priority) ∨
    rule.1 ∈ subjectPermissions.entries ∧ rule.2 = .subject}

end PermissionGroups

namespace PermissionSet

@[simp] theorem rules_new : new.rules = [] := rfl

theorem rules_pushWithSource (set : PermissionSet) (entry : PermissionEntry)
    (source : PermissionResolutionSource) :
    (set.pushWithSource entry source).rules = set.rules ++ [(entry, source)] := by
  rw [rules, rules, pushWithSource, zip_append set.length_eq]
  rfl

theorem rules_foldl_push (source : PermissionResolutionSource) (entries : List PermissionEntry)
    (set : PermissionSet) :
    (entries.foldl (fun set entry => set.pushWithSource entry source) set).rules =
      set.rules ++ entries.map (·, source) := by
  induction entries generalizing set with
  | nil => simp
  | cons entry entries ih => simp [ih, rules_pushWithSource]

end PermissionSet

namespace PermissionGroups

variable {groups groups' : PermissionGroups}

def groupRules (groups : PermissionGroups) (name : List Char) : List PermissionRule :=
  (groups.get name).elim [] fun group =>
    group.permissions.entries.map (·, .group name group.priority)

theorem rules_emit (groups : PermissionGroups) (name : List Char) (effective : PermissionSet) :
    (groups.emit name effective).rules = effective.rules ++ groups.groupRules name := by
  rw [emit, groupRules]
  cases groups.get name with
  | none => simp
  | some group => exact rules_foldl_push _ _ effective

theorem rules_foldl_emit (groups : PermissionGroups) (order : List (List Char))
    (effective : PermissionSet) :
    (order.foldl (fun effective name => groups.emit name effective) effective).rules =
      effective.rules ++ order.flatMap groups.groupRules := by
  induction order generalizing effective with
  | nil => simp
  | cons name order ih => simp [ih, rules_emit]

theorem mem_groupRules {name : List Char} {rule : PermissionRule} :
    rule ∈ groups.groupRules name ↔ ∃ group, groups.get name = some group ∧
      rule.1 ∈ group.permissions.entries ∧ rule.2 = .group name group.priority := by
  obtain ⟨entry, source⟩ := rule
  rw [groupRules]
  cases groups.get name with
  | none => simp
  | some group => simp [eq_comm]

theorem effectivePermissions_eq (groups : PermissionGroups) (fuel : ℕ)
    (assignedGroups : List (List Char)) (subjectPermissions : PermissionSet) :
    groups.effectivePermissions fuel assignedGroups subjectPermissions =
      (visitAll groups.parents groups.emit fuel
        (groups.defaultGroups ++ assignedGroups) (.new, [])).map fun state =>
          subjectPermissions.entries.foldl (fun effective entry => effective.push entry)
            state.1 := by
  rw [effectivePermissions, visitAll, foldlM_append, appendGroup_eq]
  simp [map_eq_bind, bind_assoc]

theorem mem_rules_effectivePermissions {fuel : ℕ} {assignedGroups : List (List Char)}
    {subjectPermissions effective : PermissionSet}
    (h : groups.effectivePermissions fuel assignedGroups subjectPermissions = some effective) :
    {rule | rule ∈ effective.rules} = groups.Contributed assignedGroups subjectPermissions := by
  rw [effectivePermissions_eq, map_eq_some_iff] at h
  obtain ⟨state, hstate, rfl⟩ := h
  obtain ⟨order, horder, hemitted⟩ := visitAll_reaches hstate
  ext ⟨entry, source⟩
  have hrules := rules_foldl_push .subject subjectPermissions.entries state.1
  rw [hemitted, rules_foldl_emit, rules_new, nil_append, ← hemitted] at hrules
  have hsubject : (entry, source) ∈ subjectPermissions.entries.map (·, .subject) ↔
      entry ∈ subjectPermissions.entries ∧ source = .subject := by
    simp [eq_comm]
  have hgroups : (entry, source) ∈ order.flatMap groups.groupRules ↔
      ∃ name group, groups.Inherited assignedGroups name ∧ groups.get name = some group ∧
        entry ∈ group.permissions.entries ∧ source = .group name group.priority := by
    simp [mem_groupRules, horder, ← exists_and_left, Inherited, DepthFirst.Reaches]
  refine (Iff.of_eq (congrArg ((entry, source) ∈ ·) hrules)).trans ?_
  rw [mem_append, hgroups, hsubject]
  rfl

theorem effectivePermissions_total (groups : PermissionGroups) {fuel : ℕ}
    (hfuel : groups.groups.length < fuel) (assignedGroups : List (List Char))
    (subjectPermissions : PermissionSet) : ∃ effective,
      groups.effectivePermissions fuel assignedGroups subjectPermissions = some effective := by
  have hnodes : ∀ name, groups.parents name ≠ [] → name ∈ groups.groups.map (·.1) := by
    intro name hne
    cases hget : groups.get name with
    | none => simp [parents, hget] at hne
    | some group =>
      obtain ⟨l, r, hsplit, -⟩ := lookup_eq_some_iff.mp hget
      rw [hsplit]
      simp
  have hlength : (groups.groups.map (·.1)).length < fuel := by simpa using hfuel
  obtain ⟨state, hstate⟩ := @DepthFirst.visitAll_some _ _ groups.parents groups.emit _ _ hnodes
    _ hlength (groups.defaultGroups ++ assignedGroups) .new
  rw [effectivePermissions_eq, hstate]
  exact ⟨_, rfl⟩

/-- Groups of one priority that inherit the same groups and have the same rules, in any order
and any number of times. -/
structure SameGroup (first second : PermissionGroup) : Prop where
  priority : first.priority = second.priority
  inherits : ∀ name, name ∈ first.inherits ↔ name ∈ second.inherits
  entries : ∀ entry, entry ∈ first.permissions.entries ↔ entry ∈ second.permissions.entries

/-- The same default groups, and the same rules under each name. -/
structure SameRules (groups groups' : PermissionGroups) : Prop where
  defaultGroups : ∀ name, name ∈ groups.defaultGroups ↔ name ∈ groups'.defaultGroups
  groups : ∀ name, Option.Rel SameGroup (groups.get name) (groups'.get name)

theorem SameGroup.symm {first second : PermissionGroup} (h : SameGroup first second) :
    SameGroup second first :=
  ⟨h.priority.symm, fun name => (h.inherits name).symm, fun entry => (h.entries entry).symm⟩

section

variable (h : groups.SameRules groups')

include h

theorem SameRules.get {name : List Char} {group : PermissionGroup}
    (hget : groups.get name = some group) :
    ∃ group', groups'.get name = some group' ∧ SameGroup group group' := by
  have hrel := h.groups name
  rw [hget] at hrel
  cases hget' : groups'.get name with
  | none => simp [hget'] at hrel
  | some group' => exact ⟨group', rfl, by simpa [hget'] using hrel⟩

theorem SameRules.symm : groups'.SameRules groups where
  defaultGroups name := (h.defaultGroups name).symm
  groups name := by
    have hrel := h.groups name
    cases hget : groups.get name <;> cases hget' : groups'.get name <;>
      simp_all [SameGroup.symm]

theorem SameRules.mem_parents {a b : List Char}
    (hb : b ∈ groups.parents a) : b ∈ groups'.parents a := by
  cases hget : groups.get a with
  | none => simp [parents, hget] at hb
  | some group =>
    obtain ⟨group', hget', hsame⟩ := h.get hget
    simp only [parents, hget, hget', elim_some] at hb ⊢
    exact (hsame.inherits b).mp hb

/-- The rules that a subject gets depend on the sets of groups and rules alone. -/
theorem SameRules.contributed_subset {assignedGroups assignedGroups' : List (List Char)}
    (hassigned : ∀ name ∈ assignedGroups, name ∈ assignedGroups') {subject subject' : PermissionSet}
    (hsubject : ∀ entry ∈ subject.entries, entry ∈ subject'.entries) :
    groups.Contributed assignedGroups subject ⊆ groups'.Contributed assignedGroups' subject' := by
  rintro ⟨entry, source⟩ (⟨name, group, ⟨root, hroot, hreach⟩, hget, hentry, hsource⟩ |
    ⟨hentry, hsource⟩)
  · left
    obtain ⟨group', hget', hsame⟩ := h.get hget
    refine ⟨name, group', ⟨root, ?_, ?_⟩, hget', (hsame.entries entry).mp hentry, ?_⟩
    · rcases hroot with hroot | hroot
      · exact .inl ((h.defaultGroups root).mp hroot)
      · exact .inr (hassigned root hroot)
    · exact Relation.ReflTransGen.mono (fun a b hb => h.mem_parents hb) _ _ hreach
    · rw [hsource, hsame.priority]
  · exact .inr ⟨hsubject entry hentry, hsource⟩

end

/-- Effective permissions exist, and a lookup in them gives the state of a maximal rule among
the contributed rules that match. The state is the same for groups, assignments and subject
rules that are the same up to order and repetition. -/
theorem effectivePermissions_resolves (groups : PermissionGroups) {fuel : ℕ}
    (hfuel : groups.groups.length < fuel) (assignedGroups : List (List Char))
    (subject : PermissionSet) :
    ∃ effective, groups.effectivePermissions fuel assignedGroups subject = some effective ∧
      ∀ context key, Decides (keyRank key context) (groups.Contributed assignedGroups subject)
          (effective.resolveKeyIn key context) ∧
        (∀ parent, Decides (scopedKeyRank parent key context)
          (groups.Contributed assignedGroups subject)
          (effective.resolveScopedKeyIn parent key context)) ∧
        ∀ (groups' : PermissionGroups) (fuel' : ℕ) (assignedGroups' : List (List Char))
          (subject' effective' : PermissionSet), groups.SameRules groups' →
          (∀ name, name ∈ assignedGroups ↔ name ∈ assignedGroups') →
          (∀ entry, entry ∈ subject.entries ↔ entry ∈ subject'.entries) →
          groups'.effectivePermissions fuel' assignedGroups' subject' = some effective' →
          effective'.resolveKeyIn key context = effective.resolveKeyIn key context ∧
            ∀ parent, effective'.resolveScopedKeyIn parent key context =
              effective.resolveScopedKeyIn parent key context := by
  obtain ⟨effective, heffective⟩ := groups.effectivePermissions_total hfuel assignedGroups subject
  refine ⟨effective, heffective, ?_⟩
  intro context key
  have hrules := mem_rules_effectivePermissions heffective
  have hkey := hrules ▸ effective.decides_resolveKeyIn key context
  have hscoped := fun parent => hrules ▸ effective.decides_resolveScopedKeyIn parent key context
  refine ⟨hkey, hscoped, ?_⟩
  intro groups' fuel' assignedGroups' subject' effective' hsame hassigned hsubject heffective'
  have hrules' := mem_rules_effectivePermissions heffective'
  have hcontributed : groups'.Contributed assignedGroups' subject' =
      groups.Contributed assignedGroups subject :=
    Set.Subset.antisymm
      (hsame.symm.contributed_subset (fun name => (hassigned name).mpr)
        fun entry => (hsubject entry).mpr)
      (hsame.contributed_subset (fun name => (hassigned name).mp)
        fun entry => (hsubject entry).mp)
  rw [hcontributed] at hrules'
  have hkey' := hrules' ▸ effective'.decides_resolveKeyIn key context
  have hscoped' := fun parent =>
    hrules' ▸ effective'.decides_resolveScopedKeyIn parent key context
  exact ⟨hkey'.unique hkey, fun parent => (hscoped' parent).unique (hscoped parent)⟩

end PermissionGroups

namespace PermissionSample

def fly : PermissionKey := ⟨['f', 'l', 'y'], by decide⟩

def groups : PermissionGroups where
  defaultGroups := [['a', 'l', 'l']]
  groups := [(['a', 'l', 'l'], ⟨0, [['b', 'i', 'r', 'd']], .new⟩),
    (['b', 'i', 'r', 'd'], ⟨1, [], new.push ⟨fly, .global, .allow⟩⟩)]
  nodup := by decide

theorem groups_resolve : groups.groups.length < 3 ∧
      ∃ effective, groups.effectivePermissions 3 [['b', 'i', 'r', 'd']] .new = some effective ∧
        ∀ context key, Decides (keyRank key context)
          (groups.Contributed [['b', 'i', 'r', 'd']] .new)
          (effective.resolveKeyIn key context) := by
  have hlength : groups.groups.length < 3 := by decide
  obtain ⟨effective, heffective, hresolves⟩ :=
    groups.effectivePermissions_resolves hlength [['b', 'i', 'r', 'd']] .new
  exact ⟨hlength, effective, heffective, fun context key => (hresolves context key).1⟩

end PermissionSample

end Steel
