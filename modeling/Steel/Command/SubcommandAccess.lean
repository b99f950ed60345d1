import Steel.Command.CommandPermissions

/-! # Access to subcommands

The permission that governs a node is that of the longest declared path to it.
-/

namespace Steel

open List CommandPermissionSource
open CommandRequirement (allows contextual)

variable {S : Type} {R : CommandRuntime S}

namespace CommandPermissionSource

variable {P : CommandPermissionSource R} {source : S}

@[simp] theorem allows_and (first second : CommandRequirement R) :
    (P.and first second).allows source = (first.allows source && second.allows source) := by
  obtain ⟨first, firstKind⟩ := first
  obtain ⟨second, secondKind⟩ := second
  cases first <;> cases second <;> simp [and, allows, P.holds_closure]

variable (permission : PermissionExpr)

theorem allows_permissionRequirement : (P.permissionRequirement permission).allows source = true ↔
      P.permissionState source permission = some .allow := by
  simp [permissionRequirement, CommandRequirement.authorization, allows,
    P.holds_closure]

theorem permissionState_or (left right : PermissionExpr) :
    P.permissionState source (left.or right) = some .allow ↔
      P.permissionState source left = some .allow ∨
        P.permissionState source right = some .allow := by
  rw [permissionState, permissionState, permissionState,
    CommandAuthorizationContext.permissionState,
    CommandAuthorizationContext.permissionState, CommandAuthorizationContext.permissionState]
  split
  · simp
  · exact PermissionSet.resolveIn_or _ _ left right

theorem permissionState_foldl_or (keys : List PermissionKey) :
    P.permissionState source (keys.foldl (fun permission key => permission.or (.key key))
        permission) = some .allow ↔
      P.permissionState source permission = some .allow ∨
        ∃ key ∈ keys, P.permissionState source (.key key) = some .allow := by
  induction keys generalizing permission with
  | nil => simp
  | cons key keys ih => simp [ih, permissionState_or, or_assoc]

theorem permissionState_any {keys : List PermissionKey} (hne : keys ≠ []) :
    P.permissionState source (.any (keys.map .key)) = some .allow ↔
      ∃ key ∈ keys, P.permissionState source (.key key) = some .allow := by
  simp only [permissionState, CommandAuthorizationContext.permissionState]
  split
  · obtain ⟨key, rest, rfl⟩ := exists_cons_of_ne_nil hne
    simp
  · simp [PermissionSet.resolveIn_any]

end CommandPermissionSource

section Granted

variable (P : CommandPermissionSource R) (rootPermission : PermissionExpr)
  (derivedRoot : PermissionKey) {n : ℕ} (keys : Fin n → PermissionKey) (defaultAccess : Bool)
  (source : S)

def RootGranted : Prop :=
  if defaultAccess then P.permissionState source rootPermission ≠ some .deny
  else P.permissionState source rootPermission = some .allow

/-- The source has the permission of the scope that governs a node. -/
def Granted : Option (Fin n) → Prop
  | some index => P.permissionState source (.scopedKey derivedRoot (keys index)) = some .allow
  | none => RootGranted P rootPermission defaultAccess source

variable {P rootPermission derivedRoot keys defaultAccess source}

theorem allows_rootPermissionRequirement (alternatives : List PermissionKey) :
    (P.rootPermissionRequirement rootPermission alternatives defaultAccess).allows source = true ↔
      RootGranted P rootPermission defaultAccess source ∨
        ∃ key ∈ alternatives, P.permissionState source (.key key) = some .allow := by
  rw [rootPermissionRequirement, RootGranted]
  cases defaultAccess with
  | false =>
    simp [allows_permissionRequirement,
      permissionState_foldl_or]
  | true =>
    cases alternatives with
    | nil =>
      simp [contextual, allows, P.holds_closure]
    | cons key keys =>
      have hany := @CommandPermissionSource.permissionState_any _ _ P source (key :: keys) (by simp)
      simp only [map_cons, mem_cons, exists_eq_or_imp] at hany
      simp [contextual, allows, P.holds_closure, hany]

/-- A node may be passed with the permission that governs it or with the key of a scope
below it. -/
theorem allows_traversal (governing : Option (Fin n)) (descendants : List (Fin n)) :
    (registrationRequirements P rootPermission derivedRoot keys defaultAccess governing
        descendants).traversal.allows source = true ↔
      Granted P rootPermission derivedRoot keys defaultAccess source governing ∨
        ∃ index ∈ descendants, P.permissionState source (.key (keys index)) = some .allow := by
  cases governing with
  | none => simp [registrationRequirements, allows_rootPermissionRequirement, Granted]
  | some index =>
    simp [registrationRequirements, scopedPermissionRequirement,
      allows_permissionRequirement,
      permissionState_foldl_or, Granted]

theorem allows_execution (governing : Option (Fin n)) (descendants : List (Fin n)) :
    (registrationRequirements P rootPermission derivedRoot keys defaultAccess governing
        descendants).execution.allows source = true ↔
      Granted P rootPermission derivedRoot keys defaultAccess source governing := by
  cases governing with
  | none => simp [registrationRequirements, allows_rootPermissionRequirement, Granted]
  | some index =>
    simp [registrationRequirements, scopedPermissionRequirement,
      allows_permissionRequirement, Granted]

end Granted

namespace CommandNodeBuilder

/-- The nodes below a node on the way to another one. -/
inductive Leads : CommandNodeBuilder R → List (CommandNodeBuilder R) → CommandNodeBuilder R → Prop
  where
  | here (node : CommandNodeBuilder R) : Leads node [] node
  | step {node child last : CommandNodeBuilder R} {nodes : List (CommandNodeBuilder R)} :
      child ∈ node.children → Leads child nodes last → Leads node (child :: nodes) last

def literalPath (nodes : List (CommandNodeBuilder R)) : List (List Char) :=
  nodes.filterMap literalName

/-- The source may pass all nodes on the way to the last one and execute it. -/
def Permits (source : S) (root : CommandNodeBuilder R) (nodes : List (CommandNodeBuilder R))
    (last : CommandNodeBuilder R) : Prop :=
  (∀ node ∈ root :: nodes, node.requirement.allows source = true) ∧
    last.executionRequirement.allows source = true

def Unrestricted (root : CommandNodeBuilder R) : Prop :=
  ∀ nodes last, root.Leads nodes last →
    last.requirement = .allowAll ∧ last.executionRequirement = .allowAll

theorem Unrestricted.child {node child : CommandNodeBuilder R} (h : node.Unrestricted)
    (hchild : child ∈ node.children) : child.Unrestricted :=
  fun nodes last hleads => h (child :: nodes) last (.step hchild hleads)

variable {name : List Char} {remaining : List (List Char)}

theorem le_matchCountChildren
    {children : List (CommandNodeBuilder R)} {child : CommandNodeBuilder R} (h : child ∈ children) :
    (match child.literalName with
      | none => child.literalPathMatchCount (name :: remaining)
      | some literal =>
        if literal ≠ name then 0
        else if remaining = [] then 1
        else child.literalPathMatchCount remaining) ≤
      matchCountChildren name remaining children := by
  induction children with
  | nil => cases h
  | cons other children ih =>
    rcases mem_cons.mp h with rfl | h
    · exact Nat.le_add_right _ _
    · exact Nat.le_add_left_of_le (ih h)

theorem literalPathMatchCount_cons (node : CommandNodeBuilder R) (name : List Char)
    (remaining : List (List Char)) :
    node.literalPathMatchCount (name :: remaining) =
      matchCountChildren name remaining node.children := by
  cases node
  rw [literalPathMatchCount, children]

theorem count_argument {node child : CommandNodeBuilder R} (hchild : child ∈ node.children)
    (hname : child.literalName = none) (path : List (List Char)) :
    child.literalPathMatchCount path ≤ node.literalPathMatchCount path := by
  cases path with
  | nil => cases child; simp [literalPathMatchCount]
  | cons name remaining =>
    have hle := @le_matchCountChildren _ _ name remaining _ _ hchild
    rw [hname] at hle
    rwa [literalPathMatchCount_cons node]

theorem count_literal {node child : CommandNodeBuilder R} (hchild : child ∈ node.children)
    (hname : child.literalName = some name) {path : List (List Char)}
    (h : path = [] ∨ 0 < child.literalPathMatchCount path) :
    0 < node.literalPathMatchCount (name :: path) := by
  have hle := @le_matchCountChildren _ _ name path _ _ hchild
  rw [hname] at hle
  rw [literalPathMatchCount_cons node]
  refine Nat.lt_of_lt_of_le ?_ hle
  by_cases hpath : path = []
  · simp [hpath]
  · simpa [hpath] using h

theorem Leads.count_pos {node last : CommandNodeBuilder R} {nodes : List (CommandNodeBuilder R)}
    (h : node.Leads nodes last) {path : List (List Char)} (hne : path ≠ [])
    (hpath : path <+: literalPath nodes) : 0 < node.literalPathMatchCount path := by
  induction h generalizing path with
  | here node => exact absurd (prefix_nil.mp hpath) hne
  | @step node child last nodes hchild _ ih =>
    cases hname : child.literalName with
    | none =>
      rw [literalPath, filterMap_cons_none hname] at hpath
      exact Nat.lt_of_lt_of_le (ih hne hpath) (count_argument hchild hname path)
    | some name =>
      rw [literalPath, filterMap_cons_some hname] at hpath
      cases path with
      | nil => exact absurd rfl hne
      | cons first path =>
        obtain ⟨rfl, hrest⟩ := cons_prefix_cons.mp hpath
        refine count_literal hchild hname ?_
        by_cases hnil : path = []
        · exact .inl hnil
        · exact .inr (ih hnil hrest)

section Routes

variable {n : ℕ} (P : CommandPermissionSource R)
  (requirementsFor : Option (Fin n) → List (Fin n) → CommandRequirementRoute R)

def requirementsOf (route : RequirementRouteKey n) : CommandRequirementRoute R :=
  requirementsFor route.governingScope route.descendantScopes

mutual

/-- Attaches the requirements of routes as if each were asked for anew. -/
def applyRoutes (inherited : Option (Fin n)) (active : List (ActiveRequirementScope n))
    (parentRoute : Option (RequirementRouteKey n)) :
    CommandNodeBuilder R → CommandNodeBuilder R
  | mk data kind_ne children executor requirement executionRequirement redirect =>
    let route := routeOf inherited active
    mk data kind_ne (applyRoutesChildren active route children) executor
      (scopedRequirement P requirement route parentRoute (requirementsOf requirementsFor route))
      (scopedExecutionRequirement P executor executionRequirement route
        (requirementsOf requirementsFor route)) redirect

def applyRoutesChildren (active : List (ActiveRequirementScope n)) (route : RequirementRouteKey n) :
    List (CommandNodeBuilder R) → List (CommandNodeBuilder R)
  | [] => []
  | child :: children =>
    applyRoutes route.governingScope (childActive active child) (some route) child ::
      applyRoutesChildren active route children

end

variable {P requirementsFor}

def ValidCache (requirementsFor : Option (Fin n) → List (Fin n) → CommandRequirementRoute R)
    (cache : RouteCache R n) : Prop :=
  ∀ entry ∈ cache, entry.2 = requirementsOf requirementsFor entry.1

theorem cachedRouteRequirements_valid {cache : RouteCache R n}
    (hcache : ValidCache requirementsFor cache) (route : RequirementRouteKey n) :
    (cachedRouteRequirements cache route requirementsFor).1 = requirementsOf requirementsFor route ∧
      ValidCache requirementsFor (cachedRouteRequirements cache route requirementsFor).2 := by
  rw [cachedRouteRequirements]
  split
  · rename_i key requirements hfind
    have hkey : key = route := by simpa using List.find?_some hfind
    have hentry : requirements = requirementsOf requirementsFor key :=
      hcache _ (List.mem_of_find?_eq_some hfind)
    exact ⟨hkey ▸ hentry, hcache⟩
  · refine ⟨rfl, ?_⟩
    intro entry hentry
    rcases mem_append.mp hentry with hentry | hentry
    · exact hcache entry hentry
    · obtain rfl := mem_singleton.mp hentry
      rfl

mutual

theorem applyScopedRequirementsInner_eq (inherited : Option (Fin n))
    (active : List (ActiveRequirementScope n)) (parentRoute : Option (RequirementRouteKey n))
    {cache : RouteCache R n} (hcache : ValidCache requirementsFor cache) :
    ∀ node : CommandNodeBuilder R,
      (applyScopedRequirementsInner P requirementsFor inherited active parentRoute cache node).1 =
          applyRoutes P requirementsFor inherited active parentRoute node ∧
        ValidCache requirementsFor
          (applyScopedRequirementsInner P requirementsFor inherited active parentRoute cache node).2
  | mk data kind_ne children executor requirement executionRequirement redirect => by
    obtain ⟨hrequirements, hcache⟩ :=
      cachedRouteRequirements_valid hcache (routeOf inherited active)
    obtain ⟨hchildren, hcache⟩ :=
      applyScopedChildren_eq active (routeOf inherited active) hcache children
    simp only [applyScopedRequirementsInner, applyRoutes, hrequirements, hchildren]
    exact ⟨trivial, hcache⟩

theorem applyScopedChildren_eq (active : List (ActiveRequirementScope n))
    (route : RequirementRouteKey n) {cache : RouteCache R n}
    (hcache : ValidCache requirementsFor cache) :
    ∀ children : List (CommandNodeBuilder R),
      (applyScopedChildren P requirementsFor active route cache children).1 =
          applyRoutesChildren P requirementsFor active route children ∧
        ValidCache requirementsFor
          (applyScopedChildren P requirementsFor active route cache children).2
  | [] => by
    simp only [applyScopedChildren, applyRoutesChildren]
    exact ⟨trivial, hcache⟩
  | child :: children => by
    obtain ⟨hchild, hcache⟩ := applyScopedRequirementsInner_eq route.governingScope
      (childActive active child) (some route) hcache child
    obtain ⟨hchildren, hcache⟩ := applyScopedChildren_eq active route hcache children
    simp only [applyScopedChildren, applyRoutesChildren, hchild, hchildren]
    exact ⟨trivial, hcache⟩

end

theorem applyRoutesChildren_eq (active : List (ActiveRequirementScope n))
    (route : RequirementRouteKey n) (children : List (CommandNodeBuilder R)) :
    applyRoutesChildren P requirementsFor active route children = children.map fun child =>
      applyRoutes P requirementsFor route.governingScope (childActive active child) (some route)
        child := by
  induction children with
  | nil => rw [applyRoutesChildren, map_nil]
  | cons child children ih => rw [applyRoutesChildren, ih, map_cons]

section Node

variable (inherited : Option (Fin n)) (active : List (ActiveRequirementScope n))
  (parentRoute : Option (RequirementRouteKey n)) (node : CommandNodeBuilder R)

theorem applyRoutes_children :
    (applyRoutes P requirementsFor inherited active parentRoute node).children =
      node.children.map fun child => applyRoutes P requirementsFor
        (governingScope inherited active) (childActive active child)
        (some (routeOf inherited active)) child := by
  cases node
  simp only [applyRoutes, children, applyRoutesChildren_eq]
  rfl

@[simp] theorem applyRoutes_literalName :
    (applyRoutes P requirementsFor inherited active parentRoute node).literalName =
      node.literalName := by
  cases node
  simp [applyRoutes, literalName, data]

@[simp] theorem applyRoutes_executor :
    (applyRoutes P requirementsFor inherited active parentRoute node).executor =
      node.executor := by
  cases node
  simp [applyRoutes, executor]

theorem applyRoutes_requirement :
    (applyRoutes P requirementsFor inherited active parentRoute node).requirement =
      scopedRequirement P node.requirement (routeOf inherited active) parentRoute
        (requirementsOf requirementsFor (routeOf inherited active)) := by
  cases node
  simp [applyRoutes, requirement]

theorem applyRoutes_executionRequirement :
    (applyRoutes P requirementsFor inherited active parentRoute node).executionRequirement =
      scopedExecutionRequirement P node.executor node.executionRequirement
        (routeOf inherited active)
        (requirementsOf requirementsFor (routeOf inherited active)) := by
  cases node
  simp [applyRoutes, executionRequirement, executor]

end Node

def Governs (paths : Fin n → List (List Char)) (way : List (List Char)) : Option (Fin n) → Prop
  | none => ∀ index, ¬ paths index <+: way
  | some index => paths index <+: way ∧
      ∀ other, paths other <+: way → (paths other).length ≤ (paths index).length

/-- The scopes that are active where a way has led to a node: those that may still be
completed below it, and the scope that governs the node is known. -/
structure Tracks (paths : Fin n → List (List Char)) (way : List (List Char))
    (inherited : Option (Fin n)) (active : List (ActiveRequirementScope n))
    (node : CommandNodeBuilder R) : Prop where
  sound : ∀ scope ∈ active, paths scope.index = way ++ scope.remaining
  complete : ∀ index remaining, paths index = way ++ remaining → remaining ≠ [] →
    0 < node.literalPathMatchCount remaining → ⟨index, remaining⟩ ∈ active
  governs : Governs paths way (governingScope inherited active)

variable {paths : Fin n → List (List Char)} {way : List (List Char)}
  {inherited : Option (Fin n)} {active : List (ActiveRequirementScope n)}

variable {index : Fin n}

theorem mem_descendantScopes : index ∈ (routeOf inherited active).descendantScopes ↔
      ∃ remaining, remaining ≠ [] ∧ ⟨index, remaining⟩ ∈ active := by
  simp only [routeOf, mem_map, mem_filter]
  constructor
  · rintro ⟨⟨index, remaining⟩, ⟨hmem, hne⟩, rfl⟩
    exact ⟨remaining, by simpa using hne, hmem⟩
  · rintro ⟨remaining, hne, hmem⟩
    exact ⟨⟨index, remaining⟩, ⟨hmem, by simpa using hne⟩, rfl⟩

theorem governingScope_of_empty (h : ⟨index, []⟩ ∈ active) :
    ∃ found, governingScope inherited active = some found ∧ ⟨found, []⟩ ∈ active := by
  have hsome : (active.find? fun scope => scope.remaining.isEmpty).isSome :=
    List.find?_isSome.mpr ⟨_, h, rfl⟩
  obtain ⟨⟨found, remaining⟩, hfound⟩ := Option.isSome_iff_exists.mp hsome
  obtain rfl : remaining = [] := by simpa using List.find?_some hfound
  exact ⟨found, by simp [governingScope, hfound], List.mem_of_find?_eq_some hfound⟩

theorem governingScope_of_forall (h : ∀ index, ⟨index, []⟩ ∉ active) :
    governingScope inherited active = inherited := by
  have hnone : (active.find? fun scope => scope.remaining.isEmpty) = none := by
    rw [List.find?_eq_none]
    rintro ⟨index, remaining⟩ hmem hempty
    obtain rfl : remaining = [] := by simpa using hempty
    exact h index hmem
  simp [governingScope, hnone]

theorem tracks_root {scopePaths : List (List (List Char))}
    (hne : ∀ path ∈ scopePaths, path ≠ []) (node : CommandNodeBuilder R) :
    Tracks (fun index => scopePaths.get index) [] none (initialScopes scopePaths) node where
  sound := by
    intro scope hscope
    obtain ⟨index, -, rfl⟩ := mem_map.mp hscope
    rfl
  complete := by
    intro index remaining hpath _ _
    exact mem_map.mpr ⟨index, mem_finRange index, by rw [hpath]; rfl⟩
  governs := by
    rw [governingScope_of_forall]
    · intro index hprefix
      exact hne _ (get_mem _ _) (prefix_nil.mp hprefix)
    · intro index hmem
      obtain ⟨other, -, heq⟩ := mem_map.mp hmem
      have hnil : scopePaths.get other = [] := congrArg ActiveRequirementScope.remaining heq
      exact hne _ (get_mem _ _) hnil

theorem mem_childActive_argument {child : CommandNodeBuilder R} (hname : child.literalName = none)
    {scope : ActiveRequirementScope n} :
    scope ∈ childActive active child ↔ scope ∈ active ∧ scope.remaining ≠ [] ∧
      0 < child.literalPathMatchCount scope.remaining := by
  simp [childActive, hname]

theorem mem_childActive_literal {child : CommandNodeBuilder R}
    (hname : child.literalName = some name) :
    ⟨index, remaining⟩ ∈ childActive active child ↔ ⟨index, name :: remaining⟩ ∈ active := by
  simp only [childActive, hname, mem_filterMap]
  constructor
  · rintro ⟨⟨other, path⟩, hmem, heq⟩
    cases path with
    | nil => cases heq
    | cons first path =>
      simp only at heq
      split at heq
      · rename_i hfirst
        obtain ⟨rfl, rfl⟩ : other = index ∧ path = remaining := by simpa using heq
        exact hfirst ▸ hmem
      · cases heq
  · intro hmem
    exact ⟨⟨index, name :: remaining⟩, hmem, by simp⟩

variable {governing : Option (Fin n)}

theorem Governs.concat (h : Governs paths way governing)
    (hends : ∀ index, paths index ≠ way ++ [name]) :
    Governs paths (way ++ [name]) governing := by
  have hprefix : ∀ index, paths index <+: way ++ [name] ↔ paths index <+: way := by
    intro index
    rw [prefix_concat_iff]
    simp [hends index]
  cases governing with
  | none => simpa [Governs, hprefix] using h
  | some index => simpa [Governs, hprefix] using h

theorem governs_of_eq (h : paths index = way) : Governs paths way (some index) :=
  ⟨h ▸ prefix_rfl, fun _ hother => h ▸ hother.length_le⟩

theorem Tracks.child {node child : CommandNodeBuilder R}
    (h : Tracks paths way inherited active node)
    (hchild : child ∈ node.children) :
    Tracks paths (way ++ child.literalName.toList) (governingScope inherited active)
      (childActive active child) child := by
  cases hname : child.literalName with
  | none =>
    refine ⟨?_, ?_, ?_⟩
    · intro scope hscope
      simpa using h.sound scope ((mem_childActive_argument hname).mp hscope).1
    · intro index remaining hpath hne hcount
      refine (mem_childActive_argument hname).mpr
        ⟨h.complete index remaining ?_ hne ?_, hne, hcount⟩
      · simpa using hpath
      · exact Nat.lt_of_lt_of_le hcount (count_argument hchild hname remaining)
    · rw [governingScope_of_forall]
      · simpa using h.governs
      · intro index hmem
        exact ((mem_childActive_argument hname).mp hmem).2.1 rfl
  | some name =>
    have hactive : ∀ index remaining, paths index = way ++ name :: remaining →
        (remaining = [] ∨ 0 < child.literalPathMatchCount remaining) →
        ⟨index, remaining⟩ ∈ childActive active child := by
      intro index remaining hpath hcount
      exact (mem_childActive_literal hname).mpr
        (h.complete index _ hpath (by simp) (count_literal hchild hname hcount))
    refine ⟨?_, ?_, ?_⟩
    · rintro ⟨index, remaining⟩ hscope
      simpa using h.sound _ ((mem_childActive_literal hname).mp hscope)
    · intro index remaining hpath _ hcount
      exact hactive index remaining (by simpa using hpath) (.inr hcount)
    · have hfound : ∀ index, ⟨index, []⟩ ∈ childActive active child → paths index = way ++ [name] :=
        fun index hmem => h.sound _ ((mem_childActive_literal hname).mp hmem)
      by_cases hends : ∃ index, paths index = way ++ [name]
      · obtain ⟨index, hindex⟩ := hends
        obtain ⟨found, hgoverning, hmem⟩ := governingScope_of_empty
          (hactive index [] hindex (.inl rfl))
        rw [hgoverning]
        exact governs_of_eq (hfound found hmem)
      · rw [governingScope_of_forall fun index hmem => hends ⟨index, hfound index hmem⟩]
        exact h.governs.concat fun index heq => hends ⟨index, heq⟩

theorem literalPath_cons (child : CommandNodeBuilder R) (nodes : List (CommandNodeBuilder R)) :
    literalPath (child :: nodes) = child.literalName.toList ++ literalPath nodes := by
  cases hname : child.literalName with
  | none => simp [literalPath, hname]
  | some name => simp [literalPath, hname]

variable {parentRoute : Option (RequirementRouteKey n)} {nodes : List (CommandNodeBuilder R)}
variable {node last : CommandNodeBuilder R}

theorem leads_of_applyRoutes
    (h : (applyRoutes P requirementsFor inherited active parentRoute node).Leads nodes last) :
    ∃ nodes' last', node.Leads nodes' last' ∧ literalPath nodes' = literalPath nodes := by
  generalize htree : applyRoutes P requirementsFor inherited active parentRoute node = tree at h
  induction h generalizing node inherited active parentRoute with
  | here tree => exact ⟨[], node, .here node, rfl⟩
  | @step tree child last nodes hchild _ ih =>
    subst htree
    rw [applyRoutes_children] at hchild
    obtain ⟨original, hmem, rfl⟩ := mem_map.mp hchild
    obtain ⟨nodes', last', hleads, hpath⟩ := ih rfl
    refine ⟨original :: nodes', last', .step hmem hleads, ?_⟩
    rw [literalPath_cons, literalPath_cons, hpath, applyRoutes_literalName]

variable {source : S} {granted : Option (Fin n) → Prop} {holds : Fin n → Prop}

/-- The requirements of a route allow what its governing scope grants, and passing also what
the keys of the scopes below allow. -/
structure Enforces (requirementsFor : Option (Fin n) → List (Fin n) → CommandRequirementRoute R)
    (source : S) (granted : Option (Fin n) → Prop) (holds : Fin n → Prop) : Prop where
  traversal : ∀ governing descendants,
    (requirementsFor governing descendants).traversal.allows source = true ↔
      granted governing ∨ ∃ index ∈ descendants, holds index
  execution : ∀ governing descendants,
    (requirementsFor governing descendants).execution.allows source = true ↔ granted governing

variable {node : CommandNodeBuilder R}

/-- Whoever passes a node passes the requirement of its route, which may stand at an
ancestor. -/
theorem traversal_of_requirement (hparent : ∀ route, parentRoute = some route →
      (requirementsOf requirementsFor route).traversal.allows source = true)
    (h : (applyRoutes P requirementsFor inherited active parentRoute node).requirement.allows
      source = true) :
    (requirementsOf requirementsFor (routeOf inherited active)).traversal.allows source = true := by
  rw [applyRoutes_requirement, scopedRequirement] at h
  split at h
  · rw [allows_and, Bool.and_eq_true] at h
    exact h.2
  · rename_i heq
    exact hparent _ (not_not.mp heq)

/-- Whoever may pass to a node and execute it has the permission that governs it. -/
theorem granted_of_permits (henforces : Enforces requirementsFor source granted holds)
    (htracks : Tracks paths way inherited active node)
    (hparent : ∀ route, parentRoute = some route →
      (requirementsOf requirementsFor route).traversal.allows source = true)
    (hleads : (applyRoutes P requirementsFor inherited active parentRoute node).Leads nodes last)
    (hexecutor : last.executor.isSome)
    (hpermits : Permits source (applyRoutes P requirementsFor inherited active parentRoute node)
      nodes last) :
    ∃ governing, Governs paths (way ++ literalPath nodes) governing ∧ granted governing := by
  generalize htree : applyRoutes P requirementsFor inherited active parentRoute node = tree
    at hleads hpermits
  induction hleads generalizing node inherited active parentRoute way with
  | here tree =>
    subst htree
    obtain ⟨hpass, hexecute⟩ := hpermits
    have htraversal := traversal_of_requirement hparent (hpass _ mem_cons_self)
    refine ⟨governingScope inherited active, ?_, ?_⟩
    · simpa [literalPath] using htracks.governs
    · rw [applyRoutes_executor] at hexecutor
      rw [applyRoutes_executionRequirement, scopedExecutionRequirement] at hexecute
      split at hexecute
      · rw [allows_and, Bool.and_eq_true] at hexecute
        exact (henforces.execution _ _).mp hexecute.2
      · rename_i hnone
        have hnil : (routeOf inherited active).descendantScopes = [] := by
          simpa [hexecutor] using hnone
        rcases (henforces.traversal _ _).mp htraversal with hgranted | ⟨index, hindex, -⟩
        · exact hgranted
        · rw [hnil] at hindex
          cases hindex
  | @step tree child last nodes hchild _ ih =>
    subst htree
    rw [applyRoutes_children] at hchild
    obtain ⟨original, hmem, rfl⟩ := mem_map.mp hchild
    obtain ⟨hpass, hexecute⟩ := hpermits
    have htraversal := traversal_of_requirement hparent (hpass _ mem_cons_self)
    have hroute : ∀ route, some (routeOf inherited active) = some route →
        (requirementsOf requirementsFor route).traversal.allows source = true := by
      rintro route ⟨⟩
      exact htraversal
    obtain ⟨governing, hgoverns, hgranted⟩ := ih (htracks.child hmem) hroute hexecutor rfl
      ⟨fun node hnode => hpass node (mem_cons_of_mem _ hnode), hexecute⟩
    refine ⟨governing, ?_, hgranted⟩
    rwa [literalPath_cons, applyRoutes_literalName, ← append_assoc]

theorem Governs.exists_eq (h : Governs paths way governing) {rest : List (List Char)}
    (hgoverns : Governs paths (way ++ rest) (some index)) (hway : paths index <+: way) :
    ∃ found, governing = some found ∧ paths found = paths index := by
  cases governing with
  | none => exact absurd hway (h index)
  | some found =>
    have hle := h.2 index hway
    have hle' := hgoverns.2 found (h.1.trans (prefix_append _ _))
    refine ⟨found, rfl, ?_⟩
    exact (prefix_of_prefix_length_le h.1 hway hle').eq_of_length (Nat.le_antisymm hle' hle)

/-- On the way to what a scope governs, either that scope governs or it is left below. -/
theorem route_of_governs
    (htracks : Tracks paths way inherited active node)
    (hleads : node.Leads nodes last)
    (hgoverns : Governs paths (way ++ literalPath nodes) (some index)) :
    (∃ governing, (routeOf inherited active).governingScope = some governing ∧
        paths governing = paths index) ∨
      index ∈ (routeOf inherited active).descendantScopes := by
  by_cases hway : paths index <+: way
  · exact .inl (htracks.governs.exists_eq hgoverns hway)
  · right
    have hprefix := hgoverns.1
    obtain ⟨remaining, hpath⟩ : way <+: paths index := by
      rcases prefix_or_prefix_of_prefix hprefix (prefix_append way _) with h | h
      · exact absurd h hway
      · exact h
    have hne : remaining ≠ [] := by
      rintro rfl
      exact hway (by rw [← hpath, append_nil])
    rw [← hpath, prefix_append_right_inj] at hprefix
    exact mem_descendantScopes.mpr ⟨remaining, hne,
      htracks.complete index remaining hpath.symm hne (hleads.count_pos hne hprefix)⟩

/-- Whoever has the permission of the governing scope and its key passes a node. -/
theorem traversal_of_granted (henforces : Enforces requirementsFor source granted holds)
    (htracks : Tracks paths way inherited active node)
    (hleads : (applyRoutes P requirementsFor inherited active parentRoute node).Leads nodes last)
    (hgoverns : Governs paths (way ++ literalPath nodes) (some index))
    (hgranted : ∀ other, paths other = paths index → granted (some other)) (hkey : holds index) :
    (requirementsOf requirementsFor (routeOf inherited active)).traversal.allows source = true := by
  obtain ⟨nodes', last', hleads', hpath⟩ := leads_of_applyRoutes hleads
  rw [← hpath] at hgoverns
  rw [requirementsOf, henforces.traversal]
  rcases route_of_governs htracks hleads' hgoverns with ⟨governing, hgoverning, heq⟩ | hmem
  · left
    rw [hgoverning]
    exact hgranted governing heq
  · exact .inr ⟨index, hmem, hkey⟩

theorem requirement_of_traversal (hnode : node.requirement = .allowAll)
    (h : (requirementsOf requirementsFor (routeOf inherited active)).traversal.allows source =
      true) :
    (applyRoutes P requirementsFor inherited active parentRoute node).requirement.allows source =
      true := by
  rw [applyRoutes_requirement, scopedRequirement, hnode]
  split
  · rw [allows_and, h]
    rfl
  · rfl

/-- Whoever has the permission of the governing scope and its key may pass to a node and
execute it, if nothing else is required. -/
theorem permits_of_granted (henforces : Enforces requirementsFor source granted holds)
    (htracks : Tracks paths way inherited active node)
    (hunrestricted : node.Unrestricted)
    (hleads : (applyRoutes P requirementsFor inherited active parentRoute node).Leads nodes last)
    (hgoverns : Governs paths (way ++ literalPath nodes) (some index))
    (hgranted : ∀ other, paths other = paths index → granted (some other)) (hkey : holds index) :
    Permits source (applyRoutes P requirementsFor inherited active parentRoute node)
      nodes last := by
  generalize htree : applyRoutes P requirementsFor inherited active parentRoute node = tree
    at hleads
  induction hleads generalizing node inherited active parentRoute way with
  | here tree =>
    subst htree
    have htraversal := traversal_of_granted henforces htracks
      (.here (applyRoutes P requirementsFor inherited active parentRoute node)) hgoverns hgranted
      hkey
    obtain ⟨hrequirement, hexecution⟩ := hunrestricted [] node (.here node)
    refine ⟨by simpa using requirement_of_traversal hrequirement htraversal, ?_⟩
    rw [applyRoutes_executionRequirement, scopedExecutionRequirement, hexecution]
    split
    · rw [allows_and, requirementsOf, Bool.and_eq_true]
      refine ⟨rfl, (henforces.execution _ _).mpr ?_⟩
      have hway : paths index <+: way := by simpa [literalPath] using hgoverns.1
      obtain ⟨found, hfound, heq⟩ := htracks.governs.exists_eq hgoverns hway
      change granted (governingScope inherited active)
      rw [hfound]
      exact hgranted found heq
    · rfl
  | @step tree child last nodes hchild hleads ih =>
    subst htree
    have htraversal := traversal_of_granted henforces htracks (.step hchild hleads) hgoverns
      hgranted hkey
    obtain ⟨hrequirement, -⟩ := hunrestricted [] node (.here node)
    have hpass : (applyRoutes P requirementsFor inherited active parentRoute
        node).requirement.allows source = true :=
      requirement_of_traversal hrequirement htraversal
    rw [applyRoutes_children] at hchild
    obtain ⟨original, hmem, rfl⟩ := mem_map.mp hchild
    rw [literalPath_cons, applyRoutes_literalName, ← append_assoc] at hgoverns
    obtain ⟨hrest, hexecute⟩ := ih (htracks.child hmem) (hunrestricted.child hmem) hgoverns rfl
    refine ⟨?_, hexecute⟩
    intro other hother
    rcases mem_cons.mp hother with rfl | hother
    · exact hpass
    · exact hrest other hother

end Routes

end CommandNodeBuilder

open CommandNodeBuilder

variable {paths : List (List (List Char))}

theorem scopedPermissions_spec {root : CommandNodeBuilder R} {id : Identifier}
    {derivedRoot : PermissionKey}
    {permissions permissions' : Finset PermissionKey} {keys : Fin paths.length → PermissionKey}
    (h : scopedPermissions root id derivedRoot paths permissions = .ok (keys, permissions')) :
    ∀ index, derivedSubcommandPermission id (paths.get index) derivedRoot (paths.get index) =
      .ok (keys index) ∧ root.literalPathMatchCount (paths.get index) = 1 := by
  induction paths generalizing permissions with
  | nil => exact fun index => index.elim0
  | cons path paths ih =>
    rw [scopedPermissions] at h
    cases hkey : derivedSubcommandPermission id path derivedRoot path with
    | error error => simp [hkey, bind, Except.bind] at h
    | ok permission =>
      simp only [hkey, bind, Except.bind] at h
      split at h
      · rename_i hcount
        cases hrest :
          scopedPermissions root id derivedRoot paths (insert permission permissions) with
        | error error => simp [hrest] at h
        | ok rest =>
          obtain ⟨rest, final⟩ := rest
          obtain ⟨rfl, rfl⟩ : Fin.cons permission rest = keys ∧ final = permissions' := by
            simpa [hrest, pure, Except.pure] using h
          have htail := ih hrest
          intro index
          refine Fin.cases ?_ ?_ index
          · exact ⟨hkey, hcount⟩
          · exact fun index => htail index
      · cases h
      · cases h

theorem CommandNodeBuilder.alsoRequires_requirement (P : CommandPermissionSource R)
    (node : CommandNodeBuilder R) (requirement : CommandRequirement R) :
    (node.alsoRequires P requirement).requirement = P.and node.requirement requirement := by
  cases node
  rfl

theorem ne_nil_of_count {root : CommandNodeBuilder R} {path : List (List Char)}
    (h : root.literalPathMatchCount path = 1) : path ≠ [] := by
  rintro rfl
  cases root
  simp [literalPathMatchCount] at h

def LongestPath (paths : List (List (List Char))) (way path : List (List Char)) : Prop :=
  path ∈ paths ∧ path <+: way ∧ ∀ other ∈ paths, other <+: way → other.length ≤ path.length

theorem governs_of_longestPath {way path : List (List Char)}
    (h : LongestPath paths way path) : ∃ index, paths.get index = path ∧
      Governs (fun index => paths.get index) way (some index) := by
  obtain ⟨hmem, hprefix, hlongest⟩ := h
  obtain ⟨index, rfl⟩ := get_of_mem hmem
  exact ⟨index, rfl, hprefix, fun other hother => hlongest _ (get_mem _ _) hother⟩

section Registration

variable {P : CommandPermissionSource R} {root last : CommandNodeBuilder R}
  {rootPermission : PermissionExpr} {derived : PermissionKey} {paths : List (List (List Char))}
  {defaultAccess : Bool} {source : S} {keys : Fin paths.length → PermissionKey}
  {nodes : List (CommandNodeBuilder R)}

theorem enforces_registrationRequirements : Enforces
    (registrationRequirements P rootPermission derived keys defaultAccess) source
    (Granted P rootPermission derived keys defaultAccess source)
    (fun index => P.permissionState source (.key (keys index)) = some .allow) :=
  ⟨allows_traversal, allows_execution⟩

theorem applyScopedRequirements_eq : root.applyScopedRequirements P paths
      (registrationRequirements P rootPermission derived keys defaultAccess) =
    applyRoutes P (registrationRequirements P rootPermission derived keys defaultAccess) none
      (initialScopes paths) none root :=
  (applyScopedRequirementsInner_eq none _ none (by simp [ValidCache]) root).1

/-- The governing permission of a node is granted to whoever may execute it. -/
theorem scoped_granted (hne : ∀ path ∈ paths, path ≠ [])
    (hleads : (root.applyScopedRequirements P paths
      (registrationRequirements P rootPermission derived keys defaultAccess)).Leads nodes last)
    (hexecutor : last.executor.isSome)
    (hpermits : Permits source (root.applyScopedRequirements P paths
      (registrationRequirements P rootPermission derived keys defaultAccess)) nodes last) :
    ∃ governing, Governs (fun index => paths.get index) (literalPath nodes) governing ∧
      Granted P rootPermission derived keys defaultAccess source governing := by
  rw [applyScopedRequirements_eq] at hleads hpermits
  exact granted_of_permits enforces_registrationRequirements
    (tracks_root hne root) (by simp) hleads hexecutor hpermits

end Registration

/-- Whoever passes all requirements on the way to a node with an executor and may execute it
has the permission of the longest declared path to the node, or that of the root if there is
none. In a tree without other requirements, whoever has the permission of that path and its
key passes them. -/
theorem applyRegistrationRequirements_access {P : CommandPermissionSource R}
    {root tree last : CommandNodeBuilder R} {id : Identifier} {rootPermission : PermissionExpr}
    {derivedRoot : Option PermissionKey} {paths : List (List (List Char))} {defaultAccess : Bool}
    {permissions permissions' : Finset PermissionKey}
    (h : applyRegistrationRequirements P root id rootPermission derivedRoot paths defaultAccess
      permissions = .ok (tree, permissions'))
    {nodes : List (CommandNodeBuilder R)} (hleads : tree.Leads nodes last)
    (hexecutor : last.executor.isSome) (source : S) :
    (Permits source tree nodes last → (∀ path, LongestPath paths (literalPath nodes) path →
        ∃ derived key, derivedRoot = some derived ∧
          derivedSubcommandPermission id path derived path = .ok key ∧
          P.permissionState source (.scopedKey derived key) = some .allow) ∧
      ((∀ path ∈ paths, ¬ path <+: literalPath nodes) →
        RootGranted P rootPermission defaultAccess source)) ∧
    (root.Unrestricted → ∀ path derived key, LongestPath paths (literalPath nodes) path →
      derivedRoot = some derived → derivedSubcommandPermission id path derived path = .ok key →
      P.permissionState source (.scopedKey derived key) = some .allow →
      P.permissionState source (.key key) = some .allow →
      Permits source tree nodes last) := by
  rw [applyRegistrationRequirements.eq_def] at h
  split at h
  · rename_i hempty
    obtain rfl : paths = [] := by simpa using hempty
    obtain ⟨rfl, -⟩ := Prod.mk.inj (Except.ok.inj h)
    refine ⟨fun hpermits => ⟨?_, fun _ => ?_⟩, ?_⟩
    · rintro path ⟨hmem, -⟩
      cases hmem
    · have hroot := hpermits.1 _ mem_cons_self
      rw [alsoRequires_requirement, allows_and,
        Bool.and_eq_true, allows_rootPermissionRequirement] at hroot
      simpa using hroot.2
    · rintro - path derived key ⟨hmem, -⟩
      cases hmem
  · split at h
    · cases h
    rename_i derived
    cases hscoped : scopedPermissions root id derived paths permissions with
    | error error => simp [hscoped, bind, Except.bind] at h
    | ok scopes =>
      obtain ⟨keys, final⟩ := scopes
      simp only [hscoped, bind, Except.bind] at h
      obtain ⟨rfl, rfl⟩ := Prod.mk.inj (Except.ok.inj h)
      have hspec := scopedPermissions_spec hscoped
      have hne : ∀ path ∈ paths, path ≠ [] := by
        intro path hmem
        obtain ⟨index, rfl⟩ := get_of_mem hmem
        exact ne_nil_of_count (hspec index).2
      refine ⟨fun hpermits => ?_, ?_⟩
      · obtain ⟨governing, hgoverns, hgranted⟩ := scoped_granted hne hleads hexecutor hpermits
        refine ⟨?_, ?_⟩
        · intro path hlongest
          obtain ⟨index, rfl, hindex⟩ := governs_of_longestPath hlongest
          have hwhole : Governs (fun index => paths.get index) (literalPath nodes ++ [])
              (some index) := by simpa using hindex
          obtain ⟨found, rfl, heq⟩ := hgoverns.exists_eq hwhole hindex.1
          refine ⟨derived, keys found, rfl, ?_, hgranted⟩
          rw [← heq]
          exact (hspec found).1
        · intro hnone
          cases governing with
          | none => exact hgranted
          | some index => exact absurd hgoverns.1 (hnone _ (get_mem _ _))
      · rintro hunrestricted path derived key hlongest ⟨⟩ hderived hscopedKey hkey
        obtain ⟨index, rfl, hindex⟩ := governs_of_longestPath hlongest
        rw [applyScopedRequirements_eq] at hleads ⊢
        have hkeys : ∀ other, paths.get other = paths.get index → keys other = key := by
          intro other heq
          have hother := (hspec other).1
          rw [heq, hderived] at hother
          exact (Except.ok.inj hother).symm
        refine permits_of_granted enforces_registrationRequirements
          (tracks_root hne root) hunrestricted hleads
          (by simpa using hindex) ?_ ?_
        · intro other heq
          change P.permissionState source _ = _
          rw [hkeys other heq]
          exact hscopedKey
        · rw [hkeys index rfl]
          exact hkey

namespace AccessSample

def runtime : CommandRuntime Bool where
  Argument := Unit
  ArgumentValue := Unit
  Executor := ℕ
  Modifier := Unit
  Predicate := Bool × Bool
  ErrorKind := Empty
  ProtocolArgument := Unit
  sameArgument := fun _ _ => true
  parse := fun _ reader _ => .ok ((), reader)
  holds := fun predicate source => if source then predicate.2 else predicate.1
  protocolArgument := fun argument => argument

def tick : PermissionKey := ⟨['t', 'i', 'c', 'k'], by decide⟩

def freeze : PermissionKey := ⟨['t', 'i', 'c', 'k', '.', 'f'], by decide⟩

def sources : CommandPermissionSource runtime where
  authorization := fun source => ⟨⟨none, none, []⟩,
    some (if source then PermissionSet.new.push ⟨freeze, .global, .allow⟩ else .new)⟩
  closure := fun f => (f false, f true)
  holds_closure := by
    intro f source
    cases source <;> rfl

theorem literal_ne_root : NodeKind.literal ≠ NodeKind.root := by decide

def literal (name : List Char) (children : List (CommandNodeBuilder runtime))
    (executor : Option ℕ) : CommandNodeBuilder runtime :=
  .mk (.literal name) literal_ne_root children executor .allowAll .allowAll none

def root : CommandNodeBuilder runtime := literal ['t'] [literal ['f'] [] (some 1)] (some 2)

theorem freeze_access :
    ∃ tree last permissions, applyRegistrationRequirements sources root ⟨"m", "t"⟩ (.key tick)
        (some tick) [[['f']]] false ∅ = .ok (tree, permissions) ∧
      tree.Leads [last] last ∧ last.executor.isSome ∧ Permits true tree [last] last ∧
      ∀ path, LongestPath [[['f']]] (literalPath [last]) path → ∃ derived key,
        some tick = some derived ∧
        derivedSubcommandPermission ⟨"m", "t"⟩ path derived path = .ok key ∧
        sources.permissionState true (.scopedKey derived key) = some .allow := by
  obtain ⟨tree, last, permissions, h, hleads, hexecutor, hpermits⟩ : ∃ tree last permissions,
      applyRegistrationRequirements sources root ⟨"m", "t"⟩ (.key tick) (some tick) [[['f']]] false
        ∅ = .ok (tree, permissions) ∧ tree.Leads [last] last ∧ last.executor.isSome ∧
      Permits true tree [last] last :=
    ⟨_, _, _, rfl, .step mem_cons_self (.here _), rfl,
      forall_mem_cons.2 ⟨rfl, forall_mem_singleton.2 rfl⟩, rfl⟩
  exact ⟨tree, last, permissions, h, hleads, hexecutor, hpermits,
    ((applyRegistrationRequirements_access h hleads hexecutor true).1 hpermits).1⟩

end AccessSample

end Steel
