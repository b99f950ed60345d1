import Mathlib.Data.Fin.Tuple.Basic
import Mathlib.Data.Finset.Insert
import Steel.Command.CommandDispatcher
import Steel.Permission.PermissionSet

/-! # Permissions of commands

A command has a permission for its root and may have permissions for paths of literals below it.
-/

namespace Steel

variable {S : Type} {R : CommandRuntime S}

/-- What a source is allowed. A source that is no player is allowed everything. -/
structure CommandAuthorizationContext where
  permissionContext : PermissionContext
  playerPermissions : Option PermissionSet

def CommandAuthorizationContext.permissionState (context : CommandAuthorizationContext)
    (permission : PermissionExpr) : Option PermissionState :=
  match context.playerPermissions with
  | none => some .allow
  | some permissions => permissions.resolveIn context.permissionContext permission

/-- Sources have permissions, and closures over sources are predicates of requirements. -/
structure CommandPermissionSource (R : CommandRuntime S) where
  authorization : S → CommandAuthorizationContext
  closure : (S → Bool) → R.Predicate
  holds_closure : ∀ f source, R.holds (closure f) source = f source

namespace CommandPermissionSource

variable (P : CommandPermissionSource R)

def permissionState (source : S) (permission : PermissionExpr) : Option PermissionState :=
  (P.authorization source).permissionState permission

/-- Both requirements. The kind is that of the stronger one. -/
def and (first second : CommandRequirement R) : CommandRequirement R where
  predicate :=
    match first.predicate, second.predicate with
    | none, none => none
    | some predicate, none => some predicate
    | none, some predicate => some predicate
    | some first, some second =>
      some (P.closure fun source => R.holds first source && R.holds second source)
  kind :=
    match first.kind, second.kind with
    | some .authorization, _ => some .authorization
    | _, some .authorization => some .authorization
    | some .context, _ => some .context
    | _, some .context => some .context
    | none, none => none

def permissionRequirement (permission : PermissionExpr) : CommandRequirement R :=
  .authorization (P.closure fun source => P.permissionState source permission = some .allow)

/-- The permission of the root, or one of the alternatives. With default access the root only
must not be denied. -/
def rootPermissionRequirement (root : PermissionExpr) (alternatives : List PermissionKey)
    (defaultAccess : Bool) : CommandRequirement R :=
  if defaultAccess then
    let alternatives :=
      if alternatives.isEmpty then none else some (.any (alternatives.map .key))
    .contextual (P.closure fun source =>
      P.permissionState source root ≠ some .deny ||
        alternatives.any fun alternatives =>
          P.permissionState source alternatives = some .allow)
  else
    P.permissionRequirement (alternatives.foldl (fun permission alternative =>
      permission.or (.key alternative)) root)

def scopedPermissionRequirement (root key : PermissionKey)
    (alternatives : List PermissionKey) : CommandRequirement R :=
  P.permissionRequirement (alternatives.foldl (fun permission alternative =>
    permission.or (.key alternative)) (.scopedKey root key))

end CommandPermissionSource

/-- The requirements for passing a node and for executing it. -/
structure CommandRequirementRoute (R : CommandRuntime S) where
  traversal : CommandRequirement R
  execution : CommandRequirement R

/-- The scope that governs a node and the scopes below it, by their indices. -/
structure RequirementRouteKey (n : ℕ) where
  governingScope : Option (Fin n)
  descendantScopes : List (Fin n)
  deriving DecidableEq

/-- A scope and what is left of its path below a node. -/
structure ActiveRequirementScope (n : ℕ) where
  index : Fin n
  remaining : List (List Char)

abbrev RouteCache (R : CommandRuntime S) (n : ℕ) :=
  List (RequirementRouteKey n × CommandRequirementRoute R)

def cachedRouteRequirements {n : ℕ} (cache : RouteCache R n) (route : RequirementRouteKey n)
    (requirementsFor : Option (Fin n) → List (Fin n) → CommandRequirementRoute R) :
    CommandRequirementRoute R × RouteCache R n :=
  match cache.find? (·.1 = route) with
  | some (_, requirements) => (requirements, cache)
  | none =>
    let requirements := requirementsFor route.governingScope route.descendantScopes
    (requirements, cache ++ [(route, requirements)])

namespace CommandNodeBuilder

def literalName (node : CommandNodeBuilder R) : Option (List Char) :=
  match node.data with
  | .literal name => some name
  | .root => none
  | .argument _ _ => none

mutual

/-- The number of times a path of literals occurs below a node. Arguments take no part. -/
def literalPathMatchCount : CommandNodeBuilder R → List (List Char) → ℕ
  | _, [] => 0
  | mk _ _ children _ _ _ _, name :: remaining => matchCountChildren name remaining children

def matchCountChildren (name : List Char) (remaining : List (List Char)) :
    List (CommandNodeBuilder R) → ℕ
  | [] => 0
  | child :: children =>
    (match child.literalName with
      | none => child.literalPathMatchCount (name :: remaining)
      | some literal =>
        if literal ≠ name then 0
        else if remaining = [] then 1
        else child.literalPathMatchCount remaining) +
      matchCountChildren name remaining children

end

variable {n : ℕ}

/-- The scope whose path ends at a node, or else the inherited one. -/
def governingScope (inherited : Option (Fin n)) (active : List (ActiveRequirementScope n)) :
    Option (Fin n) :=
  ((active.find? fun scope => scope.remaining.isEmpty).map fun scope => some scope.index).getD
    inherited

def routeOf (inherited : Option (Fin n)) (active : List (ActiveRequirementScope n)) :
    RequirementRouteKey n where
  governingScope := governingScope inherited active
  descendantScopes := (active.filter fun scope => !scope.remaining.isEmpty).map (·.index)

def childActive (active : List (ActiveRequirementScope n)) (child : CommandNodeBuilder R) :
    List (ActiveRequirementScope n) :=
  match child.literalName with
  | some literal => active.filterMap fun scope =>
    match scope.remaining with
    | [] => none
    | name :: remaining => if name = literal then some ⟨scope.index, remaining⟩ else none
  | none => active.filter fun scope =>
    !scope.remaining.isEmpty && child.literalPathMatchCount scope.remaining > 0

/-- The requirement for passing a node, unless its parent has the same route. -/
def scopedRequirement (P : CommandPermissionSource R) (requirement : CommandRequirement R)
    (route : RequirementRouteKey n) (parentRoute : Option (RequirementRouteKey n))
    (requirements : CommandRequirementRoute R) : CommandRequirement R :=
  if parentRoute ≠ some route then P.and requirement requirements.traversal else requirement

/-- The requirement for executing a node, if scopes below it may pass it. -/
def scopedExecutionRequirement (P : CommandPermissionSource R) (executor : Option R.Executor)
    (requirement : CommandRequirement R) (route : RequirementRouteKey n)
    (requirements : CommandRequirementRoute R) : CommandRequirement R :=
  if !route.descendantScopes.isEmpty && executor.isSome then
    P.and requirement requirements.execution
  else requirement

mutual

/-- Attaches the requirements of scopes to a node and all below it. -/
def applyScopedRequirementsInner (P : CommandPermissionSource R)
    (requirementsFor : Option (Fin n) → List (Fin n) → CommandRequirementRoute R)
    (inherited : Option (Fin n)) (active : List (ActiveRequirementScope n))
    (parentRoute : Option (RequirementRouteKey n)) (cache : RouteCache R n) :
    CommandNodeBuilder R → CommandNodeBuilder R × RouteCache R n
  | mk data kind_ne children executor requirement executionRequirement redirect =>
    let route := routeOf inherited active
    let (requirements, cache) := cachedRouteRequirements cache route requirementsFor
    let requirement := scopedRequirement P requirement route parentRoute requirements
    let executionRequirement :=
      scopedExecutionRequirement P executor executionRequirement route requirements
    let (children, cache) :=
      applyScopedChildren P requirementsFor active route cache children
    (mk data kind_ne children executor requirement executionRequirement redirect, cache)

def applyScopedChildren (P : CommandPermissionSource R)
    (requirementsFor : Option (Fin n) → List (Fin n) → CommandRequirementRoute R)
    (active : List (ActiveRequirementScope n)) (route : RequirementRouteKey n)
    (cache : RouteCache R n) :
    List (CommandNodeBuilder R) → List (CommandNodeBuilder R) × RouteCache R n
  | [] => ([], cache)
  | child :: children =>
    let (applied, cache) := applyScopedRequirementsInner P requirementsFor route.governingScope
      (childActive active child) (some route) cache child
    let (rest, cache) := applyScopedChildren P requirementsFor active route cache children
    (applied :: rest, cache)

end

/-- All scopes are active at the root with their whole paths. -/
def initialScopes (scopePaths : List (List (List Char))) :
    List (ActiveRequirementScope scopePaths.length) :=
  (List.finRange scopePaths.length).map fun index => ⟨index, scopePaths.get index⟩

def applyScopedRequirements (P : CommandPermissionSource R) (root : CommandNodeBuilder R)
    (scopePaths : List (List (List Char)))
    (requirementsFor : Option (Fin scopePaths.length) → List (Fin scopePaths.length) →
      CommandRequirementRoute R) : CommandNodeBuilder R :=
  (applyScopedRequirementsInner P requirementsFor none (initialScopes scopePaths) none [] root).1

def alsoRequires (P : CommandPermissionSource R) (node : CommandNodeBuilder R)
    (requirement : CommandRequirement R) : CommandNodeBuilder R :=
  match node with
  | mk data kind_ne children executor old executionRequirement redirect =>
    mk data kind_ne children executor (P.and old requirement) executionRequirement redirect

end CommandNodeBuilder

inductive CommandRegistrationError where
  | subcommandPermissionsRequireDerivedRoot (id : Identifier)
  | invalidSubcommandPermissionPath (id : Identifier) (path : List (List Char))
      (source : PermissionKeyError)
  | missingSubcommandPermissionPath (id : Identifier) (path : List (List Char))
  | ambiguousSubcommandPermissionPath (id : Identifier) (path : List (List Char)) (count : ℕ)

def derivedSubcommandPermission (id : Identifier) (path : List (List Char)) :
    PermissionKey → List (List Char) → Except CommandRegistrationError PermissionKey
  | permission, [] => pure permission
  | permission, segment :: segments =>
    match PermissionSegment.parse segment with
    | .error source => throw (.invalidSubcommandPermissionPath id path source)
    | .ok segment =>
      match permission.child segment with
      | .error source => throw (.invalidSubcommandPermissionPath id path source)
      | .ok permission => derivedSubcommandPermission id path permission segments

/-- The keys of the paths, each of which must occur once below the root. -/
def scopedPermissions (root : CommandNodeBuilder R) (id : Identifier)
    (derivedRoot : PermissionKey) : (paths : List (List (List Char))) →
      Finset PermissionKey → Except CommandRegistrationError
        ((Fin paths.length → PermissionKey) × Finset PermissionKey)
  | [], permissions => pure (Fin.elim0, permissions)
  | path :: paths, permissions => do
    let permission ← derivedSubcommandPermission id path derivedRoot path
    let permissions := insert permission permissions
    match root.literalPathMatchCount path with
    | 1 =>
      let (rest, permissions) ← scopedPermissions root id derivedRoot paths permissions
      pure (Fin.cons permission rest, permissions)
    | 0 => throw (.missingSubcommandPermissionPath id path)
    | count => throw (.ambiguousSubcommandPermissionPath id path count)

/-- The requirements of a route, by the keys of the scopes. -/
def registrationRequirements (P : CommandPermissionSource R) {n : ℕ}
    (rootPermission : PermissionExpr) (derivedRoot : PermissionKey)
    (keys : Fin n → PermissionKey) (defaultAccess : Bool) (governingScope : Option (Fin n))
    (descendantScopes : List (Fin n)) : CommandRequirementRoute R where
  traversal :=
    match governingScope with
    | some index =>
      P.scopedPermissionRequirement derivedRoot (keys index) (descendantScopes.map keys)
    | none =>
      P.rootPermissionRequirement rootPermission (descendantScopes.map keys) defaultAccess
  execution :=
    match governingScope with
    | some index => P.scopedPermissionRequirement derivedRoot (keys index) []
    | none => P.rootPermissionRequirement rootPermission [] defaultAccess

/-- Attaches the requirements of a registration, and collects the keys it declares. -/
def applyRegistrationRequirements (P : CommandPermissionSource R) (root : CommandNodeBuilder R)
    (id : Identifier) (rootPermission : PermissionExpr) (derivedRoot : Option PermissionKey)
    (subcommandPermissions : List (List (List Char))) (defaultAccess : Bool)
    (permissions : Finset PermissionKey) :
    Except CommandRegistrationError (CommandNodeBuilder R × Finset PermissionKey) :=
  if subcommandPermissions.isEmpty then
    pure (root.alsoRequires P (P.rootPermissionRequirement rootPermission [] defaultAccess),
      permissions)
  else
    match derivedRoot with
    | none => throw (.subcommandPermissionsRequireDerivedRoot id)
    | some derivedRoot => do
      let (keys, permissions) ←
        scopedPermissions root id derivedRoot subcommandPermissions permissions
      pure (root.applyScopedRequirements P subcommandPermissions
        (registrationRequirements P rootPermission derivedRoot keys defaultAccess), permissions)

end Steel
