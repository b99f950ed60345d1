import Mathlib.Data.List.MinMax
import Mathlib.Data.Prod.Lex
import Steel.Permission.PermissionKey

/-! # Permission sets and expressions

A set is a list of rules, each from a group or from the subject itself. Keys are combined to
expressions that allow, deny or leave open.
-/

namespace Steel

inductive PermissionState where
  | allow
  | deny
  deriving DecidableEq

/-- One permission rule. -/
structure PermissionEntry where
  key : PermissionKey
  context : PermissionRuleContext
  state : PermissionState

/-- Where a rule comes from. -/
inductive PermissionResolutionSource where
  | group (name : List Char) (priority : ℤ)
  | subject

namespace PermissionResolutionSource

def rank : PermissionResolutionSource → ℕ
  | group _ _ => 0
  | subject => 1

def tiePriority : PermissionResolutionSource → ℤ
  | group _ priority => priority
  | subject => 0

end PermissionResolutionSource

/-- Rules with a source for each of them. -/
structure PermissionSet where
  entries : List PermissionEntry
  sources : List PermissionResolutionSource
  length_eq : entries.length = sources.length

/-- A rule that matches, with what it is compared by. -/
structure PermissionCandidate where
  entryIndex : ℕ
  keySpecificity : ℕ
  contextSpecificity : ℕ
  source : PermissionResolutionSource
  state : PermissionState

/-- Specificity of the key and of the context, then the source, then its priority. -/
abbrev PermissionOrder := ℕ ×ₗ ℕ ×ₗ ℕ ×ₗ ℤ

def PermissionCandidate.order (candidate : PermissionCandidate) : PermissionOrder :=
  toLex (candidate.keySpecificity, toLex (candidate.contextSpecificity,
    toLex (candidate.source.rank, candidate.source.tiePriority)))

def pushCandidate (best : Option PermissionCandidate) (candidate : PermissionCandidate) :
    Option PermissionCandidate :=
  match best with
  | none => some candidate
  | some current =>
    if current.order < candidate.order then some candidate
    else if candidate.order = current.order ∧ current.state = .allow ∧ candidate.state = .deny then
      some candidate
    else some current

namespace PermissionSet

def new : PermissionSet := ⟨[], [], rfl⟩

variable (set : PermissionSet)

def pushWithSource (entry : PermissionEntry)
    (source : PermissionResolutionSource) : PermissionSet where
  entries := set.entries ++ [entry]
  sources := set.sources ++ [source]
  length_eq := by simp [set.length_eq]

def push (entry : PermissionEntry) : PermissionSet :=
  set.pushWithSource entry .subject

def pushGroup (entry : PermissionEntry) (group : List Char) (groupPriority : ℤ) : PermissionSet :=
  set.pushWithSource entry (.group group groupPriority)

def enumerated : List ((PermissionEntry × PermissionResolutionSource) × ℕ) :=
  (set.entries.zip set.sources).zipIdx

def bestKeyCandidate (key : PermissionKey) (context : PermissionContext) :
    Option PermissionCandidate :=
  set.enumerated.foldl (fun best (rule, index) =>
    if !rule.1.context.isMatch context || !rule.1.key.isMatch key then best
    else pushCandidate best ⟨index, rule.1.key.specificity, rule.1.context.specificity, rule.2,
      rule.1.state⟩) none

/-- A rule may match the key itself or, if the parent scopes the key, the parent. A rule that
matches the key alone is one step more specific. -/
def bestScopedKeyCandidate (parent key : PermissionKey)
    (context : PermissionContext) : Option PermissionCandidate :=
  set.enumerated.foldl (fun best (rule, index) =>
    if !rule.1.context.isMatch context then best
    else
      let matchesParent := parent.scopes key && rule.1.key.isMatch parent
      let matchesKey := rule.1.key.isMatch key
      if !matchesParent && !matchesKey then best
      else
        let specificity :=
          if matchesKey && !matchesParent then rule.1.key.specificity + 1
          else rule.1.key.specificity
        pushCandidate best ⟨index, specificity, rule.1.context.specificity, rule.2, rule.1.state⟩)
    none

def resolveKeyIn (key : PermissionKey) (context : PermissionContext) : Option PermissionState :=
  (set.bestKeyCandidate key context).map (·.state)

def resolveScopedKeyIn (parent key : PermissionKey)
    (context : PermissionContext) : Option PermissionState :=
  (set.bestScopedKeyCandidate parent key context).map (·.state)

end PermissionSet

inductive PermissionExpr where
  | key (key : PermissionKey)
  | scopedKey (parent key : PermissionKey)
  | all (children : List PermissionExpr)
  | any (children : List PermissionExpr)

/-- The operator `&` on expressions, which extends conjunctions. -/
def PermissionExpr.and : PermissionExpr → PermissionExpr → PermissionExpr
  | all left, all right => all (left ++ right)
  | all left, right => all (left ++ [right])
  | left, all right => all (left :: right)
  | left, right => all [left, right]

/-- The operator `|` on expressions, which extends disjunctions. -/
def PermissionExpr.or : PermissionExpr → PermissionExpr → PermissionExpr
  | any left, any right => any (left ++ right)
  | any left, right => any (left ++ [right])
  | left, any right => any (left :: right)
  | left, right => any [left, right]

namespace PermissionSet

mutual

def resolveIn (set : PermissionSet) (context : PermissionContext) :
    PermissionExpr → Option PermissionState
  | .key key => set.resolveKeyIn key context
  | .scopedKey parent key => set.resolveScopedKeyIn parent key context
  | .all children => resolveAll set context false children
  | .any children => if children.isEmpty then some .deny else resolveAny set context false children

/-- The loop of `resolve_all`, which starts at no children with a permission. -/
def resolveAll (set : PermissionSet) (context : PermissionContext) (sawUnset : Bool) :
    List PermissionExpr → Option PermissionState
  | [] => if sawUnset then none else some .allow
  | child :: children =>
    match resolveIn set context child with
    | some .allow => resolveAll set context sawUnset children
    | some .deny => some .deny
    | none => resolveAll set context true children

/-- The loop of `resolve_any` over at least one child. -/
def resolveAny (set : PermissionSet) (context : PermissionContext) (sawUnset : Bool) :
    List PermissionExpr → Option PermissionState
  | [] => if sawUnset then none else some .deny
  | child :: children =>
    match resolveIn set context child with
    | some .allow => some .allow
    | some .deny => resolveAny set context sawUnset children
    | none => resolveAny set context true children

end

variable (set : PermissionSet) (context : PermissionContext)

theorem resolveAny_eq_allow (sawUnset : Bool) (children : List PermissionExpr) :
    set.resolveAny context sawUnset children = some .allow ↔
      ∃ child ∈ children, set.resolveIn context child = some .allow := by
  induction children generalizing sawUnset with
  | nil => cases sawUnset <;> simp [resolveAny]
  | cons child children ih =>
    rw [resolveAny]
    split <;> simp [*]

theorem resolveIn_any (children : List PermissionExpr) :
    set.resolveIn context (.any children) = some .allow ↔
      ∃ child ∈ children, set.resolveIn context child = some .allow := by
  rw [resolveIn]
  cases children with
  | nil => simp
  | cons child children => simp [resolveAny_eq_allow]

theorem resolveIn_or (left right : PermissionExpr) :
    set.resolveIn context (left.or right) = some .allow ↔
      set.resolveIn context left = some .allow ∨ set.resolveIn context right = some .allow := by
  cases left <;> cases right <;> simp [PermissionExpr.or, resolveIn_any, or_and_right, exists_or]

end PermissionSet

end Steel
