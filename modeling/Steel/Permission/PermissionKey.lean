import Mathlib.Tactic.Common
import Steel.Utils.Identifier

/-! # Permission keys and contexts

A permission key is a dotted path that may end in a wildcard. A rule applies in the
contexts that its own context matches.
-/

namespace Steel

def stripPrefix (start text : List Char) : Option (List Char) :=
  if start.isPrefixOf text then some (text.drop start.length) else none

def stripSuffix (stop text : List Char) : Option (List Char) :=
  if stop.isSuffixOf text then some (text.take (text.length - stop.length)) else none

inductive PermissionKeyError where
  | empty
  | emptySegment
  | wildcardNotFinal
  | invalidWildcardSegment
  | invalidSegment
  deriving DecidableEq

def validatePermissionSegment (segment : List Char) : Except PermissionKeyError Unit :=
  if segment.all fun c => c.isLower || c.isDigit || c = '_' || c = '-' then pure ()
  else throw .invalidSegment

/-- A segment of a permission key that is no wildcard. -/
structure PermissionSegment where
  text : List Char
  ne_nil : text ≠ []
  valid : validatePermissionSegment text = .ok ()

def PermissionSegment.parse (value : List Char) : Except PermissionKeyError PermissionSegment :=
  if h : value = [] then throw .emptySegment
  else if '*' ∈ value then throw .invalidWildcardSegment
  else
    match hv : validatePermissionSegment value with
    | .error e => throw e
    | .ok () => pure ⟨value, h, hv⟩

/-- The loop of `PermissionKey::parse` over the segments. A wildcard is the last segment. -/
def validatePermissionSegments : List (List Char) → Except PermissionKeyError Unit
  | [] => pure ()
  | segment :: segments =>
    if segment = [] then throw .emptySegment
    else if segment = ['*'] then
      if segments ≠ [] then throw .wildcardNotFinal else validatePermissionSegments segments
    else if '*' ∈ segment then throw .invalidWildcardSegment
    else do
      validatePermissionSegment segment
      validatePermissionSegments segments

def validatePermissionKey (value : List Char) : Except PermissionKeyError Unit :=
  if value = [] then throw .empty else validatePermissionSegments (value.splitOn '.')

/-- A dotted permission key, which may end in a wildcard. -/
structure PermissionKey where
  text : List Char
  valid : validatePermissionKey text = .ok ()
  deriving DecidableEq

namespace PermissionKey

def parse (value : List Char) : Except PermissionKeyError PermissionKey :=
  match h : validatePermissionKey value with
  | .error e => throw e
  | .ok () => pure ⟨value, h⟩

/-- Appends a segment to a key that does not end in a wildcard. -/
def child (key : PermissionKey) (segment : PermissionSegment) :
    Except PermissionKeyError PermissionKey :=
  parse (key.text ++ '.' :: segment.text)

def isMatch (key other : PermissionKey) : Bool :=
  if key.text = ['*'] then true
  else
    match stripSuffix ['.', '*'] key.text with
    | none => key = other
    | some start => (stripPrefix start other.text).any fun rest => rest.head? = some '.'

def specificity (key : PermissionKey) : ℕ :=
  if key.text = ['*'] then 0
  else (((stripSuffix ['.', '*'] key.text).getD key.text).splitOn '.').length

def scopes (key other : PermissionKey) : Bool :=
  if key = other then true
  else (stripPrefix key.text other.text).any fun rest => rest.head? = some '.'

end PermissionKey

/-- Where a rule applies. -/
inductive PermissionRuleContext where
  | global
  | domain (domain : List Char)
  | world (world : Identifier)
  | custom (key value : List Char)
  | all (contexts : List PermissionRuleContext)

/-- Where a permission is checked. The custom contexts are keys with their values. -/
structure PermissionContext where
  domain : Option (List Char)
  world : Option Identifier
  customContexts : List (List Char × List Char)

namespace PermissionRuleContext

mutual

def isMatch (context : PermissionContext) : PermissionRuleContext → Bool
  | .global => true
  | .domain name => context.domain = some name
  | .world id => context.world = some id
  | .custom key value => (key, value) ∈ context.customContexts
  | .all contexts => isMatchAll context contexts

def isMatchAll (context : PermissionContext) : List PermissionRuleContext → Bool
  | [] => true
  | constraint :: constraints => isMatch context constraint && isMatchAll context constraints

end

mutual

def specificity : PermissionRuleContext → ℕ
  | .global => 0
  | .domain _ => 1
  | .custom _ _ => 1
  | .world _ => 2
  | .all contexts => specificitySum contexts

def specificitySum : List PermissionRuleContext → ℕ
  | [] => 0
  | context :: contexts => specificity context + specificitySum contexts

end

end PermissionRuleContext

end Steel
