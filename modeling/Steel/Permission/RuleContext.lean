import Mathlib.Data.Char
import Mathlib.Data.List.Lex
import Mathlib.Data.Prod.Lex
import Steel.Permission.PermissionKey

/-! # Chains of rule contexts

A chain holds where all its contexts hold. Chains are kept in one form: flat, without what another
context implies, and sorted.
-/

namespace Steel

inductive PermissionRuleContextError where
  | invalidDomain (domain : List Char)
  | invalidValue (value : List Char)
  | duplicateDomain
  | duplicateWorld
  | duplicateCustomKey (key : List Char)
  | worldDomainMismatch (domain worldDomain : List Char)
  deriving DecidableEq

def isWhitespace (c : Char) : Bool :=
  (0x9 ≤ c.toNat && c.toNat ≤ 0xd) || c.toNat = 0x20 || c.toNat = 0x85 || c.toNat = 0xa0 ||
    c.toNat = 0x1680 || (0x2000 ≤ c.toNat && c.toNat ≤ 0x200a) || c.toNat = 0x2028 ||
    c.toNat = 0x2029 || c.toNat = 0x202f || c.toNat = 0x205f || c.toNat = 0x3000

def isReserved (c : Char) : Bool := isWhitespace c || c ∈ ['{', '}', ',', '=']

namespace Identifier

def validNamespaceChar (c : Char) : Bool :=
  c = '_' || c = '-' || c.isLower || c.isDigit || c = '.'

def validChar (c : Char) : Bool := validNamespaceChar c || c = '/'

def validateNamespace (nameSpace : List Char) : Bool :=
  nameSpace ≠ ['.', '.'] && nameSpace.all validNamespaceChar

def validatePath (path : List Char) : Bool := path.all validChar

end Identifier

namespace PermissionRuleContext

def ofDomain (value : List Char) : Except PermissionRuleContextError PermissionRuleContext :=
  if value = [] || !Identifier.validateNamespace value then .error (.invalidDomain value)
  else .ok (.domain value)

def ofCustom (key value : List Char) : Except PermissionRuleContextError PermissionRuleContext :=
  if value = [] || value.any isReserved then .error (.invalidValue value)
  else .ok (.custom key value)

mutual

def beq : PermissionRuleContext → PermissionRuleContext → Bool
  | .global, .global => true
  | .domain name, .domain name' => name = name'
  | .world id, .world id' => id = id'
  | .custom key value, .custom key' value' => key = key' && value = value'
  | .all contexts, .all contexts' => beqAll contexts contexts'
  | _, _ => false

def beqAll : List PermissionRuleContext → List PermissionRuleContext → Bool
  | [], [] => true
  | context :: contexts, context' :: contexts' => beq context context' && beqAll contexts contexts'
  | _, _ => false

end

instance : BEq PermissionRuleContext := ⟨beq⟩

/-- The loop of `push_unique_context`: the answer at the first context that binds the same key. -/
def findBinding (context : PermissionRuleContext) :
    List PermissionRuleContext → Option (Except PermissionRuleContextError Unit)
  | [] => none
  | existing :: contexts =>
    match context, existing with
    | .domain value, .domain current =>
      some (if value = current then .ok () else .error .duplicateDomain)
    | .world value, .world current =>
      some (if value = current then .ok () else .error .duplicateWorld)
    | .custom key value, .custom currentKey currentValue =>
      if key = currentKey then
        some (if value = currentValue then .ok () else .error (.duplicateCustomKey key))
      else findBinding context contexts
    | _, _ => findBinding context contexts

def pushUniqueContext (contexts : List PermissionRuleContext) (context : PermissionRuleContext) :
    Except PermissionRuleContextError (List PermissionRuleContext) :=
  match findBinding context contexts with
  | some (.error e) => .error e
  | some (.ok ()) => .ok contexts
  | none => .ok (if contexts.contains context then contexts else contexts ++ [context])

/-- One round of the loop of `PermissionRuleContext::all`. -/
def flattenContext (flattened : List PermissionRuleContext) :
    PermissionRuleContext → Except PermissionRuleContextError (List PermissionRuleContext)
  | .global => .ok flattened
  | .all contexts => contexts.foldlM pushUniqueContext flattened
  | context => pushUniqueContext flattened context

def domain? : PermissionRuleContext → Option (List Char)
  | .domain value => some value
  | _ => none

def worldDomain? : PermissionRuleContext → Option (List Char)
  | .world id => some id.nameSpace.toList
  | _ => none

def normalizeWorldDomain (contexts : List PermissionRuleContext) :
    Except PermissionRuleContextError (List PermissionRuleContext) :=
  match contexts.findSome? domain?, contexts.findSome? worldDomain? with
  | some value, some worldValue =>
    if value ≠ worldValue then .error (.worldDomainMismatch value worldValue)
    else .ok (contexts.filter fun context => (domain? context).isNone)
  | _, _ => .ok contexts

def ruleContextRank : PermissionRuleContext → ℕ
  | .domain _ => 0
  | .world _ => 1
  | .custom _ _ => 2
  | .global => 3
  | .all _ => 4

def compareRuleContexts (left right : PermissionRuleContext) : Ordering :=
  (compare (ruleContextRank left) (ruleContextRank right)).then
    (match left, right with
    | .domain left, .domain right => compare left right
    | .world left, .world right =>
      (compare left.nameSpace.toList right.nameSpace.toList).then
        (compare left.path.toList right.path.toList)
    | .custom leftKey leftValue, .custom rightKey rightValue =>
      (compare leftKey rightKey).then (compare leftValue rightValue)
    | _, _ => .eq)

def ofContexts : List PermissionRuleContext → PermissionRuleContext
  | [] => .global
  | [context] => context
  | contexts => .all contexts

/-- `PermissionRuleContext::all`. -/
def ofAll (contexts : List PermissionRuleContext) :
    Except PermissionRuleContextError PermissionRuleContext := do
  let flattened ← contexts.foldlM flattenContext []
  let flattened ← normalizeWorldDomain flattened
  return ofContexts (flattened.mergeSort fun left right => (compareRuleContexts left right).isLE)

end PermissionRuleContext

namespace PermissionContext

def global : PermissionContext := { domain := none, world := none, customContexts := [] }

def forWorld (world : Identifier) : PermissionContext :=
  { domain := some world.nameSpace.toList, world := some world, customContexts := [] }

def addCustomContext (context : PermissionContext) (key value : List Char) :
    Except PermissionRuleContextError PermissionContext := do
  let _ ← PermissionRuleContext.ofCustom key value
  match context.customContexts.find? (·.1 = key) with
  | some (_, existingValue) =>
    if existingValue = value then return context else throw (.duplicateCustomKey key)
  | none => return { context with customContexts := context.customContexts ++ [(key, value)] }

mutual

def appendRuleContext (context : PermissionContext) :
    PermissionRuleContext → Except PermissionRuleContextError PermissionContext
  | .global => return context
  | .domain domain => return { context with domain := some domain }
  | .world world =>
    return { context with domain := some world.nameSpace.toList, world := some world }
  | .custom key value => context.addCustomContext key value
  | .all contexts => appendRuleContexts context contexts

def appendRuleContexts (context : PermissionContext) :
    List PermissionRuleContext → Except PermissionRuleContextError PermissionContext
  | [] => return context
  | ruleContext :: ruleContexts => do
    let context ← appendRuleContext context ruleContext
    appendRuleContexts context ruleContexts

end

def fromRuleContext (ruleContext : PermissionRuleContext) :
    Except PermissionRuleContextError PermissionContext :=
  global.appendRuleContext ruleContext

end PermissionContext

end Steel
