import Steel.Command.StringReader

/-! # The command dispatcher

A dispatcher owns the nodes of its commands in an arena. A tree is registered by merging it into the
nodes below the root. Requirements and redirect modifiers are shared objects: two nodes agree on one
only if it is the same object.
-/

namespace Steel

section

/-- What the nodes of a dispatcher hold: argument parsers with the values they read,
executors, modifiers and the predicates of requirements. -/
structure CommandRuntime (S : Type) where
  Argument : Type
  ArgumentValue : Type
  Executor : Type
  Modifier : Type
  Predicate : Type
  ErrorKind : Type
  ProtocolArgument : Type
  [modifierEq : DecidableEq Modifier]
  [predicateEq : DecidableEq Predicate]
  /-- Equality of argument parsers. -/
  sameArgument : Argument → Argument → Bool
  /-- Reads one argument and leaves the reader where it stops. -/
  parse : Argument → StringReader → S →
    Except (CommandSyntaxError ErrorKind) (ArgumentValue × StringReader)
  holds : Predicate → S → Bool
  protocolArgument : Argument → ProtocolArgument

attribute [instance] CommandRuntime.modifierEq CommandRuntime.predicateEq

/-- A node of one dispatcher. -/
structure NodeId where
  dispatcher : ℕ
  index : ℕ
  deriving DecidableEq

/-- A node that exists, or the root of the tree being registered. -/
inductive CommandRedirectTarget where
  | node (target : NodeId)
  | commandRoot
  deriving DecidableEq

inductive NodeKind where
  | root
  | literal
  | argument
  deriving DecidableEq

inductive CommandRequirementKind where
  | authorization
  | context
  deriving DecidableEq

inductive RegistrationErrorKind where
  | argumentRoot
  | nodeKindCollision (name : List Char) (existing incoming : NodeKind)
  | argumentTypeCollision (name : List Char)
  | requirementCollision (name : List Char)
  | redirectCollision (name : List Char)
  | redirectWithChildren (name : List Char)
  | invalidRedirectTarget (target : NodeId)
  deriving DecidableEq

variable {S : Type} {R : CommandRuntime S}

structure CommandRequirement (R : CommandRuntime S) where
  predicate : Option R.Predicate
  kind : Option CommandRequirementKind

namespace CommandRequirement

def allowAll : CommandRequirement R := ⟨none, none⟩

def authorization (predicate : R.Predicate) : CommandRequirement R :=
  ⟨some predicate, some .authorization⟩

def contextual (predicate : R.Predicate) : CommandRequirement R :=
  ⟨some predicate, some .context⟩

variable (requirement : CommandRequirement R)

def allows (source : S) : Bool :=
  requirement.predicate.all fun predicate => R.holds predicate source

def isAuthorization : Bool :=
  requirement.kind = some .authorization

def isCompatibleWith (requirement other : CommandRequirement R) : Bool :=
  requirement.kind = other.kind ∧ requirement.predicate = other.predicate

end CommandRequirement

structure CommandRedirect (R : CommandRuntime S) where
  target : CommandRedirectTarget
  modifier : Option R.Modifier
  forks : Bool

namespace CommandRedirect

def resolveCommandRoot (redirect : CommandRedirect R) (commandRoot : NodeId) : CommandRedirect R :=
  if redirect.target = .commandRoot then { redirect with target := .node commandRoot }
  else redirect

def isCompatibleWith (redirect other : CommandRedirect R) : Bool :=
  redirect.target = other.target ∧ redirect.forks = other.forks ∧
    redirect.modifier = other.modifier

end CommandRedirect

def redirectsAreCompatible : Option (CommandRedirect R) → Option (CommandRedirect R) → Bool
  | none, none => true
  | some first, some second => first.isCompatibleWith second
  | none, some _ => false
  | some _, none => false

inductive CommandNodeData (R : CommandRuntime S) where
  | root
  | literal (literal : List Char)
  | argument (name : List Char) (argumentType : R.Argument)

namespace CommandNodeData

def name : CommandNodeData R → List Char
  | root => []
  | literal name => name
  | argument name _ => name

def kind : CommandNodeData R → NodeKind
  | root => .root
  | literal _ => .literal
  | argument _ _ => .argument

def collisionWith (data other : CommandNodeData R) : Option RegistrationErrorKind :=
  match data, other with
  | literal first, literal second =>
    if first = second then none
    else some (.nodeKindCollision other.name data.kind other.kind)
  | argument firstName firstType, argument secondName secondType =>
    if firstName = secondName then
      if R.sameArgument firstType secondType then none
      else some (.argumentTypeCollision other.name)
    else some (.nodeKindCollision other.name data.kind other.kind)
  | _, _ => some (.nodeKindCollision other.name data.kind other.kind)

end CommandNodeData

/-- A literal or an argument with its descendants. A builder that has been normalized has
the same fields. -/
inductive CommandNodeBuilder (R : CommandRuntime S) where
  | mk (data : CommandNodeData R) (kind_ne : data.kind ≠ .root)
      (children : List (CommandNodeBuilder R)) (executor : Option R.Executor)
      (requirement executionRequirement : CommandRequirement R)
      (redirect : Option (CommandRedirect R))

abbrev UnregisteredCommandNode (R : CommandRuntime S) := CommandNodeBuilder R

namespace CommandNodeBuilder

def data : CommandNodeBuilder R → CommandNodeData R
  | mk data _ _ _ _ _ _ => data

def children : CommandNodeBuilder R → List (CommandNodeBuilder R)
  | mk _ _ children _ _ _ _ => children

def executor : CommandNodeBuilder R → Option R.Executor
  | mk _ _ _ executor _ _ _ => executor

def requirement : CommandNodeBuilder R → CommandRequirement R
  | mk _ _ _ _ requirement _ _ => requirement

def executionRequirement : CommandNodeBuilder R → CommandRequirement R
  | mk _ _ _ _ _ executionRequirement _ => executionRequirement

def redirect : CommandNodeBuilder R → Option (CommandRedirect R)
  | mk _ _ _ _ _ _ redirect => redirect

theorem kind_ne : ∀ node : CommandNodeBuilder R, node.data.kind ≠ .root
  | mk _ kind_ne _ _ _ _ _ => kind_ne

def name (node : CommandNodeBuilder R) : List Char := node.data.name

def kind (node : CommandNodeBuilder R) : NodeKind := node.data.kind

end CommandNodeBuilder

/-- The checks of `validate_compatible`, which registered and unregistered nodes share. -/
def validateCompatible (data : CommandNodeData R)
    (requirement executionRequirement : CommandRequirement R)
    (redirect : Option (CommandRedirect R)) (incoming : UnregisteredCommandNode R) :
    Except RegistrationErrorKind Unit :=
  match data.collisionWith incoming.data with
  | some kind => throw kind
  | none =>
    if !requirement.isCompatibleWith incoming.requirement then
      throw (.requirementCollision incoming.name)
    else if !executionRequirement.isCompatibleWith incoming.executionRequirement then
      throw (.requirementCollision incoming.name)
    else if !redirectsAreCompatible redirect incoming.redirect then
      throw (.redirectCollision incoming.name)
    else pure ()

/-- Merges into the first node of the same name, or adds a new last node. -/
def mergeOrPushWith (merge : UnregisteredCommandNode R →
      Except RegistrationErrorKind (UnregisteredCommandNode R))
    (incoming : UnregisteredCommandNode R) : List (UnregisteredCommandNode R) →
      Except RegistrationErrorKind (List (UnregisteredCommandNode R))
  | [] => pure [incoming]
  | node :: nodes =>
    if node.name = incoming.name then do
      let node ← merge node
      pure (node :: nodes)
    else do
      let nodes ← mergeOrPushWith merge incoming nodes
      pure (node :: nodes)

namespace CommandNodeBuilder

mutual

/-- Adds an incoming node to a compatible one. Its executor wins. -/
def merge (node : UnregisteredCommandNode R) :
    UnregisteredCommandNode R → Except RegistrationErrorKind (UnregisteredCommandNode R)
  | mk data kind_ne children executor requirement executionRequirement redirect => do
    validateCompatible node.data node.requirement node.executionRequirement node.redirect
      (mk data kind_ne children executor requirement executionRequirement redirect)
    let children ← mergeChildren node.children children
    pure (mk node.data node.kind_ne children (executor.or node.executor) node.requirement
      node.executionRequirement node.redirect)

def mergeChildren (nodes : List (UnregisteredCommandNode R)) : List (UnregisteredCommandNode R) →
      Except RegistrationErrorKind (List (UnregisteredCommandNode R))
  | [] => pure nodes
  | child :: children => do
    let nodes ← mergeOrPushWith (fun node => merge node child) child nodes
    mergeChildren nodes children

end

def mergeOrPush (nodes : List (UnregisteredCommandNode R)) (incoming : UnregisteredCommandNode R) :
    Except RegistrationErrorKind (List (UnregisteredCommandNode R)) :=
  mergeOrPushWith (fun node => node.merge incoming) incoming nodes

mutual

/-- Merges children of the same name. A node that redirects has no children. -/
def normalize : CommandNodeBuilder R → Except RegistrationErrorKind (UnregisteredCommandNode R)
  | mk data kind_ne children executor requirement executionRequirement redirect => do
    let children ← normalizeChildren children []
    if redirect.isSome ∧ ¬ children.isEmpty then
      throw (.redirectWithChildren data.name)
    else
      pure (mk data kind_ne children executor requirement executionRequirement redirect)

def normalizeChildren : List (CommandNodeBuilder R) → List (UnregisteredCommandNode R) →
    Except RegistrationErrorKind (List (UnregisteredCommandNode R))
  | [], nodes => pure nodes
  | child :: children, nodes => do
    let child ← child.normalize
    let nodes ← mergeOrPush nodes child
    normalizeChildren children nodes

end

mutual

def resolveCommandRoot (commandRoot : NodeId) :
    UnregisteredCommandNode R → UnregisteredCommandNode R
  | mk data kind_ne children executor requirement executionRequirement redirect =>
    mk data kind_ne (resolveChildren commandRoot children) executor requirement
      executionRequirement (redirect.map (·.resolveCommandRoot commandRoot))

def resolveChildren (commandRoot : NodeId) :
    List (UnregisteredCommandNode R) → List (UnregisteredCommandNode R)
  | [] => []
  | child :: children =>
    resolveCommandRoot commandRoot child :: resolveChildren commandRoot children

end

end CommandNodeBuilder

/-- A node in the arena of a dispatcher. -/
structure CommandNode (R : CommandRuntime S) where
  data : CommandNodeData R
  children : List NodeId
  executor : Option R.Executor
  requirement : CommandRequirement R
  executionRequirement : CommandRequirement R
  redirect : Option (CommandRedirect R)

namespace CommandNode

def root : CommandNode R := ⟨.root, [], none, .allowAll, .allowAll, none⟩

variable (node : CommandNode R)

def name : List Char := node.data.name

def kind : NodeKind := node.data.kind

def canExecute (source : S) : Bool :=
  node.executor.isSome && node.requirement.allows source &&
    node.executionRequirement.allows source

/-- The target of the redirect. Registered redirects have concrete targets, so another
target is unreachable. -/
def redirectTarget : Option (Option NodeId) :=
  match node.redirect with
  | none => some none
  | some redirect =>
    match redirect.target with
    | .node target => some (some target)
    | .commandRoot => none

def argumentType (node : CommandNode R) : Option R.Argument :=
  match node.data with
  | .argument _ argumentType => some argumentType
  | .root => none
  | .literal _ => none

def allows (source : S) : Bool := node.requirement.allows source

def isRestricted : Bool :=
  node.requirement.isAuthorization || node.executionRequirement.isAuthorization

end CommandNode

end

variable {S : Type} {R : CommandRuntime S}

structure CommandDispatcher (R : CommandRuntime S) where
  id : ℕ
  nodes : List (CommandNode R)

namespace CommandDispatcher

def new (id : ℕ) : CommandDispatcher R := ⟨id, [.root]⟩

variable (d : CommandDispatcher R)

def root : NodeId := ⟨d.id, 0⟩

def node (id : NodeId) : Option (CommandNode R) :=
  if id.dispatcher ≠ d.id then none else d.nodes[id.index]?

def children (id : NodeId) : Option (List NodeId) :=
  (d.node id).map (·.children)

def findChild (parent : NodeId) (name : List Char) : Option NodeId := do
  let parent ← d.node parent
  parent.children.find? fun child => d.nodes[child.index]?.any (·.name = name)

mutual

def validateMerge (d : CommandDispatcher R) (parent : NodeId) :
    UnregisteredCommandNode R → Except RegistrationErrorKind Unit
  | .mk data kind_ne children executor requirement executionRequirement redirect =>
    match d.findChild parent data.name with
    | none => pure ()
    | some existingId =>
      match d.nodes[existingId.index]? with
      | none => pure ()
      | some existing => do
        validateCompatible existing.data existing.requirement existing.executionRequirement
          existing.redirect
          (.mk data kind_ne children executor requirement executionRequirement redirect)
        d.validateMerges existingId children

def validateMerges (d : CommandDispatcher R) (parent : NodeId) :
    List (UnregisteredCommandNode R) → Except RegistrationErrorKind Unit
  | [] => pure ()
  | child :: children => do
    d.validateMerge parent child
    d.validateMerges parent children

end

/-- A redirect to an existing node stays inside the dispatcher. -/
def validateRedirect : Option (CommandRedirect R) → Except RegistrationErrorKind Unit
  | some ⟨.node target, _, _⟩ =>
    if (d.node target).isNone then throw (.invalidRedirectTarget target) else pure ()
  | _ => pure ()

mutual

def validateRedirects (d : CommandDispatcher R) :
    UnregisteredCommandNode R → Except RegistrationErrorKind Unit
  | .mk _ _ children _ _ _ redirect => do
    d.validateRedirect redirect
    d.validateRedirectsAll children

def validateRedirectsAll (d : CommandDispatcher R) :
    List (UnregisteredCommandNode R) → Except RegistrationErrorKind Unit
  | [] => pure ()
  | child :: children => do
    d.validateRedirects child
    d.validateRedirectsAll children

end

/-- Replaces the executor of a node if the incoming node has one. -/
def replaceExecutor (id : NodeId) (executor : Option R.Executor) : CommandDispatcher R :=
  { d with nodes := d.nodes.modify id.index fun node =>
      { node with executor := executor.or node.executor } }

def pushNode (parent : NodeId) (node : CommandNode R) : CommandDispatcher R :=
  { d with nodes := (d.nodes ++ [node]).modify parent.index fun parent =>
      { parent with children := parent.children ++ [⟨d.id, d.nodes.length⟩] } }

mutual

def applyMerge (d : CommandDispatcher R) (parent : NodeId) :
    UnregisteredCommandNode R → CommandDispatcher R × NodeId
  | .mk data _ children executor requirement executionRequirement redirect =>
    match d.findChild parent data.name with
    | some existingId =>
      ((d.replaceExecutor existingId executor).applyMerges existingId children, existingId)
    | none =>
      let nodeId : NodeId := ⟨d.id, d.nodes.length⟩
      let node : CommandNode R :=
        ⟨data, [], executor, requirement, executionRequirement, redirect⟩
      ((d.pushNode parent node).applyMerges nodeId children, nodeId)

def applyMerges (d : CommandDispatcher R) (parent : NodeId) :
    List (UnregisteredCommandNode R) → CommandDispatcher R
  | [] => d
  | child :: children => (d.applyMerge parent child).1.applyMerges parent children

end

/-- Everything that `register` checks, with the tree to be merged. -/
def checked (builder : CommandNodeBuilder R) :
    Except RegistrationErrorKind (UnregisteredCommandNode R) := do
  let node ← builder.normalize
  if node.kind ≠ .literal then throw .argumentRoot
  d.validateRedirects node
  let commandRoot := (d.findChild d.root node.name).getD ⟨d.id, d.nodes.length⟩
  let node := node.resolveCommandRoot commandRoot
  d.validateMerge d.root node
  pure node

def register (builder : CommandNodeBuilder R) :
    CommandDispatcher R × Except RegistrationErrorKind NodeId :=
  match d.checked builder with
  | .error kind => (d, .error kind)
  | .ok node => ((d.applyMerge d.root node).1, .ok (d.applyMerge d.root node).2)

/-- The dispatchers that successful registrations build. -/
inductive Registered : CommandDispatcher R → Prop where
  | new (id : ℕ) : Registered (new id)
  | register {d d' : CommandDispatcher R} {builder : CommandNodeBuilder R} {node : NodeId} :
      Registered d → d.register builder = (d', .ok node) → Registered d'

/-- The dispatchers that any registrations build. -/
inductive Called : CommandDispatcher R → Prop where
  | new (id : ℕ) : Called (new id)
  | register {d : CommandDispatcher R} (builder : CommandNodeBuilder R) :
      Called d → Called (d.register builder).1

end CommandDispatcher

end Steel
