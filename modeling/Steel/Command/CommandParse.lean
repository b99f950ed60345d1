import Steel.Command.CommandDispatcher

/-! # Parsing commands

A parse walks from node to node and keeps what it consumed in a context.
-/

namespace Steel

variable {S : Type} {R : CommandRuntime S}

/-- A node and the range of the input it consumed. -/
structure ParsedCommandNode where
  node : NodeId
  range : StringRange

/-- A parsed argument with its name. -/
structure ParsedArgument (R : CommandRuntime S) where
  name : List Char
  range : StringRange
  value : R.ArgumentValue

/-- The part of a command between two redirects. -/
structure ParsedCommandContext (R : CommandRuntime S) where
  source : S
  root : NodeId
  arguments : List (ParsedArgument R)
  executor : Option R.Executor
  nodes : List ParsedCommandNode
  range : StringRange
  child : Option (ParsedCommandContext R)
  modifier : Option R.Modifier
  forks : Bool

namespace ParsedCommandContext

def new (source : S) (root : NodeId) (start : ℕ) : ParsedCommandContext R where
  source := source
  root := root
  arguments := []
  executor := none
  nodes := []
  range := .atPosition start
  child := none
  modifier := none
  forks := false

variable (context : ParsedCommandContext R)

def setExecutor (executor : Option R.Executor) : ParsedCommandContext R :=
  { context with executor := executor }

def withNode (node : NodeId) (range : StringRange)
    (redirect : Option (CommandRedirect R)) : ParsedCommandContext R :=
  { context with
    nodes := context.nodes ++ [⟨node, range⟩]
    range := .encompassing context.range range
    modifier := redirect.bind (·.modifier)
    forks := redirect.any (·.forks) }

/-- An argument replaces an earlier one of the same name in its place. -/
def insertArgument (argument : ParsedArgument R) : List (ParsedArgument R) → List (ParsedArgument R)
  | [] => [argument]
  | existing :: arguments =>
    if existing.name = argument.name then argument :: arguments
    else existing :: insertArgument argument arguments

def withArgument (name : List Char) (range : StringRange)
    (value : R.ArgumentValue) : ParsedCommandContext R :=
  { context with arguments := insertArgument ⟨name, range, value⟩ context.arguments }

def setChild (context child : ParsedCommandContext R) : ParsedCommandContext R :=
  { context with child := some child }

end ParsedCommandContext

/-- A candidate node that failed. -/
structure ParseError (R : CommandRuntime S) where
  node : NodeId
  error : CommandSyntaxError R.ErrorKind

/-- The best branch of a parse, with the reader where it stopped. -/
structure ParseResults (R : CommandRuntime S) where
  context : ParsedCommandContext R
  reader : StringReader
  errors : List (ParseError R)

namespace CommandDispatcher

/-- The literal that is the next token of the input, or else all arguments. -/
def relevantChildren (d : CommandDispatcher R) (token : List Char) :
    List NodeId → List NodeId → Option (List NodeId)
  | [], arguments => some arguments
  | childId :: children, arguments => do
    let child ← d.nodes[childId.index]?
    match child.data with
    | .literal literal =>
      if literal = token then some [childId] else d.relevantChildren token children arguments
    | .argument _ _ => d.relevantChildren token children (arguments ++ [childId])
    | .root => d.relevantChildren token children arguments

variable (d : CommandDispatcher R)

def relevantNodes (parent : NodeId) (reader : StringReader) : Option (List NodeId) :=
  match d.node parent with
  | none => some []
  | some parent =>
    d.relevantChildren (reader.remaining.takeWhile (· ≠ ' ')) parent.children []

def parseNode (nodeId : NodeId) (reader : StringReader)
    (context : ParsedCommandContext R) : Option (Except (CommandSyntaxError R.ErrorKind)
      (StringReader × ParsedCommandContext R)) := do
  let node ← d.nodes[nodeId.index]?
  match node.data with
  | .root => none
  | .literal literal =>
    match reader.tryReadLiteral literal with
    | none => some (.error (reader.error (.literalIncorrect literal)))
    | some after => do
      let range ← StringRange.between reader.cursor after.cursor
      some (.ok (after, context.withNode nodeId range node.redirect))
  | .argument name argumentType =>
    match R.parse argumentType reader context.source with
    | .error error => some (.error error)
    | .ok (value, after) => do
      let range ← StringRange.between reader.cursor after.cursor
      some (.ok (after,
        (context.withArgument name range value).withNode nodeId range node.redirect))

def isBetterParse (candidate current : ParseResults R) : Bool :=
  if !candidate.reader.canRead && current.reader.canRead then true
  else if candidate.reader.canRead && !current.reader.canRead then false
  else candidate.errors.isEmpty && !current.errors.isEmpty

def bestParse (best : ParseResults R) (potentials : List (ParseResults R)) : ParseResults R :=
  potentials.foldl (fun best potential => if isBetterParse potential best then potential else best)
    best

def executorFor (node : CommandNode R) (source : S) : Option R.Executor :=
  node.executor.filter fun _ => node.executionRequirement.allows source

/-- What becomes of one candidate of `parse_nodes`: it is not allowed, it fails, it is one
of the branches, or it redirects and ends the search. -/
inductive Attempt (R : CommandRuntime S) where
  | skipped
  | failed (error : ParseError R)
  | potential (parse : ParseResults R)
  | redirected (parse : ParseResults R)

/-- The body of the loop of `parse_nodes`, where `recurse` parses what follows. -/
def attempt (recurse : NodeId → StringReader → ParsedCommandContext R → Option (ParseResults R))
    (original : StringReader) (soFar : ParsedCommandContext R) (childId : NodeId) :
    Option (Attempt R) := do
  let child ← d.nodes[childId.index]?
  if !child.requirement.allows soFar.source then some .skipped
  else match ← d.parseNode childId original soFar with
  | .error error => some (.failed ⟨childId, error⟩)
  | .ok (reader, context) =>
    if reader.canRead && reader.peek ≠ some ' ' then
      some (.failed ⟨childId, reader.error .expectedArgumentSeparator⟩)
    else
      let context := context.setExecutor (executorFor child context.source)
      match ← child.redirectTarget with
      | some target =>
        if reader.canReadLength 1 then
          let reader := reader.skip
          let parse ← recurse target reader (.new context.source target reader.cursor)
          some (.redirected ⟨context.setChild parse.context, parse.reader, parse.errors⟩)
        else some (.potential ⟨context, reader, []⟩)
      | none =>
        if reader.canReadLength 2 then
          let parse ← recurse childId reader.skip context
          some (.potential parse)
        else some (.potential ⟨context, reader, []⟩)

/-- The loop of `parse_nodes` over the candidates. -/
def parseChildren (d : CommandDispatcher R)
    (recurse : NodeId → StringReader → ParsedCommandContext R → Option (ParseResults R))
    (original : StringReader) (soFar : ParsedCommandContext R) :
    List NodeId → List (ParseError R) → List (ParseResults R) → Option (ParseResults R)
  | [], errors, [] => some ⟨soFar, original, errors⟩
  | [], _, best :: potentials => some (bestParse best potentials)
  | childId :: children, errors, potentials => do
    match ← d.attempt recurse original soFar childId with
    | .skipped => d.parseChildren recurse original soFar children errors potentials
    | .failed error =>
      d.parseChildren recurse original soFar children (errors ++ [error]) potentials
    | .potential parse =>
      d.parseChildren recurse original soFar children errors (potentials ++ [parse])
    | .redirected parse => some parse

/-- Parses below a node, with fuel for the depth of the recursion. -/
def parseNodes (d : CommandDispatcher R) :
    ℕ → NodeId → StringReader → ParsedCommandContext R → Option (ParseResults R)
  | 0, _, _, _ => none
  | fuel + 1, parent, original, soFar => do
    let children ← d.relevantNodes parent original
    d.parseChildren (d.parseNodes fuel) original soFar children [] []

def parseReader (fuel : ℕ) (reader : StringReader) (source : S) : Option (ParseResults R) :=
  d.parseNodes fuel d.root reader (.new source d.root reader.cursor)

def parse (fuel : ℕ) (input : List Char) (source : S) : Option (ParseResults R) :=
  d.parseReader fuel (.new input) source

end CommandDispatcher

/-- What a command or a modifier is called with. -/
structure CommandContext (R : CommandRuntime S) where
  source : S
  input : List Char
  root : NodeId
  arguments : List (ParsedArgument R)
  executor : Option R.Executor
  nodes : List ParsedCommandNode
  range : StringRange
  child : Option (CommandContext R)
  modifier : Option R.Modifier
  forks : Bool

def ParsedCommandContext.build (input : List Char) : ParsedCommandContext R → CommandContext R
  | ⟨source, root, arguments, executor, nodes, range, none, modifier, forks⟩ =>
    ⟨source, input, root, arguments, executor, nodes, range, none, modifier, forks⟩
  | ⟨source, root, arguments, executor, nodes, range, some child, modifier, forks⟩ =>
    ⟨source, input, root, arguments, executor, nodes, range, some (child.build input), modifier,
      forks⟩

/-- Redirect contexts followed by one that can be executed. -/
structure ContextChain (R : CommandRuntime S) where
  contexts : List (CommandContext R)
  position : ℕ

def CommandContext.flatten : CommandContext R → List (CommandContext R)
  | ⟨source, input, root, arguments, executor, nodes, range, none, modifier, forks⟩ =>
    [⟨source, input, root, arguments, executor, nodes, range, none, modifier, forks⟩]
  | ⟨source, input, root, arguments, executor, nodes, range, some child, modifier, forks⟩ =>
    ⟨source, input, root, arguments, executor, nodes, range, some child, modifier, forks⟩ ::
      child.flatten

def ContextChain.tryFlatten (root : CommandContext R) : Option (ContextChain R) :=
  if root.flatten.getLast?.all (·.executor.isNone) then none
  else some ⟨root.flatten, 0⟩

def CommandDispatcher.contextChain (d : CommandDispatcher R) (parse : ParseResults R) :
    Except (CommandSyntaxError R.ErrorKind) (ContextChain R) :=
  if parse.reader.canRead then
    match parse.errors with
    | [error] => throw error.error
    | _ =>
      throw (parse.reader.error
        (if parse.context.range.isEmpty then .unknownCommand else .unknownArgument))
  else if parse.context.root.dispatcher ≠ d.id then
    throw (parse.reader.error .unknownCommand)
  else
    match ContextChain.tryFlatten (parse.context.build parse.reader.input) with
    | some chain => pure chain
    | none => throw (parse.reader.error .unknownCommand)

end Steel
