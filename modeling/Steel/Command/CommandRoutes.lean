import Mathlib.Data.List.Chain
import Steel.Command.CommandGraph
import Steel.Command.CommandParse

/-! # The routes of parsed commands

Every context of a parse is a walk from its root along children that the source may use, and it
holds the executor of its last node.
-/

namespace Steel

open List Option

variable {S : Type} {R : CommandRuntime S} {d : CommandDispatcher R} {source : S}

/-- The second node is a literal or an argument below the first that the source may use. -/
def CommandDispatcher.Step (d : CommandDispatcher R) (source : S) (a b : NodeId) : Prop :=
  ∃ parent child, d.node a = some parent ∧ b ∈ parent.children ∧ d.node b = some child ∧
    child.kind ≠ .root ∧ child.requirement.allows source = true

def CommandDispatcher.executorAt (d : CommandDispatcher R) (source : S) (id : NodeId) :
    Option R.Executor :=
  (d.node id).bind fun node => executorFor node source

/-- The nodes from a root on are a walk, and the executor is that of the last one. -/
structure CommandDispatcher.Walk (d : CommandDispatcher R) (source : S) (root : NodeId)
    (nodes : List NodeId) (executor : Option R.Executor) : Prop where
  steps : (root :: nodes).IsChain (d.Step source)
  executor : executor = nodes.getLast?.bind (d.executorAt source)

namespace CommandDispatcher

theorem walk_nil (root : NodeId) : d.Walk source root [] none := ⟨by simp, rfl⟩

theorem Walk.extend {root : NodeId} {nodes : List NodeId} {executor : Option R.Executor}
    (h : d.Walk source root nodes executor) {next : NodeId} {node : CommandNode R}
    (hstep : ∀ last ∈ (root :: nodes).getLast?, d.Step source last next)
    (hnode : d.node next = some node) :
    d.Walk source root (nodes ++ [next]) (executorFor node source) where
  steps := by
    rw [← cons_append, isChain_append]
    refine ⟨h.steps, by simp, ?_⟩
    intro last hlast b hb
    obtain rfl : next = b := by simpa using hb
    exact hstep last hlast
  executor := by simp [executorAt, hnode]

end CommandDispatcher

namespace ParsedCommandContext

def nodeIds (context : ParsedCommandContext R) : List NodeId := context.nodes.map (·.node)

/-- A context that has consumed a walk and has not been redirected. -/
structure Open (d : CommandDispatcher R) (source : S) (context : ParsedCommandContext R) :
    Prop where
  source_eq : context.source = source
  walk : d.Walk source context.root context.nodeIds context.executor
  child : context.child = none

theorem open_new (root : NodeId) (start : ℕ) :
    (new source root start : ParsedCommandContext R).Open d source :=
  ⟨rfl, CommandDispatcher.walk_nil root, rfl⟩

/-- A context whose redirects lead from its last node to the root of its child. -/
inductive Follows (d : CommandDispatcher R) (source : S) : ParsedCommandContext R → Prop where
  | ends {context : ParsedCommandContext R} : context.Open d source → Follows d source context
  | redirects {context child : ParsedCommandContext R} {last : NodeId} {node : CommandNode R} :
      context.Open d source → context.nodeIds.getLast? = some last →
      d.node last = some node → node.redirectTarget = some (some child.root) →
      Follows d source child → Follows d source (context.setChild child)

end ParsedCommandContext

namespace CommandDispatcher

open ParsedCommandContext

def Continues (d : CommandDispatcher R) (source : S) (root : NodeId) (parse : ParseResults R) :
    Prop :=
  parse.context.root = root ∧ parse.context.Follows d source

theorem relevantChildren_subset {token : List Char} {children arguments relevant : List NodeId}
    (h : d.relevantChildren token children arguments = some relevant) :
    relevant ⊆ arguments ++ children := by
  induction children generalizing arguments with
  | nil =>
    obtain rfl : arguments = relevant := by simpa [relevantChildren] using h
    simp
  | cons childId children ih =>
    rw [relevantChildren, bind_eq_bind, bind_eq_some_iff] at h
    obtain ⟨child, -, h⟩ := h
    split at h
    · split at h
      · obtain rfl : [childId] = relevant := by simpa using h
        simp
      · intro id hid
        have := ih h hid
        simp only [mem_append, mem_cons] at this ⊢
        tauto
    · intro id hid
      have := ih h hid
      simp only [mem_append, mem_cons, not_mem_nil, or_false] at this ⊢
      tauto
    · intro id hid
      have := ih h hid
      simp only [mem_append, mem_cons] at this ⊢
      tauto

theorem relevantNodes_mem {parent : NodeId} {reader : StringReader} {relevant : List NodeId}
    (h : d.relevantNodes parent reader = some relevant) {child : NodeId} (hc : child ∈ relevant) :
    ∃ node, d.node parent = some node ∧ child ∈ node.children := by
  rw [relevantNodes] at h
  split at h
  · obtain rfl : [] = relevant := by simpa using h
    simp at hc
  · rename_i node hnode
    refine ⟨node, hnode, ?_⟩
    simpa using relevantChildren_subset h hc

theorem bestParse_mem (best : ParseResults R) (potentials : List (ParseResults R)) :
    bestParse best potentials ∈ best :: potentials := by
  induction potentials generalizing best with
  | nil => simp [bestParse]
  | cons potential potentials ih =>
    have hfold : bestParse best (potential :: potentials) =
        bestParse (if isBetterParse potential best then potential else best) potentials := rfl
    rw [hfold]
    split
    · exact mem_cons_of_mem _ (ih potential)
    · have hbest := ih best
      simp only [mem_cons] at hbest ⊢
      tauto

theorem parseNode_ok {nodeId : NodeId} {node : CommandNode R}
    (hnode : d.nodes[nodeId.index]? = some node) {reader after : StringReader}
    {context next : ParsedCommandContext R}
    (h : d.parseNode nodeId reader context = some (.ok (after, next))) :
    node.kind ≠ .root ∧ next.source = context.source ∧ next.root = context.root ∧
      next.child = context.child ∧ next.nodeIds = context.nodeIds ++ [nodeId] := by
  rw [parseNode, hnode, bind_eq_bind, bind_some] at h
  rw [CommandNode.kind]
  split at h
  · cases h
  · split at h
    · cases h
    · simp only [bind_eq_bind, bind_eq_some_iff, Option.some.injEq, Except.ok.injEq,
        Prod.mk.injEq] at h
      obtain ⟨range, -, rfl, rfl⟩ := h
      rename_i hdata _ _ _
      simp [hdata, CommandNodeData.kind, withNode, nodeIds]
  · split at h
    · cases h
    · simp only [bind_eq_bind, bind_eq_some_iff, Option.some.injEq, Except.ok.injEq,
        Prod.mk.injEq] at h
      obtain ⟨range, -, rfl, rfl⟩ := h
      rename_i hdata _ _ _ _
      simp [hdata, CommandNodeData.kind, withNode, withArgument, nodeIds]

def Parses (d : CommandDispatcher R) (source : S)
    (recurse : NodeId → StringReader → ParsedCommandContext R → Option (ParseResults R)) : Prop :=
  ∀ parent reader context parse, context.Open d source →
    (context.root :: context.nodeIds).getLast? = some parent →
    recurse parent reader context = some parse → d.Continues source context.root parse

variable {recurse : NodeId → StringReader → ParsedCommandContext R → Option (ParseResults R)}

variable {soFar : ParsedCommandContext R} {original : StringReader}

theorem attempt_continues (hd : d.WellFormed) (hrec : d.Parses source recurse) {parent : NodeId}
    (hopen : soFar.Open d source)
    (hlast : (soFar.root :: soFar.nodeIds).getLast? = some parent) {childId : NodeId}
    (hmem : ∃ node, d.node parent = some node ∧ childId ∈ node.children) {outcome : Attempt R}
    (h : d.attempt recurse original soFar childId = some outcome) :
    ∀ parse, outcome = .potential parse ∨ outcome = .redirected parse →
      d.Continues source soFar.root parse := by
  rw [attempt, bind_eq_bind, bind_eq_some_iff] at h
  obtain ⟨child, hchild, h⟩ := h
  split at h
  · obtain rfl : _ = outcome := by simpa using h
    simp
  rename_i hallows
  rw [bind_eq_bind, bind_eq_some_iff] at h
  obtain ⟨parsed, hparsed, h⟩ := h
  split at h
  · obtain rfl : _ = outcome := by simpa using h
    simp
  rename_i reader context
  split at h
  · obtain rfl : _ = outcome := by simpa using h
    simp
  obtain ⟨hkind, hsource, hroot, hnone, hnodes⟩ := parseNode_ok hchild hparsed
  obtain ⟨node, hnode, hmem⟩ := hmem
  have hid : d.node childId = some child := by
    rw [hd.child_node (child_of_node hnode hmem), hchild]
  have hstep : ∀ last ∈ (soFar.root :: soFar.nodeIds).getLast?, d.Step source last childId := by
    intro last hl
    obtain rfl : parent = last := by simpa [hlast] using hl
    refine ⟨node, child, hnode, hmem, hid, hkind, ?_⟩
    simpa [hopen.source_eq] using hallows
  have hnext : (context.setExecutor (executorFor child context.source)).Open d source := by
    refine ⟨hsource.trans hopen.source_eq, ?_, hnone.trans hopen.child⟩
    have hwalk := hopen.walk.extend hstep hid
    rw [← hnodes, ← hroot] at hwalk
    rw [hsource, hopen.source_eq]
    exact hwalk
  have hend : (context.root :: context.nodeIds).getLast? = some childId := by
    rw [hnodes, ← cons_append, List.getLast?_concat]
  rw [bind_eq_bind, bind_eq_some_iff] at h
  obtain ⟨redirect, hredirect, h⟩ := h
  split at h
  · rename_i target
    split at h
    · rw [bind_eq_bind, bind_eq_some_iff] at h
      obtain ⟨inner, hinner, h⟩ := h
      obtain rfl : _ = outcome := by simpa using h
      rw [hnext.source_eq] at hinner
      obtain ⟨htarget, hfollows⟩ := hrec target _ _ inner (open_new target _) rfl hinner
      rintro parse (heq | heq)
      · cases heq
      · cases heq
        refine ⟨hroot, .redirects hnext ?_ hid (hredirect.trans ?_) hfollows⟩
        · exact (congrArg List.getLast? hnodes).trans List.getLast?_concat
        · exact congrArg (fun id => some (some id)) htarget.symm
    · obtain rfl : _ = outcome := by simpa using h
      rintro parse (heq | heq)
      · cases heq
        exact ⟨hroot, .ends hnext⟩
      · cases heq
  · split at h
    · rw [bind_eq_bind, bind_eq_some_iff] at h
      obtain ⟨inner, hinner, h⟩ := h
      obtain rfl : _ = outcome := by simpa using h
      have hin := hrec childId _ _ inner hnext hend hinner
      rintro parse (heq | heq)
      · cases heq
        exact ⟨hin.1.trans hroot, hin.2⟩
      · cases heq
    · obtain rfl : _ = outcome := by simpa using h
      rintro parse (heq | heq)
      · cases heq
        exact ⟨hroot, .ends hnext⟩
      · cases heq

/-- What all attempts satisfy, and the context itself, the result of the loop satisfies. -/
theorem parseChildren_forall {P : ParseResults R → Prop}
    (hself : ∀ errors, P ⟨soFar, original, errors⟩) {children : List NodeId}
    (hchildren : ∀ child ∈ children, ∀ outcome,
      d.attempt recurse original soFar child = some outcome →
        ∀ parse, outcome = .potential parse ∨ outcome = .redirected parse → P parse)
    {errors : List (ParseError R)} {potentials : List (ParseResults R)}
    (hpotentials : ∀ parse ∈ potentials, P parse) {parse : ParseResults R}
    (h : d.parseChildren recurse original soFar children errors potentials = some parse) :
    P parse := by
  induction children generalizing errors potentials with
  | nil =>
    cases potentials with
    | nil =>
      obtain rfl : _ = parse := by simpa [parseChildren] using h
      exact hself errors
    | cons best potentials =>
      obtain rfl : _ = parse := by simpa [parseChildren] using h
      exact hpotentials _ (bestParse_mem best potentials)
  | cons childId children ih =>
    have hrest := fun child hchild => hchildren child (mem_cons_of_mem _ hchild)
    rw [parseChildren, bind_eq_bind, bind_eq_some_iff] at h
    obtain ⟨outcome, houtcome, h⟩ := h
    have hfirst := hchildren childId mem_cons_self outcome houtcome
    cases outcome with
    | skipped => exact ih hrest hpotentials h
    | failed error => exact ih hrest hpotentials h
    | potential found =>
      refine ih hrest ?_ h
      intro other hother
      rcases mem_append.mp hother with hother | hother
      · exact hpotentials other hother
      · obtain rfl : other = found := by simpa using hother
        exact hfirst other (.inl rfl)
    | redirected found =>
      obtain rfl : found = parse := by simpa using h
      exact hfirst found (.inr rfl)

theorem parseNodes_continues (hd : d.WellFormed) (fuel : ℕ) :
    d.Parses source (d.parseNodes fuel) := by
  induction fuel with
  | zero => intro parent reader context parse _ _ h; cases h
  | succ fuel ih =>
    intro parent reader context parse hopen hlast h
    rw [parseNodes, bind_eq_bind, bind_eq_some_iff] at h
    obtain ⟨children, hchildren, h⟩ := h
    exact parseChildren_forall (fun _ => ⟨rfl, .ends hopen⟩)
      (fun child hchild outcome houtcome => attempt_continues hd ih hopen hlast
        (relevantNodes_mem hchildren hchild) houtcome) (by simp) h

theorem parse_continues (hd : d.WellFormed) {fuel : ℕ} {input : List Char} {parse : ParseResults R}
    (h : d.parse fuel input source = some parse) : d.Continues source d.root parse :=
  parseNodes_continues hd fuel d.root (.new input) _ parse (open_new d.root _) rfl h

end CommandDispatcher

namespace CommandContext

def nodeIds (context : CommandContext R) : List NodeId := context.nodes.map (·.node)

def route (context : CommandContext R) : List NodeId := context.root :: context.nodeIds

/-- The last node of a context redirects to the root of the next context. -/
def Redirects (d : CommandDispatcher R) (context next : CommandContext R) : Prop :=
  ∃ last node, context.nodeIds.getLast? = some last ∧ d.node last = some node ∧
    node.redirectTarget = some (some next.root)

end CommandContext

/-- Contexts that form a route through the nodes of a dispatcher. -/
structure CommandDispatcher.Route (d : CommandDispatcher R) (source : S)
    (contexts : List (CommandContext R)) : Prop where
  walks : ∀ context ∈ contexts,
    d.Walk source context.root context.nodeIds context.executor
  redirects : contexts.IsChain (CommandContext.Redirects d)

namespace ParsedCommandContext

variable (input : List Char) (context : ParsedCommandContext R)

@[simp] theorem build_root : (context.build input).root = context.root := by
  cases context with
  | mk source root arguments executor nodes range child modifier forks =>
    cases child <;> rfl

@[simp] theorem build_executor : (context.build input).executor = context.executor := by
  cases context with
  | mk source root arguments executor nodes range child modifier forks =>
    cases child <;> rfl

@[simp] theorem build_nodeIds : (context.build input).nodeIds = context.nodeIds := by
  cases context with
  | mk source root arguments executor nodes range child modifier forks =>
    cases child <;> rfl

variable {context : ParsedCommandContext R}

theorem flatten_of_child_none {input : List Char}
    (h : context.child = none) : (context.build input).flatten = [context.build input] := by
  cases context with
  | mk source root arguments executor nodes range child modifier forks =>
    obtain rfl : child = none := h
    rfl

theorem flatten_setChild (context child : ParsedCommandContext R) :
    ((context.setChild child).build input).flatten =
      (context.setChild child).build input :: (child.build input).flatten := by
  cases context with
  | mk source root arguments executor nodes range old modifier forks => rfl

theorem Follows.route (h : context.Follows d source) (input : List Char) :
    (context.build input).flatten.head? = some (context.build input) ∧
      d.Route source (context.build input).flatten := by
  induction h with
  | ends hopen =>
    rw [flatten_of_child_none hopen.child]
    exact ⟨rfl, by simpa using hopen.walk, by simp⟩
  | @redirects context child last node hopen hlast hnode hredirect _ ih =>
    obtain ⟨hhead, hroute⟩ := ih
    rw [flatten_setChild]
    refine ⟨rfl, ?_, ?_⟩
    · intro other hother
      rcases mem_cons.mp hother with rfl | hother
      · simpa [setChild, nodeIds] using hopen.walk
      · exact hroute.walks other hother
    · rw [isChain_cons]
      refine ⟨?_, hroute.redirects⟩
      intro next hnext
      obtain rfl : child.build input = next := by simpa [hhead] using hnext
      refine ⟨last, node, ?_, hnode, by simpa using hredirect⟩
      simpa [setChild, nodeIds] using hlast

end ParsedCommandContext

variable {chain : ContextChain R}

theorem ContextChain.tryFlatten_eq_some {context : CommandContext R}
    (h : tryFlatten context = some chain) : chain.contexts = context.flatten ∧
      ∃ last executor, chain.contexts.getLast? = some last ∧ last.executor = some executor := by
  rw [tryFlatten] at h
  split at h
  · cases h
  · rename_i hsome
    obtain rfl : _ = chain := by simpa using h
    refine ⟨rfl, ?_⟩
    cases hlast : context.flatten.getLast? with
    | none => simp [hlast] at hsome
    | some last =>
      cases hexecutor : last.executor with
      | none => simp [hlast, hexecutor] at hsome
      | some executor => exact ⟨last, executor, rfl, hexecutor⟩

namespace CommandDispatcher

theorem contextChain_eq_ok {parse : ParseResults R} (h : d.contextChain parse = .ok chain) :
    ContextChain.tryFlatten (parse.context.build parse.reader.input) = some chain := by
  rw [contextChain] at h
  split at h
  · split at h <;> cases h
  · split at h
    · cases h
    · split at h
      · rename_i other hother
        obtain rfl : other = chain := by simpa [pure, Except.pure] using h
        exact hother
      · cases h

/-- A parsed command is a route from the root whose last context has an executor. -/
theorem contextChain_route (hd : d.WellFormed) {fuel : ℕ} {input : List Char}
    {parse : ParseResults R}
    (hp : d.parse fuel input source = some parse) (hc : d.contextChain parse = .ok chain) :
    chain.contexts.head?.map (·.root) = some d.root ∧ d.Route source chain.contexts ∧
      ∃ last executor, chain.contexts.getLast? = some last ∧ last.executor = some executor := by
  obtain ⟨hroot, hfollows⟩ := parse_continues hd hp
  obtain ⟨hcontexts, hlast⟩ := ContextChain.tryFlatten_eq_some (contextChain_eq_ok hc)
  obtain ⟨hhead, hroute⟩ := hfollows.route parse.reader.input
  rw [hcontexts]
  refine ⟨?_, hroute, hcontexts ▸ hlast⟩
  simp [hhead, hroot]

theorem Walk.allows {root : NodeId} {nodes : List NodeId} {executor : Option R.Executor}
    (h : d.Walk source root nodes executor) {id : NodeId} (hid : id ∈ nodes) :
    ∃ node, d.node id = some node ∧ node.kind ≠ .root ∧ node.requirement.allows source = true := by
  have hsteps := h.steps
  clear h
  induction nodes generalizing root with
  | nil => cases hid
  | cons next nodes ih =>
    obtain ⟨⟨_, child, _, _, hchild, hkind, hallows⟩, hrest⟩ := isChain_cons_cons.mp hsteps
    rcases mem_cons.mp hid with rfl | hid
    · exact ⟨child, hchild, hkind, hallows⟩
    · exact ih hid hrest

theorem executorFor_eq_some {node : CommandNode R} {executor : R.Executor} :
    executorFor node source = some executor ↔
      node.executor = some executor ∧ node.executionRequirement.allows source = true := by
  rw [executorFor, filter_eq_some_iff]

/-- A walk that has an executor has it from a last node that the source may run. -/
theorem Walk.last {root : NodeId} {nodes : List NodeId} {executor : R.Executor}
    (h : d.Walk source root nodes (some executor)) :
    ∃ id node, nodes.getLast? = some id ∧ d.node id = some node ∧ node.kind ≠ .root ∧
      node.requirement.allows source = true ∧
      node.executionRequirement.allows source = true ∧ node.executor = some executor := by
  obtain ⟨id, hid, hexecutor⟩ := bind_eq_some_iff.mp h.executor.symm
  obtain ⟨node, hnode, hfor⟩ := bind_eq_some_iff.mp hexecutor
  obtain ⟨hsome, hrun⟩ := executorFor_eq_some.mp hfor
  obtain ⟨_, hnode', hkind, hallows⟩ := h.allows (List.mem_of_getLast? hid)
  obtain rfl := Option.some.inj (hnode.symm.trans hnode')
  exact ⟨id, node, hid, hnode, hkind, hallows, hrun, hsome⟩

end CommandDispatcher

end Steel
