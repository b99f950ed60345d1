import Steel.Command.CommandDispatcher
import Steel.Command.CommandRegistration
import Steel.Command.CommandRoutes
import Steel.Lib.HashMap
import Steel.Lib.Worklist

/-! # Commands that a source can see and run

What a source can parse, it may use, and it can be found in the command tree that the
client of the source is sent.
-/

namespace Steel

section

variable {S : Type} {R : CommandRuntime S}

/-- The graph that a source sees cannot be sent. -/
inductive CommandTreeProjectionError where
  | unknownNode (node : NodeId)
  | tooManyNodes
  | missingArgumentType (node : NodeId)
  | hiddenRedirectTarget (node target : NodeId)
  deriving DecidableEq

/-- What the packet says of a node besides its name. -/
structure CommandNodeInfo where
  children : List ℕ
  isExecutable : Bool
  isRestricted : Bool
  redirectsTo : Option ℕ

/-- A node of the packet. Children and redirects are indices of nodes. -/
inductive ProtocolCommandNode (R : CommandRuntime S) where
  | root (children : List ℕ)
  | literal (info : CommandNodeInfo) (name : List Char)
  | argument (info : CommandNodeInfo) (name : List Char) (argument : R.ProtocolArgument)

namespace ProtocolCommandNode

def children : ProtocolCommandNode R → List ℕ
  | root children => children
  | literal info _ => info.children
  | argument info _ _ => info.children

def redirectsTo : ProtocolCommandNode R → Option ℕ
  | root _ => none
  | literal info _ => info.redirectsTo
  | argument info _ _ => info.redirectsTo

def isExecutable : ProtocolCommandNode R → Bool
  | root _ => false
  | literal info _ => info.isExecutable
  | argument info _ _ => info.isExecutable

end ProtocolCommandNode

structure CCommands (R : CommandRuntime S) where
  nodes : List (ProtocolCommandNode R)
  rootIndex : ℕ

namespace CommandDispatcher

def pushVisible (d : CommandDispatcher R) (source : S) :
    List NodeId → List NodeId → Except CommandTreeProjectionError (List NodeId)
  | [], pending => .ok pending
  | child :: children, pending =>
    match d.node child with
    | none => .error (.unknownNode child)
    | some node =>
      d.pushVisible source children (if node.allows source then child :: pending else pending)

variable (d : CommandDispatcher R)

/-- The stack is popped at its head, so the children are pushed from the last one. -/
def expandVisible (source : S) (nodeId : NodeId)
    (pending : List NodeId) : Except CommandTreeProjectionError (List NodeId) :=
  match d.children nodeId with
  | none => .error (.unknownNode nodeId)
  | some children => d.pushVisible source children.reverse pending

/-- The nodes that a source may use, with fuel for their number. -/
def visibleNodes (fuel : ℕ) (source : S) :
    Option (Except CommandTreeProjectionError (List NodeId)) :=
  Worklist.visit (d.expandVisible source) fuel [d.root] []

def indexNodes : List NodeId → ℕ → HashMap NodeId ℕ →
    Except CommandTreeProjectionError (HashMap NodeId ℕ)
  | [], _, indices => .ok indices
  | node :: nodes, index, indices =>
    if index < 2 ^ 31 then indexNodes nodes (index + 1) (indices.insert node index)
    else .error .tooManyNodes

/-- The index of the target of a redirect, which must be visible. -/
def projectRedirect (indices : HashMap NodeId ℕ) (nodeId : NodeId) :
    Option NodeId → Except CommandTreeProjectionError (Option ℕ)
  | none => .ok none
  | some target =>
    match indices.lookup target with
    | some index => .ok (some index)
    | none => .error (.hiddenRedirectTarget nodeId target)

def projectNode (source : S) (indices : HashMap NodeId ℕ)
    (nodeId : NodeId) : Option (Except CommandTreeProjectionError (ProtocolCommandNode R)) :=
  match d.node nodeId with
  | none => some (.error (.unknownNode nodeId))
  | some node => do
    let children := node.children.filterMap fun child => indices.lookup child
    match projectRedirect indices nodeId (← node.redirectTarget) with
    | .error error => some (.error error)
    | .ok redirect =>
      let info : CommandNodeInfo :=
        ⟨children, node.canExecute source, node.isRestricted, redirect⟩
      match node.kind with
      | .root => some (.ok (.root children))
      | .literal => some (.ok (.literal info node.name))
      | .argument =>
        match node.argumentType with
        | none => some (.error (.missingArgumentType nodeId))
        | some argument => some (.ok (.argument info node.name (R.protocolArgument argument)))

def projectNodes (d : CommandDispatcher R) (source : S) (indices : HashMap NodeId ℕ) :
    List NodeId → Option (Except CommandTreeProjectionError (List (ProtocolCommandNode R)))
  | [] => some (.ok [])
  | nodeId :: nodeIds => do
    match ← d.projectNode source indices nodeId with
    | .error error => some (.error error)
    | .ok projected =>
      match ← d.projectNodes source indices nodeIds with
      | .error error => some (.error error)
      | .ok nodes => some (.ok (projected :: nodes))

def commandTreePacket (fuel : ℕ) (source : S) :
    Option (Except CommandTreeProjectionError (CCommands R)) := do
  match ← d.visibleNodes fuel source with
  | .error error => some (.error error)
  | .ok visible =>
    match indexNodes visible 0 ∅ with
    | .error error => some (.error error)
    | .ok indices =>
      match ← d.projectNodes source indices visible with
      | .error error => some (.error error)
      | .ok nodes => some (.ok ⟨nodes, 0⟩)

end CommandDispatcher

end

open List Option
open CommandNodeData (kind)

variable {S : Type} {R : CommandRuntime S} {d : CommandDispatcher R} {source : S}

namespace CommandDispatcher

variable {children pending pushed : List NodeId}

theorem pushVisible_ok (h : d.pushVisible source children pending = .ok pushed) :
    pending ⊆ pushed ∧ ∀ child ∈ children, ∀ node, d.node child = some node →
      node.allows source = true → child ∈ pushed := by
  induction children generalizing pending with
  | nil =>
    obtain rfl : pending = pushed := by simpa [pushVisible] using h
    simp
  | cons first children ih =>
    rw [pushVisible] at h
    split at h
    · cases h
    · rename_i node hnode
      obtain ⟨hkeep, hadd⟩ := ih h
      constructor
      · intro id hid
        apply hkeep
        split
        · exact mem_cons_of_mem _ hid
        · exact hid
      · intro child hchild other hother hallows
        rcases mem_cons.mp hchild with rfl | hchild
        · obtain rfl := Option.some.inj (hnode.symm.trans hother)
          apply hkeep
          rw [if_pos hallows]
          exact mem_cons_self
        · exact hadd child hchild other hother hallows

theorem pushes_expandVisible :
    Worklist.Pushes (d.expandVisible source) (d.Step source) := by
  intro a pending pushed h
  rw [expandVisible] at h
  split at h
  · cases h
  · rename_i children hchildren
    obtain ⟨hkeep, hadd⟩ := pushVisible_ok h
    refine ⟨hkeep, ?_⟩
    rintro b ⟨parent, child, hparent, hb, hchild, -, hallows⟩
    have heq : parent.children = children := by
      simpa [CommandDispatcher.children, hparent] using hchildren
    exact hadd b (by simpa [← heq] using hb) child hchild hallows

/-- The root is visible, and every child that may be used of a visible node. -/
theorem visibleNodes_closed {fuel : ℕ} {visible : List NodeId}
    (h : d.visibleNodes fuel source = some (.ok visible)) :
    d.root ∈ visible ∧ ∀ a ∈ visible, ∀ b, d.Step source a b → b ∈ visible := by
  obtain ⟨_, hpending, hclosed⟩ := Worklist.visit_closed pushes_expandVisible (by simp) h
  exact ⟨hpending (by simp), hclosed⟩

theorem pushVisible_mem (h : d.pushVisible source children pending = .ok pushed) :
    ∀ id ∈ pushed, id ∈ pending ∨ id ∈ children := by
  induction children generalizing pending with
  | nil =>
    obtain rfl : pending = pushed := by simpa [pushVisible] using h
    exact fun id hid => .inl hid
  | cons first children ih =>
    rw [pushVisible] at h
    split at h
    · cases h
    · intro id hid
      rcases ih h id hid with hid | hid
      · split at hid
        · rcases mem_cons.mp hid with rfl | hid
          · exact .inr mem_cons_self
          · exact .inl hid
        · exact .inl hid
      · exact .inr (mem_cons_of_mem _ hid)

theorem WellFormed.visibleNodes_root (hd : d.WellFormed) {fuel : ℕ} {visible : List NodeId}
    (h : d.visibleNodes fuel source = some (.ok visible)) :
    ∃ rest, visible = d.root :: rest ∧ d.root ∉ rest := by
  have hpush : ∀ a pending pushed, (∀ b ∈ pending, b ≠ d.root) →
      d.expandVisible source a pending = .ok pushed → ∀ b ∈ pushed, b ≠ d.root := by
    intro a pending pushed hpending hexpand b hb
    rw [expandVisible] at hexpand
    split at hexpand
    · cases hexpand
    · rename_i children hchildren
      rcases pushVisible_mem hexpand b hb with hb | hb
      · exact hpending b hb
      · obtain ⟨node, hnode, rfl⟩ := map_eq_some_iff.mp hchildren
        have hlt := (hd.links _ _ (child_of_node hnode (mem_reverse.mp hb))).2.1
        rintro rfl
        exact absurd hlt (Nat.not_lt_zero _)
  cases fuel with
  | zero => cases h
  | succ fuel =>
    rw [visibleNodes, Worklist.visit] at h
    split at h
    · cases h
    · rename_i pushed hexpand
      obtain ⟨rest, rfl, hrest⟩ := Worklist.visit_forall hpush
        (hpush d.root [] pushed (by simp) hexpand) h
      exact ⟨rest, rfl, fun hmem => hrest d.root hmem rfl⟩

variable {nodes : List NodeId} {indices : HashMap NodeId ℕ}

theorem indexNodes_ok {start : ℕ} {result : HashMap NodeId ℕ}
    (h : indexNodes nodes start indices = .ok result) (id : NodeId) :
    (id ∉ nodes ∧ result.lookup id = indices.lookup id) ∨
      ∃ i, nodes[i]? = some id ∧ result.lookup id = some (start + i) := by
  induction nodes generalizing start indices with
  | nil =>
    obtain rfl : indices = result := by simpa [indexNodes] using h
    simp
  | cons node nodes ih =>
    rw [indexNodes] at h
    split at h
    · rcases ih h with ⟨hnot, hlookup⟩ | ⟨i, hi, hlookup⟩
      · by_cases hid : id = node
        · subst hid
          exact .inr ⟨0, rfl, by simp [hlookup]⟩
        · exact .inl ⟨by simp [hid, hnot], by rw [hlookup, AList.lookup_insert_ne hid]⟩
      · exact .inr ⟨i + 1, by simpa using hi, by rw [hlookup]; congr 1; omega⟩
    · cases h

def indexOf (indices : HashMap NodeId ℕ) (id : NodeId) : ℕ := (indices.lookup id).getD 0

variable {id : NodeId}

theorem lookup_indexOf (h : indexNodes nodes 0 ∅ = .ok indices) (hid : id ∈ nodes) :
    indices.lookup id = some (indexOf indices id) ∧ nodes[indexOf indices id]? = some id := by
  rcases indexNodes_ok h id with ⟨hnot, -⟩ | ⟨i, hi, hlookup⟩
  · exact absurd hid hnot
  · rw [Nat.zero_add] at hlookup
    simp [indexOf, hlookup, hi]

theorem mem_of_lookup (h : indexNodes nodes 0 ∅ = .ok indices) {i : ℕ}
    (hid : indices.lookup id = some i) : id ∈ nodes := by
  rcases indexNodes_ok h id with ⟨-, hlookup⟩ | ⟨i, hi, -⟩
  · rw [hlookup, AList.lookup_empty] at hid
    cases hid
  · exact mem_of_getElem? hi

theorem projectNodes_ok {ids : List NodeId} {nodes : List (ProtocolCommandNode R)}
    (h : d.projectNodes source indices ids = some (.ok nodes)) {i : ℕ}
    (hi : ids[i]? = some id) :
    ∃ p, nodes[i]? = some p ∧ d.projectNode source indices id = some (.ok p) := by
  induction ids generalizing nodes i with
  | nil => simp at hi
  | cons first ids ih =>
    rw [projectNodes, bind_eq_bind, bind_eq_some_iff] at h
    obtain ⟨projected, hprojected, h⟩ := h
    split at h
    · cases h
    · rw [bind_eq_bind, bind_eq_some_iff] at h
      obtain ⟨rest, hrest, h⟩ := h
      split at h
      · cases h
      · rename_i others
        obtain rfl : _ = nodes := by simpa using h
        cases i with
        | zero =>
          obtain rfl : first = id := by simpa using hi
          exact ⟨_, rfl, hprojected⟩
        | succ i => exact ih hrest (by simpa using hi)

end CommandDispatcher

/-- The packet has the node with its name and its argument. -/
def ProtocolCommandNode.Shows (node : CommandNode R) : ProtocolCommandNode R → Prop
  | root _ => node.data = .root
  | literal _ name => node.data = .literal name
  | argument _ name sent =>
    ∃ argumentType, node.data = .argument name argumentType ∧
      sent = R.protocolArgument argumentType

namespace CommandDispatcher

variable {indices : HashMap NodeId ℕ}

theorem projectRedirect_ok {id target : NodeId} {o : Option ℕ}
    (h : projectRedirect indices id (some target) = .ok o) :
    indices.lookup target = some (indexOf indices target) ∧
      o = some (indexOf indices target) := by
  rw [projectRedirect] at h
  split at h
  · rename_i index hindex
    obtain rfl : _ = o := by simpa using h
    simp [indexOf, hindex]
  · cases h

theorem projectNode_ok {id : NodeId} {p : ProtocolCommandNode R}
    (h : d.projectNode source indices id = some (.ok p)) :
    ∃ node target, d.node id = some node ∧ node.redirectTarget = some target ∧ p.Shows node ∧
      p.children = node.children.filterMap (indices.lookup ·) ∧
      (node.kind ≠ .root → p.isExecutable = node.canExecute source ∧
        projectRedirect indices id target = .ok p.redirectsTo) := by
  rw [projectNode] at h
  split at h
  · cases h
  · rename_i node hnode
    simp only [bind_eq_bind, bind_eq_some_iff] at h
    obtain ⟨target, htarget, h⟩ := h
    refine ⟨node, target, hnode, htarget, ?_⟩
    split at h
    · cases h
    · rename_i redirect hredirect
      cases hdata : node.data with
      | root =>
        simp only [CommandNode.kind, hdata, kind, Option.some.injEq,
          Except.ok.injEq] at h
        subst h
        refine ⟨hdata, rfl, fun hkind => absurd ?_ hkind⟩
        simp [CommandNode.kind, hdata, kind]
      | literal name =>
        simp only [CommandNode.kind, CommandNode.name, hdata, kind,
          CommandNodeData.name, Option.some.injEq, Except.ok.injEq] at h
        subst h
        exact ⟨hdata, rfl, fun _ => ⟨rfl, hredirect⟩⟩
      | argument name argumentType =>
        simp only [CommandNode.kind, CommandNode.name, CommandNode.argumentType, hdata,
          kind, CommandNodeData.name, Option.some.injEq, Except.ok.injEq] at h
        subst h
        exact ⟨⟨argumentType, hdata, rfl⟩, rfl, fun _ => ⟨rfl, hredirect⟩⟩

end CommandDispatcher

/-- The contexts are found in a packet by following its indices, and the last node is
flagged executable. -/
structure CCommands.Displays (d : CommandDispatcher R) (index : NodeId → ℕ)
    (contexts : List (CommandContext R)) (packet : CCommands R) : Prop where
  root : contexts.head?.map (fun context => index context.root) = some packet.rootIndex
  nodes : ∀ context ∈ contexts, ∀ id ∈ context.nodeIds, ∃ node p,
    d.node id = some node ∧ packet.nodes[index id]? = some p ∧ p.Shows node
  children : ∀ context ∈ contexts, context.route.IsChain fun a b =>
    ∃ p, packet.nodes[index a]? = some p ∧ index b ∈ p.children
  redirects : contexts.IsChain fun context next => ∃ last p,
    context.nodeIds.getLast? = some last ∧ packet.nodes[index last]? = some p ∧
      p.redirectsTo = some (index next.root)
  executable : ∃ context last p, contexts.getLast? = some context ∧
    context.nodeIds.getLast? = some last ∧ packet.nodes[index last]? = some p ∧
      p.isExecutable = true

namespace CommandDispatcher

/-- A node of the packet stands for a node that is visible. -/
def Shown (d : CommandDispatcher R) (source : S) (visible : List NodeId)
    (indices : HashMap NodeId ℕ) (packet : CCommands R) : Prop :=
  ∀ id ∈ visible, ∃ p, packet.nodes[indexOf indices id]? = some p ∧
    d.projectNode source indices id = some (.ok p)

theorem commandTreePacket_ok {fuel : ℕ} {packet : CCommands R}
    (h : d.commandTreePacket fuel source = some (.ok packet)) :
    ∃ visible indices, d.visibleNodes fuel source = some (.ok visible) ∧
      indexNodes visible 0 ∅ = .ok indices ∧ packet.rootIndex = 0 ∧
      d.Shown source visible indices packet := by
  rw [commandTreePacket, bind_eq_bind, bind_eq_some_iff] at h
  obtain ⟨seen, hseen, h⟩ := h
  split at h
  · cases h
  · rename_i visible
    split at h
    · cases h
    · rename_i indices hindices
      rw [bind_eq_bind, bind_eq_some_iff] at h
      obtain ⟨projected, hprojected, h⟩ := h
      split at h
      · cases h
      · obtain rfl : _ = packet := by simpa using h
        refine ⟨visible, indices, hseen, hindices, rfl, ?_⟩
        intro id hid
        exact projectNodes_ok hprojected (lookup_indexOf hindices hid).2

section Displays

variable {visible : List NodeId} {indices : HashMap NodeId ℕ} {packet : CCommands R}

section

variable (hshown : d.Shown source visible indices packet)
  (hindices : indexNodes visible 0 ∅ = .ok indices)

include hshown hindices

theorem Shown.step {a b : NodeId} (ha : a ∈ visible) (hb : b ∈ visible)
    (hstep : d.Step source a b) :
    ∃ p, packet.nodes[indexOf indices a]? = some p ∧ indexOf indices b ∈ p.children := by
  obtain ⟨p, hp, hproject⟩ := hshown a ha
  obtain ⟨node, _, hnode, _, _, hchildren, _⟩ := projectNode_ok hproject
  obtain ⟨parent, _, hparent, hmem, _⟩ := hstep
  obtain rfl := Option.some.inj (hnode.symm.trans hparent)
  refine ⟨p, hp, ?_⟩
  rw [hchildren, mem_filterMap]
  exact ⟨b, hmem, (lookup_indexOf hindices hb).1⟩

/-- The target of a visible redirect is visible, and the packet has its index. -/
theorem Shown.redirect {id target : NodeId} (hid : id ∈ visible) {node : CommandNode R}
    (hnode : d.node id = some node) (hkind : node.kind ≠ .root)
    (htarget : node.redirectTarget = some (some target)) :
    target ∈ visible ∧ ∃ p, packet.nodes[indexOf indices id]? = some p ∧
      p.redirectsTo = some (indexOf indices target) := by
  obtain ⟨p, hp, hproject⟩ := hshown id hid
  obtain ⟨other, o, hother, ho, _, _, hinfo⟩ := projectNode_ok hproject
  obtain rfl := Option.some.inj (hnode.symm.trans hother)
  obtain rfl : some target = o := by simpa [htarget] using ho
  obtain ⟨hlookup, heq⟩ := projectRedirect_ok (hinfo hkind).2
  exact ⟨mem_of_lookup hindices hlookup, p, hp, heq⟩

end

theorem Walk.mem_visible (hclosed : ∀ a ∈ visible, ∀ b, d.Step source a b → b ∈ visible)
    {root : NodeId} {nodes : List NodeId} {executor : Option R.Executor}
    (h : d.Walk source root nodes executor) (hroot : root ∈ visible) :
    ∀ id ∈ root :: nodes, id ∈ visible := by
  have hsteps := h.steps
  clear h
  induction nodes generalizing root with
  | nil => simpa using hroot
  | cons next nodes ih =>
    obtain ⟨hstep, hrest⟩ := isChain_cons_cons.mp hsteps
    intro id hid
    rcases mem_cons.mp hid with rfl | hid
    · exact hroot
    · exact ih (hclosed root hroot next hstep) hrest id hid

theorem Route.mem_visible (hclosed : ∀ a ∈ visible, ∀ b, d.Step source a b → b ∈ visible)
    (hshown : d.Shown source visible indices packet)
    (hindices : indexNodes visible 0 ∅ = .ok indices) {contexts : List (CommandContext R)}
    (h : d.Route source contexts) (hroot : ∀ context ∈ contexts.head?, context.root ∈ visible) :
    ∀ context ∈ contexts, ∀ id ∈ context.route, id ∈ visible := by
  obtain ⟨hwalks, hredirects⟩ := h
  induction contexts with
  | nil => simp
  | cons context contexts ih =>
    have hwalk := hwalks context mem_cons_self
    have hvisible := hwalk.mem_visible hclosed (hroot context rfl)
    obtain ⟨hnext, hrest⟩ := isChain_cons.mp hredirects
    have htail : ∀ next ∈ contexts.head?, next.root ∈ visible := by
      intro next hmem
      obtain ⟨last, node, hlast, hnode, htarget⟩ := hnext next hmem
      have hin := List.mem_of_getLast? hlast
      obtain ⟨other, hother, hkind, -⟩ := hwalk.allows hin
      obtain rfl := Option.some.inj (hnode.symm.trans hother)
      exact (hshown.redirect hindices (hvisible last (mem_cons_of_mem _ hin)) hnode hkind
        htarget).1
    intro other hother
    rcases mem_cons.mp hother with rfl | hother
    · exact hvisible
    · exact ih htail (fun c hc => hwalks c (mem_cons_of_mem _ hc)) hrest other hother

theorem Shown.executable (hshown : d.Shown source visible indices packet) {id : NodeId}
    (hid : id ∈ visible) {node : CommandNode R} (hnode : d.node id = some node)
    (hkind : node.kind ≠ .root) (hrun : node.canExecute source = true) :
    ∃ p, packet.nodes[indexOf indices id]? = some p ∧ p.isExecutable = true := by
  obtain ⟨p, hp, hproject⟩ := hshown id hid
  obtain ⟨other, _, hother, _, _, _, hinfo⟩ := projectNode_ok hproject
  obtain rfl := Option.some.inj (hnode.symm.trans hother)
  exact ⟨p, hp, (hinfo hkind).1.trans hrun⟩

end Displays

theorem displays_of_route (hd : d.WellFormed) {fuel : ℕ} {packet : CCommands R}
    (h : d.commandTreePacket fuel source = some (.ok packet)) {contexts : List (CommandContext R)}
    (hhead : contexts.head?.map (·.root) = some d.root) (hroute : d.Route source contexts)
    {last : CommandContext R} {executor : R.Executor} (hlast : contexts.getLast? = some last)
    (hexecutor : last.executor = some executor) :
    ∃ index, packet.Displays d index contexts := by
  obtain ⟨visible, indices, hvisible, hindices, hzero, hshown⟩ := commandTreePacket_ok h
  obtain ⟨hroot, hclosed⟩ := visibleNodes_closed hvisible
  obtain ⟨first, hfirst, hfirstRoot⟩ := map_eq_some_iff.mp hhead
  have hseen := hroute.mem_visible hclosed hshown hindices (by
    intro context hcontext
    obtain rfl : first = context := by simpa [hfirst] using hcontext
    exact hfirstRoot ▸ hroot)
  have hindex : indexOf indices d.root = 0 := by
    obtain ⟨rest, rfl, hnot⟩ := hd.visibleNodes_root hvisible
    have hat := (lookup_indexOf hindices hroot).2
    cases hi : indexOf indices d.root with
    | zero => rfl
    | succ i =>
      rw [hi, List.getElem?_cons_succ] at hat
      exact absurd (mem_of_getElem? hat) hnot
  refine ⟨indexOf indices, ?_, ?_, ?_, ?_, ?_⟩
  · simp [hfirst, hfirstRoot, hindex, hzero]
  · intro context hcontext id hid
    obtain ⟨p, hp, hproject⟩ := hshown id (hseen context hcontext id (mem_cons_of_mem _ hid))
    obtain ⟨node, _, hnode, _, hshows, _⟩ := projectNode_ok hproject
    exact ⟨node, p, hnode, hp, hshows⟩
  · intro context hcontext
    refine (hroute.walks context hcontext).steps.imp_of_mem_imp ?_
    intro a b ha hb hstep
    exact hshown.step hindices (hseen context hcontext a ha) (hseen context hcontext b hb) hstep
  · refine hroute.redirects.imp_of_mem_imp ?_
    rintro context next hcontext - ⟨id, node, hid, hnode, htarget⟩
    have hin := List.mem_of_getLast? hid
    obtain ⟨other, hother, hkind, -⟩ := (hroute.walks context hcontext).allows hin
    obtain rfl := Option.some.inj (hnode.symm.trans hother)
    obtain ⟨-, p, hp, hredirect⟩ := hshown.redirect hindices
      (hseen context hcontext id (mem_cons_of_mem _ hin)) hnode hkind htarget
    exact ⟨id, p, hid, hp, hredirect⟩
  · have hmem := List.mem_of_getLast? hlast
    obtain ⟨id, node, hid, hnode, hkind, hallows, hrun, hsome⟩ :=
      (hexecutor ▸ hroute.walks last hmem).last
    obtain ⟨p, hp, hflag⟩ := hshown.executable
      (hseen last hmem id (mem_cons_of_mem _ (List.mem_of_getLast? hid))) hnode hkind
      (by simp [CommandNode.canExecute, hsome, hallows, hrun])
    exact ⟨last, id, p, hlast, hid, hp, hflag⟩

/-- A command that parses never passes a requirement of its source: every node it consumed
may be used, and its executor is that of a last node that may be run. The command tree that
is sent to the source has all these nodes. -/
theorem contextChain_allowed (hd : d.Registered) {fuel : ℕ} {input : List Char}
    {parse : ParseResults R} (hp : d.parse fuel input source = some parse)
    {chain : ContextChain R} (hc : d.contextChain parse = .ok chain) :
    (∀ context ∈ chain.contexts, ∀ id ∈ context.nodeIds, ∃ node, d.node id = some node ∧
        node.requirement.allows source = true) ∧
      (∃ context id node executor, chain.contexts.getLast? = some context ∧
        context.nodeIds.getLast? = some id ∧ d.node id = some node ∧
        node.executionRequirement.allows source = true ∧ node.executor = some executor ∧
        context.executor = some executor) ∧
      ∀ fuel' packet, d.commandTreePacket fuel' source = some (.ok packet) →
        ∃ index, packet.Displays d index chain.contexts := by
  obtain ⟨hhead, hroute, last, executor, hlast, hexecutor⟩ := contextChain_route hd.wellFormed hp hc
  refine ⟨?_, ?_, ?_⟩
  · intro context hcontext id hid
    obtain ⟨node, hnode, -, hallows⟩ := (hroute.walks context hcontext).allows hid
    exact ⟨node, hnode, hallows⟩
  · obtain ⟨id, node, hid, hnode, -, -, hrun, hsome⟩ :=
      (hexecutor ▸ hroute.walks last (List.mem_of_getLast? hlast)).last
    exact ⟨last, id, node, executor, hlast, hid, hnode, hrun, hsome, hexecutor⟩
  · intro fuel' packet hpacket
    exact displays_of_route hd.wellFormed hpacket hhead hroute hlast hexecutor

end CommandDispatcher

namespace CommandSample

/-- The input `run say hi`. -/
def input : List Char := ['r', 'u', 'n', ' ', 's', 'a', 'y', ' ', 'h', 'i']

theorem input_allowed : ∃ parse chain packet, dispatcher.parse 4 input true = some parse ∧
    dispatcher.contextChain parse = .ok chain ∧
    dispatcher.commandTreePacket 5 true = some (.ok packet) ∧
    (∀ context ∈ chain.contexts, ∀ id ∈ context.nodeIds, ∃ node,
      dispatcher.node id = some node ∧ node.requirement.allows true = true) ∧
    (∃ context id node executor, chain.contexts.getLast? = some context ∧
      context.nodeIds.getLast? = some id ∧ dispatcher.node id = some node ∧
      node.executionRequirement.allows true = true ∧ node.executor = some executor ∧
      context.executor = some executor) ∧
    ∃ index, packet.Displays dispatcher index chain.contexts := by
  refine ⟨_, _, _, rfl, rfl, rfl, ?_⟩
  obtain ⟨hnodes, hlast, htree⟩ :=
    CommandDispatcher.contextChain_allowed dispatcher_registered
      (rfl : dispatcher.parse 4 input true = some _) rfl
  exact ⟨hnodes, hlast, htree 5 _ rfl⟩

end CommandSample

end Steel
