import Mathlib.Data.List.Induction
import Mathlib.Data.List.Nodup
import Steel.Command.CommandDispatcher

/-! # The graph of registered commands

The nodes of a dispatcher form a tree below its root, whose redirects stay inside the arena.
-/

namespace Steel

open Option List Nat

variable {S : Type} {R : CommandRuntime S} {d d' : CommandDispatcher R}

/-- Two nodes differ in their executors and children at most. -/
structure CommandNode.SameLabel (a b : CommandNode R) : Prop where
  data : a.data = b.data
  requirement : a.requirement = b.requirement
  executionRequirement : a.executionRequirement = b.executionRequirement
  redirect : a.redirect = b.redirect

theorem CommandNode.SameLabel.refl (a : CommandNode R) : a.SameLabel a := ⟨rfl, rfl, rfl, rfl⟩

theorem CommandNode.SameLabel.trans {a b c : CommandNode R} (h : a.SameLabel b)
    (h' : b.SameLabel c) : a.SameLabel c where
  data := h.data.trans h'.data
  requirement := h.requirement.trans h'.requirement
  executionRequirement := h.executionRequirement.trans h'.executionRequirement
  redirect := h.redirect.trans h'.redirect

theorem CommandNode.SameLabel.name {a b : CommandNode R} (h : a.SameLabel b) : a.name = b.name :=
  congrArg CommandNodeData.name h.data

theorem CommandNode.SameLabel.kind {a b : CommandNode R} (h : a.SameLabel b) : a.kind = b.kind :=
  congrArg CommandNodeData.kind h.data

namespace CommandDispatcher

def nameOf (d : CommandDispatcher R) (id : NodeId) : List Char :=
  (d.nodes[id.index]?.map (·.name)).getD []

def Child (d : CommandDispatcher R) (parent : ℕ) (child : NodeId) : Prop :=
  ∃ node, d.nodes[parent]? = some node ∧ child ∈ node.children

/-- The arena is a tree below its root, with redirects into it. -/
structure WellFormed (d : CommandDispatcher R) : Prop where
  root : ∃ node, d.nodes[0]? = some node ∧ node.kind = .root ∧ node.redirect = none
  kinds : ∀ i node, 0 < i → d.nodes[i]? = some node → node.kind ≠ .root
  links : ∀ parent child, d.Child parent child →
    child.dispatcher = d.id ∧ parent < child.index ∧ child.index < d.nodes.length
  parent : ∀ i, 0 < i → i < d.nodes.length → ∃! parent, d.Child parent ⟨d.id, i⟩
  names : ∀ node ∈ d.nodes, (node.children.map d.nameOf).Nodup
  targets : ∀ node ∈ d.nodes, ∀ redirect, node.redirect = some redirect →
    ∃ target, redirect.target = .node target ∧ (d.node target).isSome
  leaves : ∀ node ∈ d.nodes, node.redirect.isSome → node.children = []

variable {id : NodeId}

theorem node_eq_some {node : CommandNode R} :
    d.node id = some node ↔ id.dispatcher = d.id ∧ d.nodes[id.index]? = some node := by
  rw [CommandDispatcher.node]
  split
  · rename_i h
    simp [h]
  · rename_i h
    simp [not_not.mp h]

theorem node_isSome :
    (d.node id).isSome ↔ id.dispatcher = d.id ∧ id.index < d.nodes.length := by
  rw [isSome_iff_exists]
  simp only [node_eq_some, exists_and_left]
  rw [← isSome_iff_exists]
  simp

theorem mem_nodes_of_node {node : CommandNode R} (h : d.node id = some node) :
    node ∈ d.nodes :=
  mem_of_getElem? (node_eq_some.mp h).2

theorem child_of_node {id child : NodeId} {node : CommandNode R} (h : d.node id = some node)
    (hc : child ∈ node.children) : d.Child id.index child :=
  ⟨node, (node_eq_some.mp h).2, hc⟩

section

variable {parent : ℕ} {child : NodeId} (hd : d.WellFormed) (h : d.Child parent child)

include hd h

theorem WellFormed.child_node : d.node child = d.nodes[child.index]? := by
  rw [CommandDispatcher.node, if_neg (not_not_intro (hd.links parent child h).1)]

theorem WellFormed.exists_child_node : ∃ node, d.node child = some node ∧ node.kind ≠ .root := by
  obtain ⟨hid, hlt, hlength⟩ := hd.links parent child h
  obtain ⟨node, hnode⟩ := isSome_iff_exists.mp (node_isSome.mpr ⟨hid, hlength⟩)
  exact ⟨node, hnode, hd.kinds child.index node (by omega) (node_eq_some.mp hnode).2⟩

end

variable {child : NodeId}

theorem WellFormed.parent_unique (hd : d.WellFormed) {p q : ℕ}
    (hp : d.Child p child) (hq : d.Child q child) : p = q := by
  obtain ⟨hid, hlt, hlength⟩ := hd.links p child hp
  obtain ⟨dispatcher, index⟩ := child
  obtain rfl : dispatcher = d.id := hid
  exact (hd.parent index (zero_lt_of_lt hlt) hlength).unique hp hq

variable {name : List Char}

theorem WellFormed.findChild_eq_some (hd : d.WellFormed) {parent child : NodeId}
    : d.findChild parent name = some child ↔
      ∃ node, d.node parent = some node ∧ child ∈ node.children ∧ d.nameOf child = name := by
  rw [findChild, bind_eq_bind, bind_eq_some_iff]
  constructor
  · rintro ⟨node, hnode, hfind⟩
    refine ⟨node, hnode, List.mem_of_find?_eq_some hfind, ?_⟩
    have hname := List.find?_some hfind
    obtain ⟨other, hother, heq⟩ := (Option.any_eq_true _ _).mp hname
    simpa [nameOf, hother] using heq
  · rintro ⟨node, hnode, hmem, hname⟩
    refine ⟨node, hnode, ?_⟩
    have hmatch : ∀ c ∈ node.children,
        (d.nodes[c.index]?.any (·.name = name)) = true → c = child := by
      intro c hc hany
      obtain ⟨other, hother, heq⟩ := (Option.any_eq_true _ _).mp hany
      have hsame : d.nameOf c = d.nameOf child := by
        rw [hname]
        simpa [nameOf, hother] using heq
      exact inj_on_of_nodup_map (hd.names node (mem_nodes_of_node hnode)) hc hmem hsame
    have hchild : (d.nodes[child.index]?.any (·.name = name)) = true := by
      obtain ⟨other, hother, -⟩ := hd.exists_child_node (child_of_node hnode hmem)
      have hat := (node_eq_some.mp hother).2
      simpa [nameOf, hat] using hname
    cases hfind : node.children.find? fun c => d.nodes[c.index]?.any (·.name = name) with
    | none => exact absurd hchild (by simpa using List.find?_eq_none.mp hfind child hmem)
    | some c =>
      have hname := List.find?_some hfind
      rw [hmatch c (List.mem_of_find?_eq_some hfind) hname]

theorem findChild_eq_none {parent : NodeId} {node : CommandNode R}
    (hd : d.WellFormed) (hnode : d.node parent = some node)
    (h : d.findChild parent name = none) : ∀ child ∈ node.children, d.nameOf child ≠ name := by
  intro child hchild hname
  have := (hd.findChild_eq_some).mpr ⟨node, hnode, hchild, hname⟩
  simp [h] at this

theorem wellFormed_new (id : ℕ) : (new id : CommandDispatcher R).WellFormed := by
  have hchild : ∀ parent child, ¬ (new id : CommandDispatcher R).Child parent child := by
    rintro parent child ⟨node, hnode, hmem⟩
    obtain rfl : node = .root := by simpa [new] using mem_of_getElem? hnode
    simp [CommandNode.root] at hmem
  refine ⟨⟨.root, rfl, rfl, rfl⟩, ?_, fun parent child h => absurd h (hchild parent child), ?_,
    ?_, ?_, ?_⟩
  · intro i node hi hnode
    have := (List.getElem?_eq_some_iff.mp hnode).1
    simp only [new, length_singleton] at this
    omega
  · intro i hi hlength
    simp only [new, length_singleton] at hlength
    omega
  all_goals
    intro node hnode
    obtain rfl : node = .root := by simpa [new] using hnode
    simp [CommandNode.root]

/-- Every node keeps its place and its label. -/
structure Extends (d d' : CommandDispatcher R) : Prop where
  id : d'.id = d.id
  label : ∀ (i : ℕ) (node : CommandNode R), d.nodes[i]? = some node →
    ∃ node' : CommandNode R, d'.nodes[i]? = some node' ∧ node'.SameLabel node

theorem Extends.refl (d : CommandDispatcher R) : d.Extends d :=
  ⟨rfl, fun _ node h => ⟨node, h, .refl node⟩⟩

theorem Extends.trans {d'' : CommandDispatcher R} (h : d.Extends d') (h' : d'.Extends d'') :
    d.Extends d'' := by
  refine ⟨h'.id.trans h.id, ?_⟩
  intro i node hnode
  obtain ⟨node', hnode', hlabel⟩ := h.label i node hnode
  obtain ⟨node'', hnode'', hlabel'⟩ := h'.label i node' hnode'
  exact ⟨node'', hnode'', hlabel'.trans hlabel⟩

theorem Extends.length_le (h : d.Extends d') : d.nodes.length ≤ d'.nodes.length := by
  by_contra hlt
  obtain ⟨node', hnode', -⟩ := h.label d'.nodes.length _ (List.getElem?_eq_getElem (by omega))
  simp at hnode'

theorem Extends.node (h : d.Extends d') {node : CommandNode R}
    (hnode : d.node id = some node) : ∃ node', d'.node id = some node' ∧ node'.SameLabel node := by
  obtain ⟨hid, hat⟩ := node_eq_some.mp hnode
  obtain ⟨node', hnode', hlabel⟩ := h.label id.index node hat
  exact ⟨node', node_eq_some.mpr ⟨hid.trans h.id.symm, hnode'⟩, hlabel⟩

theorem Extends.nameOf (h : d.Extends d') (hid : id.index < d.nodes.length) :
    d'.nameOf id = d.nameOf id := by
  have hat := List.getElem?_eq_getElem hid
  obtain ⟨node', hnode', hlabel⟩ := h.label id.index _ hat
  simp [CommandDispatcher.nameOf, hnode', hat, hlabel.name]

theorem extends_replaceExecutor (d : CommandDispatcher R) (id : NodeId)
    (executor : Option R.Executor) : d.Extends (d.replaceExecutor id executor) := by
  refine ⟨rfl, ?_⟩
  intro i node hnode
  rw [replaceExecutor, List.getElem?_modify, hnode]
  split
  · exact ⟨_, rfl, rfl, rfl, rfl, rfl⟩
  · exact ⟨_, rfl, .refl node⟩

variable {executor : Option R.Executor}

theorem child_replaceExecutor {parent : ℕ} : (d.replaceExecutor id executor).Child parent child ↔
      d.Child parent child := by
  rw [Child, replaceExecutor, List.getElem?_modify, Child]
  cases d.nodes[parent]? with
  | none => simp
  | some node => split <;> simp

section Push

variable {parent : NodeId} {node parentNode : CommandNode R}

theorem extends_pushNode (d : CommandDispatcher R) (parent : NodeId) (node : CommandNode R) :
    d.Extends (d.pushNode parent node) := by
  refine ⟨rfl, ?_⟩
  intro i old hold
  have hlt := (List.getElem?_eq_some_iff.mp hold).1
  rw [pushNode, List.getElem?_modify, List.getElem?_append_left hlt, hold]
  split
  · exact ⟨_, rfl, rfl, rfl, rfl, rfl⟩
  · exact ⟨_, rfl, .refl old⟩

theorem length_pushNode : (d.pushNode parent node).nodes.length = d.nodes.length + 1 := by
  simp [pushNode]

theorem pushNode_last (hparent : d.node parent = some parentNode) :
    (d.pushNode parent node).nodes[d.nodes.length]? = some node := by
  have hlt := (List.getElem?_eq_some_iff.mp (node_eq_some.mp hparent).2).1
  rw [pushNode, List.getElem?_modify_ne _ _ (by omega)]
  simp

theorem child_pushNode (hparent : d.node parent = some parentNode) (hnode : node.children = [])
    {p : ℕ} : (d.pushNode parent node).Child p child ↔
      d.Child p child ∨ p = parent.index ∧ child = ⟨d.id, d.nodes.length⟩ := by
  have hat := (node_eq_some.mp hparent).2
  have hlt := (List.getElem?_eq_some_iff.mp hat).1
  rw [Child, Child]
  rcases lt_trichotomy p d.nodes.length with hp | rfl | hp
  · rw [pushNode, List.getElem?_modify, List.getElem?_append_left hp]
    split
    · rename_i heq
      subst heq
      simp [hat]
    · rename_i hne
      simp [Ne.symm hne]
  · rw [pushNode_last hparent]
    have hnone : d.nodes[d.nodes.length]? = none := by simp
    simp only [Option.some.injEq, exists_eq_left', hnode, hnone]
    constructor
    · intro h; cases h
    · rintro (⟨_, h, _⟩ | ⟨h, _⟩)
      · cases h
      · omega
  · have hnone : d.nodes[p]? = none := by simp; omega
    have hnone' : (d.pushNode parent node).nodes[p]? = none := by
      rw [List.getElem?_eq_none_iff, length_pushNode]
      omega
    simp only [hnone, hnone', reduceCtorEq, false_and, exists_false, false_or, false_iff]
    omega

end Push

def TargetsIn (id length : ℕ) (redirect : Option (CommandRedirect R)) : Prop :=
  ∀ r, redirect = some r → ∃ target : NodeId, r.target = .node target ∧
    target.dispatcher = id ∧ target.index < length

theorem WellFormed.targetsIn (hd : d.WellFormed) {node : CommandNode R} (h : node ∈ d.nodes) :
    TargetsIn d.id d.nodes.length node.redirect := by
  intro r hr
  obtain ⟨target, htarget, hsome⟩ := hd.targets node h r hr
  exact ⟨target, htarget, node_isSome.mp hsome⟩

theorem mem_replaceExecutor {node : CommandNode R}
    (h : node ∈ (d.replaceExecutor id executor).nodes) :
    ∃ old ∈ d.nodes, node.SameLabel old ∧ node.children = old.children := by
  obtain ⟨i, hi⟩ := mem_iff_getElem?.mp h
  rw [replaceExecutor, List.getElem?_modify, Option.map_eq_map, map_eq_some_iff] at hi
  obtain ⟨old, hold, rfl⟩ := hi
  refine ⟨old, mem_of_getElem? hold, ?_⟩
  split
  · exact ⟨⟨rfl, rfl, rfl, rfl⟩, rfl⟩
  · exact ⟨.refl old, rfl⟩

theorem length_replaceExecutor (id : NodeId) (executor : Option R.Executor) :
    (d.replaceExecutor id executor).nodes.length = d.nodes.length := by
  simp [replaceExecutor]

theorem WellFormed.replaceExecutor (hd : d.WellFormed) (id : NodeId)
    (executor : Option R.Executor) : (d.replaceExecutor id executor).WellFormed := by
  have hext := extends_replaceExecutor d id executor
  have hlength := length_replaceExecutor (d := d) id executor
  refine ⟨?_, ?_, ?_, ?_, ?_, ?_, ?_⟩
  · obtain ⟨node, hnode, hkind, hnone⟩ := hd.root
    obtain ⟨node', hnode', hlabel⟩ := hext.label 0 node hnode
    exact ⟨node', hnode', hlabel.kind.trans hkind, hlabel.redirect.trans hnone⟩
  · intro i node hi hnode
    have hlt := (List.getElem?_eq_some_iff.mp hnode).1
    rw [hlength] at hlt
    obtain ⟨node', hnode', hlabel⟩ := hext.label i _ (List.getElem?_eq_getElem hlt)
    obtain rfl := Option.some.inj (hnode.symm.trans hnode')
    rw [hlabel.kind]
    exact hd.kinds i _ hi (List.getElem?_eq_getElem hlt)
  · intro parent child h
    rw [hlength]
    exact hd.links parent child (child_replaceExecutor.mp h)
  · intro i hi hlt
    rw [hlength] at hlt
    simp only [child_replaceExecutor]
    exact hd.parent i hi hlt
  · intro node hnode
    obtain ⟨old, hold, -, hchildren⟩ := mem_replaceExecutor hnode
    have hsame : node.children.map (d.replaceExecutor id executor).nameOf =
        old.children.map d.nameOf := by
      rw [hchildren]
      apply map_congr_left
      intro child hchild
      obtain ⟨p, hp⟩ := mem_iff_getElem?.mp hold
      exact hext.nameOf (hd.links p child ⟨old, hp, hchild⟩).2.2
    rw [hsame]
    exact hd.names old hold
  · intro node hnode redirect hredirect
    obtain ⟨old, hold, hlabel, -⟩ := mem_replaceExecutor hnode
    obtain ⟨target, htarget, hid, hlt⟩ := hd.targetsIn hold redirect
      (hlabel.redirect.symm.trans hredirect)
    exact ⟨target, htarget, node_isSome.mpr ⟨hid, by rwa [hlength]⟩⟩
  · intro node hnode hredirect
    obtain ⟨old, hold, hlabel, hchildren⟩ := mem_replaceExecutor hnode
    rw [hchildren]
    exact hd.leaves old hold (hlabel.redirect ▸ hredirect)

section Push

variable {parent : NodeId} {node parentNode : CommandNode R}

/-- The nodes after an allocation: the new node, its parent with one more child, and the
others as they were. -/
theorem mem_pushNode (hparent : d.node parent = some parentNode) {other : CommandNode R}
    (h : other ∈ (d.pushNode parent node).nodes) :
    other = node ∨ other ∈ d.nodes ∨ other.SameLabel parentNode ∧
      other.children = parentNode.children ++ [⟨d.id, d.nodes.length⟩] := by
  have hat := (node_eq_some.mp hparent).2
  have hlt := (List.getElem?_eq_some_iff.mp hat).1
  obtain ⟨i, hi⟩ := mem_iff_getElem?.mp h
  rw [pushNode, List.getElem?_modify, Option.map_eq_map, map_eq_some_iff] at hi
  obtain ⟨old, hold, rfl⟩ := hi
  split
  · rename_i heq
    subst heq
    rw [List.getElem?_append_left hlt, hat] at hold
    obtain rfl := Option.some.inj hold
    exact .inr (.inr ⟨⟨rfl, rfl, rfl, rfl⟩, rfl⟩)
  · rcases mem_append.mp (mem_of_getElem? hold) with hmem | hmem
    · exact .inr (.inl hmem)
    · exact .inl (by simpa using hmem)

theorem WellFormed.pushNode (hd : d.WellFormed) (hparent : d.node parent = some parentNode)
    (hredirect : parentNode.redirect = none) (hchildren : node.children = [])
    (hkind : node.kind ≠ .root) (hfind : d.findChild parent node.name = none)
    (htargets : TargetsIn d.id (d.nodes.length + 1) node.redirect) :
    (d.pushNode parent node).WellFormed := by
  have hext := extends_pushNode d parent node
  have hlength : (d.pushNode parent node).nodes.length = d.nodes.length + 1 := length_pushNode
  have hat := (node_eq_some.mp hparent).2
  have hlt := (List.getElem?_eq_some_iff.mp hat).1
  have hchild : ∀ {p : ℕ} {child : NodeId}, (d.pushNode parent node).Child p child ↔
      d.Child p child ∨ p = parent.index ∧ child = ⟨d.id, d.nodes.length⟩ :=
    child_pushNode hparent hchildren
  have hold : ∀ i, i < d.nodes.length → ∃ old node', d.nodes[i]? = some old ∧
      (d.pushNode parent node).nodes[i]? = some node' ∧ node'.SameLabel old := by
    intro i hi
    obtain ⟨node', hnode', hlabel⟩ := hext.label i _ (List.getElem?_eq_getElem hi)
    exact ⟨_, node', List.getElem?_eq_getElem hi, hnode', hlabel⟩
  have hname : ∀ p child, d.Child p child → (d.pushNode parent node).nameOf child =
      d.nameOf child :=
    fun p child h => hext.nameOf (hd.links p child h).2.2
  have hnames : ∀ other ∈ d.nodes, other.children.map (d.pushNode parent node).nameOf =
      other.children.map d.nameOf := by
    intro other hother
    apply map_congr_left
    intro child hmem
    obtain ⟨p, hp⟩ := mem_iff_getElem?.mp hother
    exact hname p child ⟨other, hp, hmem⟩
  refine ⟨?_, ?_, ?_, ?_, ?_, ?_, ?_⟩
  · obtain ⟨root, hroot, hrootKind, hrootNone⟩ := hd.root
    obtain ⟨node', hnode', hlabel⟩ := hext.label 0 root hroot
    exact ⟨node', hnode', hlabel.kind.trans hrootKind, hlabel.redirect.trans hrootNone⟩
  · intro i other hi hother
    have hbound := (List.getElem?_eq_some_iff.mp hother).1
    rcases lt_or_ge i d.nodes.length with hlow | hhigh
    · obtain ⟨old, node', hgot, hnode', hlabel⟩ := hold i hlow
      obtain rfl := Option.some.inj (hother.symm.trans hnode')
      rw [hlabel.kind]
      exact hd.kinds i old hi hgot
    · obtain rfl : i = d.nodes.length := by omega
      rw [pushNode_last hparent] at hother
      obtain rfl := Option.some.inj hother
      exact hkind
  · intro p child h
    rw [hlength]
    rcases hchild.mp h with h | ⟨rfl, rfl⟩
    · obtain ⟨hid, hp, hc⟩ := hd.links p child h
      exact ⟨hid, hp, by omega⟩
    · exact ⟨rfl, hlt, lt_succ_self _⟩
  · intro i hi hbound
    rw [hlength] at hbound
    rcases lt_or_ge i d.nodes.length with hlow | hhigh
    · obtain ⟨p, hp, hunique⟩ := hd.parent i hi hlow
      refine ⟨p, hchild.mpr (.inl hp), ?_⟩
      intro q hq
      rcases hchild.mp hq with hq | ⟨-, hq⟩
      · exact hunique q hq
      · have : i = d.nodes.length := congrArg NodeId.index hq
        omega
    · obtain rfl : i = d.nodes.length := by omega
      refine ⟨parent.index, hchild.mpr (.inr ⟨rfl, rfl⟩), ?_⟩
      intro q hq
      rcases hchild.mp hq with hq | ⟨hq, -⟩
      · exact absurd (hd.links q _ hq).2.2 (lt_irrefl _)
      · exact hq
  · intro other hother
    rcases mem_pushNode hparent hother with rfl | hother | ⟨-, heq⟩
    · simp [hchildren]
    · rw [hnames other hother]
      exact hd.names other hother
    · have hmem := mem_nodes_of_node hparent
      have hnew : (d.pushNode parent node).nameOf ⟨d.id, d.nodes.length⟩ = node.name := by
        simp [CommandDispatcher.nameOf, pushNode_last hparent]
      rw [heq, map_append, hnames parentNode hmem]
      simp only [map_cons, map_nil, hnew]
      refine nodup_append.mpr ⟨hd.names parentNode hmem, by simp, ?_⟩
      intro a ha b hb
      obtain ⟨child, hchildMem, rfl⟩ := List.mem_map.mp ha
      obtain rfl : b = node.name := by simpa using hb
      exact findChild_eq_none hd hparent hfind child hchildMem
  · intro other hother redirect hr
    have hin : TargetsIn d.id (d.nodes.length + 1) other.redirect := by
      have hweak : ∀ old ∈ d.nodes, TargetsIn d.id (d.nodes.length + 1) old.redirect := by
        intro old hmem r hr
        obtain ⟨target, htarget, hid, hbound⟩ := hd.targetsIn hmem r hr
        exact ⟨target, htarget, hid, by omega⟩
      rcases mem_pushNode hparent hother with rfl | hother | ⟨hlabel, -⟩
      · exact htargets
      · exact hweak other hother
      · rw [hlabel.redirect]
        exact hweak parentNode (mem_nodes_of_node hparent)
    obtain ⟨target, htarget, hid, hbound⟩ := hin redirect hr
    exact ⟨target, htarget, node_isSome.mpr ⟨hid, by rwa [hlength]⟩⟩
  · intro other hother hr
    rcases mem_pushNode hparent hother with rfl | hother | ⟨hlabel, -⟩
    · exact hchildren
    · exact hd.leaves other hother hr
    · rw [hlabel.redirect, hredirect] at hr
      cases hr

end Push

def resolve (d : CommandDispatcher R) : NodeId → List (List Char) → Option NodeId
  | id, [] => some id
  | id, name :: path => (d.findChild id name).bind fun child => d.resolve child path

theorem resolve_append (id : NodeId) (path rest : List (List Char)) :
    d.resolve id (path ++ rest) = (d.resolve id path).bind fun next => d.resolve next rest := by
  induction path generalizing id with
  | nil => rfl
  | cons name path ih =>
    simp only [cons_append, resolve, bind_assoc]
    congr 1
    funext child
    exact ih child

theorem resolve_concat (id : NodeId) (path : List (List Char)) (name : List Char) :
    d.resolve id (path ++ [name]) = (d.resolve id path).bind fun next => d.findChild next name := by
  simp [resolve_append, resolve]

section

variable (hd : d.WellFormed)

include hd

variable {name : List Char} {parent child : NodeId}

theorem WellFormed.findChild_iff :
    d.findChild parent name = some child ↔
      parent.dispatcher = d.id ∧ d.Child parent.index child ∧ d.nameOf child = name := by
  rw [hd.findChild_eq_some]
  constructor
  · rintro ⟨node, hnode, hmem, hname⟩
    exact ⟨(node_eq_some.mp hnode).1, child_of_node hnode hmem, hname⟩
  · rintro ⟨hid, ⟨node, hnode, hmem⟩, hname⟩
    exact ⟨node, node_eq_some.mpr ⟨hid, hnode⟩, hmem, hname⟩

theorem WellFormed.child_of_findChild
    (h : d.findChild parent name = some child) :
    d.Child parent.index child ∧ d.nameOf child = name :=
  (hd.findChild_iff.mp h).2

theorem WellFormed.node_of_findChild
    (h : d.findChild parent name = some child) :
    ∃ node, d.node child = some node ∧ node.name = name := by
  obtain ⟨hchild, hname⟩ := hd.child_of_findChild h
  obtain ⟨node, hnode, -⟩ := hd.exists_child_node hchild
  refine ⟨node, hnode, ?_⟩
  simpa [nameOf, (node_eq_some.mp hnode).2] using hname

theorem WellFormed.resolve_injective {path path' : List (List Char)} {id : NodeId}
    (h : d.resolve d.root path = some id) (h' : d.resolve d.root path' = some id) :
    path = path' := by
  induction path using List.reverseRecOn generalizing path' id with
  | nil =>
    obtain rfl : d.root = id := by simpa [resolve] using h
    rcases eq_nil_or_concat path' with rfl | ⟨init, name, rfl⟩
    · rfl
    · rw [concat_eq_append, resolve_concat, bind_eq_some_iff] at h'
      obtain ⟨parent, -, hfind⟩ := h'
      exact absurd (hd.links _ _ (hd.child_of_findChild hfind).1).2.1 (not_lt_zero _)
  | append_singleton path name ih =>
    rw [resolve_concat, bind_eq_some_iff] at h
    obtain ⟨parent, hparent, hfind⟩ := h
    obtain ⟨hchild, hname⟩ := hd.child_of_findChild hfind
    rcases eq_nil_or_concat path' with rfl | ⟨init, name', rfl⟩
    · obtain rfl : d.root = id := by simpa [resolve] using h'
      exact absurd (hd.links _ _ hchild).2.1 (not_lt_zero _)
    · rw [concat_eq_append, resolve_concat, bind_eq_some_iff] at h'
      obtain ⟨parent', hparent', hfind'⟩ := h'
      obtain ⟨hchild', hname'⟩ := hd.child_of_findChild hfind'
      have hindex := hd.parent_unique hchild hchild'
      have hid : parent = parent' := by
        obtain ⟨node, hnode, -⟩ := hd.findChild_eq_some.mp hfind
        obtain ⟨node', hnode', -⟩ := hd.findChild_eq_some.mp hfind'
        have hdispatcher := (node_eq_some.mp hnode).1.trans (node_eq_some.mp hnode').1.symm
        obtain ⟨_, _⟩ := parent
        simp_all
      subst hid
      rw [concat_eq_append, ih hparent hparent', ← hname, ← hname']

theorem WellFormed.findChild_replaceExecutor (id : NodeId) (executor : Option R.Executor)
    (parent : NodeId) (name : List Char) :
    (d.replaceExecutor id executor).findChild parent name = d.findChild parent name := by
  ext child
  rw [(hd.replaceExecutor id executor).findChild_iff, hd.findChild_iff, child_replaceExecutor]
  refine and_congr_right fun _ => and_congr_right fun hchild => ?_
  rw [(extends_replaceExecutor d id executor).nameOf (hd.links _ _ hchild).2.2]

theorem WellFormed.resolve_replaceExecutor (id : NodeId) (executor : Option R.Executor)
    (start : NodeId) (path : List (List Char)) :
    (d.replaceExecutor id executor).resolve start path = d.resolve start path := by
  induction path generalizing start with
  | nil => rfl
  | cons name path ih => simp only [resolve, hd.findChild_replaceExecutor, ih]

end

section Push

variable {parent : NodeId} {node parentNode : CommandNode R}

section

variable (hd : d.WellFormed) (hd' : (d.pushNode parent node).WellFormed)
  (hparent : d.node parent = some parentNode) (hchildren : node.children = [])

include hd hd' hparent hchildren

theorem WellFormed.findChild_pushNode {start child : NodeId} :
    (d.pushNode parent node).findChild start name = some child ↔
      d.findChild start name = some child ∨
        start = parent ∧ name = node.name ∧ child = ⟨d.id, d.nodes.length⟩ := by
  have hnew : (d.pushNode parent node).nameOf ⟨d.id, d.nodes.length⟩ = node.name := by
    simp [CommandDispatcher.nameOf, pushNode_last hparent]
  rw [hd'.findChild_iff, hd.findChild_iff, child_pushNode hparent hchildren]
  constructor
  · rintro ⟨hid, hchild | ⟨hstart, rfl⟩, hname⟩
    · rw [(extends_pushNode d parent node).nameOf (hd.links _ _ hchild).2.2] at hname
      exact .inl ⟨hid, hchild, hname⟩
    · refine .inr ⟨?_, hname.symm.trans hnew, rfl⟩
      have hdispatcher : start.dispatcher = parent.dispatcher :=
        Eq.trans hid (node_eq_some.mp hparent).1.symm
      obtain ⟨_, _⟩ := start
      simp_all
  · rintro (⟨hid, hchild, hname⟩ | ⟨rfl, rfl, rfl⟩)
    · refine ⟨hid, .inl hchild, ?_⟩
      rw [(extends_pushNode d parent node).nameOf (hd.links _ _ hchild).2.2, hname]
    · exact ⟨(node_eq_some.mp hparent).1, .inr ⟨rfl, rfl⟩, hnew⟩

theorem WellFormed.resolve_pushNode {start id : NodeId} {path : List (List Char)}
    (hstart : start.index < d.nodes.length) :
    (d.pushNode parent node).resolve start path = some id ↔ d.resolve start path = some id ∨
        ∃ init, d.resolve start init = some parent ∧ path = init ++ [node.name] ∧
          id = ⟨d.id, d.nodes.length⟩ := by
  induction path generalizing start with
  | nil => simp [resolve]
  | cons name path ih =>
    have hfind : ∀ {child}, (d.pushNode parent node).findChild start name = some child ↔
        d.findChild start name = some child ∨
          start = parent ∧ name = node.name ∧ child = ⟨d.id, d.nodes.length⟩ :=
      hd.findChild_pushNode hd' hparent hchildren
    simp only [resolve, bind_eq_some_iff]
    constructor
    · rintro ⟨child, hchild, hpath⟩
      rcases hfind.mp hchild with hold | ⟨rfl, rfl, rfl⟩
      · have hlt := (hd.links _ _ (hd.child_of_findChild hold).1).2.2
        rcases (ih hlt).mp hpath with hpath | ⟨init, hinit, rfl, rfl⟩
        · exact .inl ⟨child, hold, hpath⟩
        · refine .inr ⟨name :: init, ?_, rfl, rfl⟩
          simp [resolve, hold, hinit]
      · cases path with
        | nil =>
          obtain rfl : _ = id := by simpa [resolve] using hpath
          exact .inr ⟨[], rfl, rfl, rfl⟩
        | cons next path =>
          rw [resolve, bind_eq_some_iff] at hpath
          obtain ⟨child, hchild, -⟩ := hpath
          obtain ⟨other, hother, hmem⟩ := (hd'.child_of_findChild hchild).1
          rw [pushNode_last hparent] at hother
          obtain rfl := Option.some.inj hother
          simp [hchildren] at hmem
    · rintro (⟨child, hchild, hpath⟩ | ⟨init, hinit, hpath, rfl⟩)
      · have hlt := (hd.links _ _ (hd.child_of_findChild hchild).1).2.2
        exact ⟨child, hfind.mpr (.inl hchild), (ih hlt).mpr (.inl hpath)⟩
      · cases init with
        | nil =>
          obtain rfl : start = parent := by simpa [resolve] using hinit
          obtain ⟨rfl, rfl⟩ : name = node.name ∧ path = [] := by simpa using hpath
          exact ⟨_, hfind.mpr (.inr ⟨rfl, rfl, rfl⟩), rfl⟩
        | cons first init =>
          obtain ⟨rfl, rfl⟩ : name = first ∧ path = init ++ [node.name] := by simpa using hpath
          rw [resolve, bind_eq_some_iff] at hinit
          obtain ⟨child, hchild, hinit⟩ := hinit
          have hlt := (hd.links _ _ (hd.child_of_findChild hchild).1).2.2
          exact ⟨child, hfind.mpr (.inl hchild), (ih hlt).mpr (.inr ⟨init, hinit, rfl, rfl⟩)⟩

end

end Push

end CommandDispatcher

end Steel
