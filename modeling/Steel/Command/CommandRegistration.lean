import Steel.Command.CommandGraph
import Steel.Lib.Fallible

/-! # Registration

A registration checks its tree before it changes anything, and then adds the paths of the tree to
the paths of the arena.
-/

namespace Steel

open Steel.Except List CommandNodeData CommandRedirect

variable {S : Type} {R : CommandRuntime S} {d d' : CommandDispatcher R}

namespace CommandNodeBuilder

/-- The nodes of a tree with their paths of names. -/
inductive At : CommandNodeBuilder R → List (List Char) → CommandNodeBuilder R → Prop where
  | self (tree : CommandNodeBuilder R) : At tree [tree.name] tree
  | child {tree child node : CommandNodeBuilder R} {path : List (List Char)} :
      child ∈ tree.children → At child path node → At tree (tree.name :: path) node

variable {tree : CommandNodeBuilder R}

theorem At.head {node : CommandNodeBuilder R} {path : List (List Char)} (h : tree.At path node) :
    ∃ rest, path = tree.name :: rest := by
  cases h with
  | self => exact ⟨[], rfl⟩
  | child => exact ⟨_, rfl⟩

/-- Siblings have distinct names, and nodes that redirect have no children. -/
inductive Normal : CommandNodeBuilder R → Prop where
  | mk {tree : CommandNodeBuilder R} : (∀ child ∈ tree.children, Normal child) →
      (tree.children.map name).Nodup → (tree.redirect.isSome → tree.children = []) → Normal tree

theorem Normal.child {tree child : CommandNodeBuilder R} (h : tree.Normal)
    (hc : child ∈ tree.children) : child.Normal := by
  cases h with
  | mk hchildren _ _ => exact hchildren child hc

theorem Normal.nodup (h : tree.Normal) : (tree.children.map name).Nodup := by
  cases h with
  | mk _ hnames _ => exact hnames

theorem Normal.redirect_eq_none (h : tree.Normal) (hc : tree.children ≠ []) :
    tree.redirect = none := by
  cases h with
  | mk _ _ hleaf =>
    cases hredirect : tree.redirect with
    | none => rfl
    | some redirect => exact absurd (hleaf (by simp [hredirect])) hc

end CommandNodeBuilder

/-- The same literal, or an argument of the same name with an equal parser. -/
def CommandNodeData.Agrees : CommandNodeData R → CommandNodeData R → Prop
  | literal first, literal second => first = second
  | argument firstName firstType, argument secondName secondType =>
    firstName = secondName ∧ R.sameArgument firstType secondType = true
  | _, _ => False

/-- A registered node stands for a node of a tree. -/
structure CommandNode.Stands (node : CommandNode R) (tree : CommandNodeBuilder R) : Prop where
  data : node.data = tree.data ∨ node.data.Agrees tree.data
  requirement : node.requirement = tree.requirement
  executionRequirement : node.executionRequirement = tree.executionRequirement
  redirect : node.redirect = tree.redirect

variable {tree : CommandNodeBuilder R}

theorem CommandNode.SameLabel.stands {node node' : CommandNode R} (h : node'.SameLabel node)
    (hs : node.Stands tree) : node'.Stands tree where
  data := h.data ▸ hs.data
  requirement := h.requirement.trans hs.requirement
  executionRequirement := h.executionRequirement.trans hs.executionRequirement
  redirect := h.redirect.trans hs.redirect

theorem agrees_of_collisionWith {data other : CommandNodeData R}
    (h : data.collisionWith other = none) : data.Agrees other := by
  rw [collisionWith.eq_def] at h
  split at h
  · split at h
    · assumption
    · cases h
  · split at h
    · split at h
      · exact ⟨‹_›, ‹_›⟩
      · cases h
    · cases h
  · cases h

theorem CommandRequirement.eq_of_isCompatibleWith {a b : CommandRequirement R}
    (h : a.isCompatibleWith b = true) : a = b := by
  obtain ⟨hkind, hpredicate⟩ : a.kind = b.kind ∧ a.predicate = b.predicate := by
    simpa [isCompatibleWith] using h
  obtain ⟨_, _⟩ := a
  exact congrArg₂ _ hpredicate hkind

theorem eq_of_redirectsAreCompatible {a b : Option (CommandRedirect R)}
    (h : redirectsAreCompatible a b = true) : a = b := by
  cases a with
  | none =>
    cases b with
    | none => rfl
    | some b => simp [redirectsAreCompatible] at h
  | some a =>
    cases b with
    | none => simp [redirectsAreCompatible] at h
    | some b =>
      obtain ⟨htarget, hforks, hmodifier⟩ :
          a.target = b.target ∧ a.forks = b.forks ∧ a.modifier = b.modifier := by
        simpa [redirectsAreCompatible, isCompatibleWith] using h
      obtain ⟨_, _, _⟩ := a
      simp_all

variable {incoming : UnregisteredCommandNode R} {redirect : Option (CommandRedirect R)}

theorem validateCompatible_ok {data : CommandNodeData R}
    {requirement executionRequirement : CommandRequirement R}
    (h : validateCompatible data requirement executionRequirement redirect incoming = .ok ()) :
    data.Agrees incoming.data ∧ requirement = incoming.requirement ∧
      executionRequirement = incoming.executionRequirement ∧ redirect = incoming.redirect := by
  rw [validateCompatible] at h
  split at h
  · cases h
  rename_i hdata
  split at h
  · cases h
  rename_i hrequirement
  split at h
  · cases h
  rename_i hexecution
  split at h
  · cases h
  rename_i hredirect
  simp only [Bool.not_eq_true, Bool.not_eq_false'] at hrequirement hexecution hredirect
  exact ⟨agrees_of_collisionWith hdata, CommandRequirement.eq_of_isCompatibleWith hrequirement,
    CommandRequirement.eq_of_isCompatibleWith hexecution, eq_of_redirectsAreCompatible hredirect⟩

namespace CommandNodeBuilder

/-- Normal siblings of distinct names. -/
structure NormalForest (nodes : List (CommandNodeBuilder R)) : Prop where
  normal : ∀ node ∈ nodes, node.Normal
  nodup : (nodes.map name).Nodup

theorem Normal.children (h : tree.Normal) :
    NormalForest tree.children :=
  ⟨fun _ hc => h.child hc, h.nodup⟩

variable {nodes result : List (UnregisteredCommandNode R)}

theorem mergeOrPushWith_names {merge : UnregisteredCommandNode R →
      Except RegistrationErrorKind (UnregisteredCommandNode R)}
    (hmerge : ∀ node ∈ nodes, ∀ merged, merge node = .ok merged → merged.name = node.name)
    (h : mergeOrPushWith merge incoming nodes = .ok result) :
    result.map name = if incoming.name ∈ nodes.map name then nodes.map name
      else nodes.map name ++ [incoming.name] := by
  induction nodes generalizing result with
  | nil =>
    obtain rfl : [incoming] = result := by simpa [mergeOrPushWith, pure, Except.pure] using h
    simp
  | cons node nodes ih =>
    rw [mergeOrPushWith] at h
    split at h
    · rename_i hname
      obtain ⟨merged, hmerged, h⟩ := bind_eq_ok.mp h
      obtain rfl : merged :: nodes = result := by simpa [pure, Except.pure] using h
      simp [hmerge node mem_cons_self merged hmerged, hname]
    · rename_i hname
      obtain ⟨rest, hrest, h⟩ := bind_eq_ok.mp h
      obtain rfl : node :: rest = result := by simpa [pure, Except.pure] using h
      have hnames := ih (fun other hother => hmerge other (mem_cons_of_mem _ hother)) hrest
      simp only [map_cons, hnames, mem_cons, Ne.symm hname, false_or]
      split <;> simp

theorem NormalForest.mergeOrPushWith {merge : UnregisteredCommandNode R →
      Except RegistrationErrorKind (UnregisteredCommandNode R)}
    (hnodes : NormalForest nodes) (hincoming : incoming.Normal)
    (hmerge : ∀ node ∈ nodes, ∀ merged, merge node = .ok merged →
      merged.Normal ∧ merged.name = node.name)
    (h : Steel.mergeOrPushWith merge incoming nodes = .ok result) : NormalForest result := by
  refine ⟨?_, ?_⟩
  · obtain ⟨hnormal, -⟩ := hnodes
    induction nodes generalizing result with
    | nil =>
      obtain rfl : [incoming] = result := by
        simpa [Steel.mergeOrPushWith, pure, Except.pure] using h
      simpa using hincoming
    | cons node nodes ih =>
      have htail : ∀ other ∈ nodes, other.Normal :=
        fun other hother => hnormal other (mem_cons_of_mem _ hother)
      rw [Steel.mergeOrPushWith] at h
      split at h
      · obtain ⟨merged, hmerged, h⟩ := bind_eq_ok.mp h
        obtain rfl : merged :: nodes = result := by simpa [pure, Except.pure] using h
        intro other hother
        rcases mem_cons.mp hother with rfl | hother
        · exact (hmerge node mem_cons_self other hmerged).1
        · exact htail other hother
      · obtain ⟨rest, hrest, h⟩ := bind_eq_ok.mp h
        obtain rfl : node :: rest = result := by simpa [pure, Except.pure] using h
        have hrest := ih (fun other hother => hmerge other (mem_cons_of_mem _ hother)) hrest
          htail
        intro other hother
        rcases mem_cons.mp hother with rfl | hother
        · exact hnormal other mem_cons_self
        · exact hrest other hother
  · rw [mergeOrPushWith_names (fun node hnode merged hm => (hmerge node hnode merged hm).2) h]
    split
    · exact hnodes.nodup
    · rename_i hnot
      refine nodup_append.mpr ⟨hnodes.nodup, by simp, ?_⟩
      rintro a ha b hb rfl
      obtain rfl : a = incoming.name := by simpa using hb
      exact hnot ha

mutual

theorem Normal.merge {node : UnregisteredCommandNode R} (hnode : node.Normal) :
    ∀ {incoming merged : UnregisteredCommandNode R}, incoming.Normal →
      node.merge incoming = .ok merged → merged.Normal ∧ merged.name = node.name
  | mk data kind_ne children executor requirement executionRequirement redirect, merged,
      hincoming, h => by
    rw [CommandNodeBuilder.merge] at h
    obtain ⟨⟨⟩, hvalid, h⟩ := bind_eq_ok.mp h
    obtain ⟨result, hresult, h⟩ := bind_eq_ok.mp h
    obtain rfl : _ = merged := by simpa [pure, Except.pure] using h
    refine ⟨?_, rfl⟩
    obtain ⟨hnormal, hnames⟩ := hnode.children.mergeChildren hincoming.children hresult
    refine .mk hnormal hnames ?_
    intro hredirect
    have hsame : node.redirect = redirect := (validateCompatible_ok hvalid).2.2.2
    have hempty : node.children = [] := by
      by_contra hne
      have hnone := hnode.redirect_eq_none hne
      rw [CommandNodeBuilder.redirect, hnone] at hredirect
      cases hredirect
    have hempty' : children = [] := by
      by_contra hne
      have hnone : redirect = none := hincoming.redirect_eq_none hne
      rw [CommandNodeBuilder.redirect, hsame, hnone] at hredirect
      cases hredirect
    subst hempty'
    rw [hempty, mergeChildren] at hresult
    obtain rfl : [] = result := by simpa [pure, Except.pure] using hresult
    rfl

theorem NormalForest.mergeChildren {nodes : List (UnregisteredCommandNode R)}
    (hnodes : NormalForest nodes) : ∀ {incoming result : List (UnregisteredCommandNode R)},
      NormalForest incoming → CommandNodeBuilder.mergeChildren nodes incoming = .ok result →
        NormalForest result
  | [], result, _, h => by
    rw [CommandNodeBuilder.mergeChildren] at h
    obtain rfl : nodes = result := by simpa [pure, Except.pure] using h
    exact hnodes
  | child :: children, result, hincoming, h => by
    rw [CommandNodeBuilder.mergeChildren] at h
    obtain ⟨next, hnext, h⟩ := bind_eq_ok.mp h
    have hchild := hincoming.normal child mem_cons_self
    have hmerged := hnodes.mergeOrPushWith hchild
      (fun node hnode merged hm => (hnodes.normal node hnode).merge hchild hm) hnext
    exact hmerged.mergeChildren ⟨fun node hn => hincoming.normal node (mem_cons_of_mem _ hn),
      (nodup_cons.mp hincoming.nodup).2⟩ h

end

mutual

theorem normal_of_normalize : ∀ {builder tree : CommandNodeBuilder R},
    builder.normalize = .ok tree → tree.Normal
  | mk data kind_ne children executor requirement executionRequirement redirect, tree, h => by
    rw [normalize] at h
    obtain ⟨result, hresult, h⟩ := bind_eq_ok.mp h
    obtain ⟨hnormal, hnames⟩ := normalForest_of_normalizeChildren ⟨by simp, by simp⟩ hresult
    split at h
    · cases h
    · rename_i hleaf
      obtain rfl : _ = tree := by simpa [pure, Except.pure] using h
      refine .mk hnormal hnames ?_
      intro hredirect
      simpa [CommandNodeBuilder.redirect, CommandNodeBuilder.children] using
        fun hne => hleaf ⟨hredirect, hne⟩

theorem normalForest_of_normalizeChildren : ∀ {builders nodes result : List (CommandNodeBuilder R)},
    NormalForest nodes → normalizeChildren builders nodes = .ok result → NormalForest result
  | [], nodes, result, hnodes, h => by
    rw [normalizeChildren] at h
    obtain rfl : nodes = result := by simpa [pure, Except.pure] using h
    exact hnodes
  | builder :: builders, nodes, result, hnodes, h => by
    rw [normalizeChildren] at h
    obtain ⟨tree, htree, h⟩ := bind_eq_ok.mp h
    obtain ⟨next, hnext, h⟩ := bind_eq_ok.mp h
    have hnormal := normal_of_normalize htree
    have hmerged := hnodes.mergeOrPushWith hnormal
      (fun node hnode merged hm => (hnodes.normal node hnode).merge hnormal hm) hnext
    exact normalForest_of_normalizeChildren hmerged h

end

end CommandNodeBuilder

namespace CommandDispatcher

theorem WellFormed.root_lt (hd : d.WellFormed) : d.root.index < d.nodes.length := by
  obtain ⟨node, hnode, -⟩ := hd.root
  exact (List.getElem?_eq_some_iff.mp hnode).1

variable {id : NodeId} {path : List (List Char)}
  {P Q : List (List Char) → CommandNodeBuilder R → Prop} {tree : CommandNodeBuilder R}

theorem WellFormed.node_of_resolve (hd : d.WellFormed) {start : NodeId}
    (hstart : (d.node start).isSome) (h : d.resolve start path = some id) : (d.node id).isSome := by
  induction path generalizing start with
  | nil =>
    obtain rfl : start = id := by simpa [resolve] using h
    exact hstart
  | cons name path ih =>
    rw [resolve, Option.bind_eq_some_iff] at h
    obtain ⟨child, hchild, hpath⟩ := h
    obtain ⟨node, hnode, -⟩ := hd.node_of_findChild hchild
    exact ih (by simp [hnode]) hpath

theorem WellFormed.node_of_path (hd : d.WellFormed) (h : d.resolve d.root path = some id) :
    ∃ node, d.node id = some node :=
  Option.isSome_iff_exists.mp
    (hd.node_of_resolve (node_isSome.mpr ⟨rfl, hd.root_lt⟩) h)

theorem WellFormed.exists_path (hd : d.WellFormed) {node : CommandNode R}
    (h : d.node id = some node) : ∃ path, d.resolve d.root path = some id := by
  obtain ⟨dispatcher, i⟩ := id
  obtain ⟨rfl, hnode⟩ := node_eq_some.mp h
  induction i using Nat.strongRecOn generalizing node with
  | ind i ih =>
    rcases Nat.eq_zero_or_pos i with rfl | hpos
    · exact ⟨[], rfl⟩
    · obtain ⟨p, hp, -⟩ := hd.parent i hpos (List.getElem?_eq_some_iff.mp hnode).1
      obtain ⟨parent, hparent, hmem⟩ := hp
      obtain ⟨path, hpath⟩ := ih p (hd.links p _ ⟨parent, hparent, hmem⟩).2.1
        (node_eq_some.mpr ⟨rfl, hparent⟩) hparent
      refine ⟨path ++ [d.nameOf ⟨d.id, i⟩], ?_⟩
      rw [resolve_concat, hpath, Option.bind_some]
      exact hd.findChild_iff.mpr ⟨rfl, ⟨parent, hparent, hmem⟩, rfl⟩

/-- The arena has gained the given paths, whose nodes stand for the given trees. -/
structure Merged (d : CommandDispatcher R)
    (paths : List (List Char) → CommandNodeBuilder R → Prop) (d' : CommandDispatcher R) :
    Prop where
  wellFormed : d'.WellFormed
  extends_ : d.Extends d'
  keeps : ∀ path id, d.resolve d.root path = some id → d'.resolve d'.root path = some id
  only : ∀ path id, d'.resolve d'.root path = some id →
    d.resolve d.root path = some id ∨ ∃ tree, paths path tree
  adds : ∀ path tree, paths path tree → ∃ id node, d'.resolve d'.root path = some id ∧
    d'.node id = some node ∧ node.Stands tree ∧
      node.executor = tree.executor.or ((d.node id).bind (·.executor))
  executors : ∀ path id node node', (∀ tree, ¬ paths path tree) →
    d.resolve d.root path = some id → d.node id = some node → d'.node id = some node' →
      node'.executor = node.executor

theorem WellFormed.merged_refl (hd : d.WellFormed) : d.Merged (fun _ _ => False) d where
  wellFormed := hd
  extends_ := .refl d
  keeps := fun _ _ h => h
  only := fun _ _ h => .inl h
  adds := fun _ _ h => h.elim
  executors := by
    intro path id node node' _ _ hnode hnode'
    obtain rfl := Option.some.inj (hnode.symm.trans hnode')
    rfl

theorem Merged.trans (hd : d.WellFormed) {d₁ d₂ : CommandDispatcher R} (h : d.Merged P d₁)
    (h' : d₁.Merged Q d₂) (hdisjoint : ∀ path tree tree', P path tree → ¬ Q path tree') :
    d.Merged (fun path tree => P path tree ∨ Q path tree) d₂ where
  wellFormed := h'.wellFormed
  extends_ := h.extends_.trans h'.extends_
  keeps := fun path id hpath => h'.keeps path id (h.keeps path id hpath)
  only := by
    intro path id hpath
    rcases h'.only path id hpath with hpath | ⟨tree, htree⟩
    · rcases h.only path id hpath with hpath | ⟨tree, htree⟩
      · exact .inl hpath
      · exact .inr ⟨tree, .inl htree⟩
    · exact .inr ⟨tree, .inr htree⟩
  adds := by
    rintro path tree (htree | htree)
    · obtain ⟨id, node, hpath, hnode, hstands, hexecutor⟩ := h.adds path tree htree
      obtain ⟨node', hnode', hlabel⟩ := h'.extends_.node hnode
      refine ⟨id, node', h'.keeps path id hpath, hnode', hlabel.stands hstands, ?_⟩
      rw [← hexecutor]
      exact h'.executors path id node node' (fun tree' => hdisjoint path tree tree' htree) hpath
        hnode hnode'
    · obtain ⟨id, node, hpath, hnode, hstands, hexecutor⟩ := h'.adds path tree htree
      refine ⟨id, node, hpath, hnode, hstands, ?_⟩
      rw [hexecutor]
      have hnot : ∀ tree', ¬ P path tree' := fun tree' hp => hdisjoint path tree' tree hp htree
      congr 1
      cases hfirst : d₁.node id with
      | none =>
        cases hzero : d.node id with
        | none => rfl
        | some old =>
          obtain ⟨_, hold, -⟩ := h.extends_.node hzero
          simp [hfirst] at hold
      | some first =>
        obtain ⟨path', hpath'⟩ := h.wellFormed.exists_path hfirst
        obtain rfl := h'.wellFormed.resolve_injective (h'.keeps path' id hpath') hpath
        rcases h.only path' id hpath' with hzero | ⟨tree', htree'⟩
        · obtain ⟨old, hold⟩ := hd.node_of_path hzero
          simp [hold, h.executors path' id old first hnot hzero hold hfirst]
        · exact absurd htree' (hnot tree')
  executors := by
    intro path id node node' hnot hpath hnode hnode'
    obtain ⟨first, hfirst, -⟩ := h.extends_.node hnode
    rw [h'.executors path id first node' (fun tree hq => hnot tree (.inr hq))
      (h.keeps path id hpath) hfirst hnode']
    exact h.executors path id node first (fun tree hp => hnot tree (.inl hp)) hpath hnode hfirst

/-- The nodes that exist on the given paths stand for the given trees. -/
def Compatible (d : CommandDispatcher R)
    (paths : List (List Char) → CommandNodeBuilder R → Prop) : Prop :=
  ∀ path tree, paths path tree → ∀ id node, d.resolve d.root path = some id →
    d.node id = some node → node.Stands tree

theorem Compatible.merged (hd : d.WellFormed) {d₁ : CommandDispatcher R} (hq : d.Compatible Q)
    (h : d.Merged P d₁) (hdisjoint : ∀ path tree tree', P path tree → ¬ Q path tree') :
    d₁.Compatible Q := by
  intro path tree htree id node hpath hnode
  rcases h.only path id hpath with hold | ⟨tree', htree'⟩
  · obtain ⟨old, hzero⟩ := hd.node_of_path hold
    obtain ⟨node', hnode', hlabel⟩ := h.extends_.node hzero
    obtain rfl := Option.some.inj (hnode.symm.trans hnode')
    exact hlabel.stands (hq path tree htree id old hold hzero)
  · exact absurd htree (hdisjoint path tree' tree htree')

def Single (path : List (List Char)) (tree : CommandNodeBuilder R)
    (path' : List (List Char)) (tree' : CommandNodeBuilder R) : Prop :=
  path' = path ∧ tree' = tree

variable {executor : Option R.Executor}

theorem node_replaceExecutor {node : CommandNode R}
    (h : d.node id = some node) : (d.replaceExecutor id executor).node id =
      some { node with executor := executor.or node.executor } := by
  obtain ⟨hid, hat⟩ := node_eq_some.mp h
  refine node_eq_some.mpr ⟨hid, ?_⟩
  rw [replaceExecutor, List.getElem?_modify_eq, hat]
  rfl

theorem node_replaceExecutor_ne {other : NodeId}
    (h : id.index ≠ other.index) : (d.replaceExecutor id executor).node other = d.node other := by
  rw [CommandDispatcher.node, CommandDispatcher.node, replaceExecutor,
    List.getElem?_modify_ne _ _ h]

theorem WellFormed.merged_replaceExecutor (hd : d.WellFormed)
    (hpath : d.resolve d.root path = some id) (hcompatible : d.Compatible (Single path tree)) :
    d.Merged (Single path tree) (d.replaceExecutor id tree.executor) where
  wellFormed := hd.replaceExecutor id tree.executor
  extends_ := extends_replaceExecutor d id tree.executor
  keeps := by
    intro other id' h
    rwa [hd.resolve_replaceExecutor]
  only := by
    intro other id' h
    rw [hd.resolve_replaceExecutor] at h
    exact .inl h
  adds := by
    rintro other tree' ⟨rfl, rfl⟩
    obtain ⟨node, hnode⟩ := hd.node_of_path hpath
    have hstands := hcompatible other tree' ⟨rfl, rfl⟩ id node hpath hnode
    refine ⟨id, _, ?_, node_replaceExecutor hnode, ?_, ?_⟩
    · rwa [hd.resolve_replaceExecutor]
    · exact ⟨hstands.data, hstands.requirement, hstands.executionRequirement, hstands.redirect⟩
    · simp [hnode]
  executors := by
    intro other id' node node' hnot hother hnode hnode'
    have hne : id.index ≠ id'.index := by
      intro heq
      obtain ⟨atId, hatId⟩ := hd.node_of_path hpath
      have hid : id = id' := by
        have hdispatcher := (node_eq_some.mp hatId).1.trans (node_eq_some.mp hnode).1.symm
        obtain ⟨_, _⟩ := id
        simp_all
      subst hid
      exact hnot tree ⟨hd.resolve_injective hother hpath, rfl⟩
    rw [node_replaceExecutor_ne hne] at hnode'
    obtain rfl := Option.some.inj (hnode.symm.trans hnode')
    rfl

def allocated (tree : CommandNodeBuilder R) : CommandNode R :=
  ⟨tree.data, [], tree.executor, tree.requirement, tree.executionRequirement, tree.redirect⟩

theorem WellFormed.merged_pushNode (hd : d.WellFormed) {parent : NodeId}
    {parentNode : CommandNode R} (hpath : d.resolve d.root path = some parent)
    (hparent : d.node parent = some parentNode) (hredirect : parentNode.redirect = none)
    (hfind : d.findChild parent tree.name = none)
    (htargets : TargetsIn d.id (d.nodes.length + 1) tree.redirect) :
    d.Merged (Single (path ++ [tree.name]) tree) (d.pushNode parent (allocated tree)) ∧
      (d.pushNode parent (allocated tree)).resolve d.root (path ++ [tree.name]) =
        some ⟨d.id, d.nodes.length⟩ := by
  have hd' : (d.pushNode parent (allocated tree)).WellFormed :=
    hd.pushNode hparent hredirect rfl tree.kind_ne hfind htargets
  have hresolve : ∀ {other : List (List Char)} {id : NodeId},
      (d.pushNode parent (allocated tree)).resolve d.root other = some id ↔
        d.resolve d.root other = some id ∨ ∃ init, d.resolve d.root init = some parent ∧
          other = init ++ [tree.name] ∧ id = ⟨d.id, d.nodes.length⟩ :=
    hd.resolve_pushNode hd' hparent rfl hd.root_lt
  have hnew : (d.pushNode parent (allocated tree)).resolve d.root (path ++ [tree.name]) =
      some ⟨d.id, d.nodes.length⟩ := hresolve.mpr (.inr ⟨path, hpath, rfl, rfl⟩)
  have hat : (d.pushNode parent (allocated tree)).node ⟨d.id, d.nodes.length⟩ =
      some (allocated tree) := node_eq_some.mpr ⟨rfl, pushNode_last hparent⟩
  refine ⟨⟨hd', extends_pushNode d parent _, fun other id h => hresolve.mpr (.inl h), ?_, ?_, ?_⟩,
    hnew⟩
  · intro other id h
    rcases hresolve.mp h with h | ⟨init, hinit, rfl, -⟩
    · exact .inl h
    · obtain rfl := hd.resolve_injective hinit hpath
      exact .inr ⟨tree, rfl, rfl⟩
  · rintro other tree' ⟨rfl, rfl⟩
    refine ⟨_, _, hnew, hat, ⟨.inl rfl, rfl, rfl, rfl⟩, ?_⟩
    have hnone : d.node ⟨d.id, d.nodes.length⟩ = none := by simp [CommandDispatcher.node]
    simp [hnone, allocated]
  · intro other id node node' _ hother hnode hnode'
    obtain ⟨hid, hold⟩ := node_eq_some.mp hnode
    have hlt := (List.getElem?_eq_some_iff.mp hold).1
    have hnode' := (node_eq_some.mp hnode').2
    rw [CommandDispatcher.pushNode, List.getElem?_modify, List.getElem?_append_left hlt,
      hold] at hnode'
    obtain rfl : _ = node' := by simpa using hnode'
    split <;> rfl

def Forest (base : List (List Char)) (trees : List (CommandNodeBuilder R))
    (path : List (List Char)) (node : CommandNodeBuilder R) : Prop :=
  ∃ tree ∈ trees, ∃ rest, tree.At rest node ∧ path = base ++ rest

variable (base : List (List Char))

theorem forest_nil : Forest base ([] : List (CommandNodeBuilder R)) = fun _ _ => False := by
  funext path node
  simp [Forest]

theorem forest_cons (tree : CommandNodeBuilder R)
    (trees : List (CommandNodeBuilder R)) : Forest base (tree :: trees) =
      fun path node => Forest base [tree] path node ∨ Forest base trees path node := by
  funext path node
  simp [Forest]

theorem forest_singleton (tree : CommandNodeBuilder R) :
    Forest base [tree] = fun path node => Single (base ++ [tree.name]) tree path node ∨
      Forest (base ++ [tree.name]) tree.children path node := by
  funext path node
  apply propext
  constructor
  · rintro ⟨other, hother, rest, hat, rfl⟩
    obtain rfl : other = tree := by simpa using hother
    cases hat with
    | self => exact .inl ⟨rfl, rfl⟩
    | child hmem hat => exact .inr ⟨_, hmem, _, hat, by simp⟩
  · rintro (⟨rfl, rfl⟩ | ⟨child, hmem, rest, hat, rfl⟩)
    · exact ⟨node, by simp, _, .self node, rfl⟩
    · exact ⟨tree, by simp, _, .child hmem hat, by simp⟩

variable {trees : List (CommandNodeBuilder R)} {node node' : CommandNodeBuilder R}

theorem single_disjoint_forest {base : List (List Char)} (h : Single base tree path node) :
    ¬ Forest base trees path node' := by
  obtain ⟨rfl, rfl⟩ := h
  rintro ⟨other, -, rest, hat, heq⟩
  obtain ⟨tail, rfl⟩ := hat.head
  simp at heq

theorem forest_disjoint {base : List (List Char)}
    (hname : tree.name ∉ trees.map CommandNodeBuilder.name)
    (h : Forest base [tree] path node) : ¬ Forest base trees path node' := by
  obtain ⟨first, hfirst, rest, hat, rfl⟩ := h
  obtain rfl : first = tree := by simpa using hfirst
  rintro ⟨other, hother, rest', hat', heq⟩
  obtain ⟨tail, rfl⟩ := hat.head
  obtain ⟨tail', rfl⟩ := hat'.head
  obtain ⟨hsame, -⟩ : first.name = other.name ∧ tail = tail' := by simpa using heq
  exact hname (mem_map.mpr ⟨other, hother, hsame.symm⟩)

theorem Compatible.mono (h : d.Compatible Q) (hsub : ∀ path tree, P path tree → Q path tree) :
    d.Compatible P :=
  fun path tree hp => h path tree (hsub path tree hp)

/-- All redirects of a tree lead into an arena of a length. -/
def TreeTargetsIn (id length : ℕ) (tree : CommandNodeBuilder R) : Prop :=
  ∀ path node, tree.At path node → TargetsIn id length node.redirect

theorem TreeTargetsIn.child {id length : ℕ} {child : CommandNodeBuilder R}
    (h : TreeTargetsIn id length tree) (hc : child ∈ tree.children) :
    TreeTargetsIn id length child :=
  fun _ node hat => h _ node (.child hc hat)

theorem TargetsIn.mono {id length length' : ℕ}
    (h : TargetsIn id length redirect) (hle : length ≤ length') :
    TargetsIn id length' redirect := by
  intro r hr
  obtain ⟨target, htarget, hid, hlt⟩ := h r hr
  exact ⟨target, htarget, hid, by omega⟩

mutual

/-- Merging a tree below a node adds the paths of the tree. Its redirects may lead to the
node that the merge allocates first. -/
theorem merged_applyMerge : ∀ {tree : UnregisteredCommandNode R} {d : CommandDispatcher R}
    {base : List (List Char)} {parent : NodeId} {parentNode : CommandNode R} {length : ℕ},
    d.WellFormed → d.resolve d.root base = some parent → d.node parent = some parentNode →
    parentNode.redirect = none → tree.Normal → TreeTargetsIn d.id length tree →
    length ≤ d.nodes.length + 1 →
    (d.findChild parent tree.name ≠ none → length ≤ d.nodes.length) →
    d.Compatible (Forest base [tree]) →
      d.Merged (Forest base [tree]) (d.applyMerge parent tree).1 ∧
        (d.applyMerge parent tree).1.resolve (d.applyMerge parent tree).1.root
          (base ++ [tree.name]) = some (d.applyMerge parent tree).2
  | .mk data kind_ne children executor requirement executionRequirement redirect, d, base, parent,
      parentNode, length, hd, hbase, hparent, hredirect, hnormal, htargets, hle, hlt,
      hcompatible => by
    rw [forest_singleton] at hcompatible ⊢
    rw [applyMerge]
    have hbelow : ∀ {path tree'}, Single (base ++ [data.name]) (.mk data kind_ne children executor
        requirement executionRequirement redirect) path tree' → ∀ node',
          ¬ Forest (base ++ [data.name]) children path node' :=
      fun h _ => single_disjoint_forest h
    have hroot : children ≠ [] → redirect = none := hnormal.redirect_eq_none
    split
    · rename_i existing hexisting
      have hpath : d.resolve d.root (base ++ [data.name]) = some existing := by
        rw [resolve_concat, hbase, Option.bind_some, hexisting]
      have hself := hd.merged_replaceExecutor hpath (hcompatible.mono fun _ _ => .inl)
      have hchildren := @merged_applyMerges children _ _ _ _ hself.wellFormed
        (hself.keeps _ _ hpath) (fun hne => by
          obtain ⟨_, node, hpath', hnode, hstands, -⟩ := hself.adds _ _ ⟨rfl, rfl⟩
          obtain rfl := Option.some.inj ((hself.keeps _ _ hpath).symm.trans hpath')
          exact ⟨node, hnode, hstands.redirect.trans (hroot hne)⟩)
        hnormal.children (fun child hc => htargets.child hc)
        (by rw [length_replaceExecutor]; exact hlt (by simp [CommandNodeBuilder.name,
          CommandNodeBuilder.data, hexisting]))
        ((hcompatible.mono fun _ _ => .inr).merged hd hself fun _ _ node' h => hbelow h node')
      have hall := hself.trans hd hchildren fun _ _ node' h => hbelow h node'
      exact ⟨hall, hall.keeps _ _ hpath⟩
    · rename_i hnone
      have hroots := (htargets _ _ (.self _)).mono hle
      obtain ⟨hself, hpath⟩ := hd.merged_pushNode hbase hparent hredirect
        (show d.findChild parent (CommandNodeBuilder.mk data kind_ne children executor
          requirement executionRequirement redirect).name = none from hnone) hroots
      have hchildren := @merged_applyMerges children _ _ _ _ hself.wellFormed hpath (fun hne => by
          obtain ⟨_, node, hpath', hnode, hstands, -⟩ := hself.adds _ _ ⟨rfl, rfl⟩
          obtain rfl := Option.some.inj (hpath.symm.trans hpath')
          exact ⟨node, hnode, hstands.redirect.trans (hroot hne)⟩)
        hnormal.children (fun child hc => htargets.child hc)
        (by rw [length_pushNode]; exact hle)
        ((hcompatible.mono fun _ _ => .inr).merged hd hself fun _ _ node' h => hbelow h node')
      have hall := hself.trans hd hchildren fun _ _ node' h => hbelow h node'
      exact ⟨hall, hchildren.keeps _ _ hpath⟩

theorem merged_applyMerges : ∀ {trees : List (UnregisteredCommandNode R)}
    {d : CommandDispatcher R} {base : List (List Char)} {parent : NodeId} {length : ℕ},
    d.WellFormed → d.resolve d.root base = some parent →
    (trees ≠ [] → ∃ node, d.node parent = some node ∧ node.redirect = none) →
    CommandNodeBuilder.NormalForest trees → (∀ tree ∈ trees, TreeTargetsIn d.id length tree) →
    length ≤ d.nodes.length → d.Compatible (Forest base trees) →
      d.Merged (Forest base trees) (d.applyMerges parent trees)
  | [], d, base, parent, length, hd, _, _, _, _, _, _ => by
    rw [forest_nil, applyMerges]
    exact hd.merged_refl
  | tree :: trees, d, base, parent, length, hd, hbase, hredirect, hnormal, htargets, hle,
      hcompatible => by
    rw [forest_cons] at hcompatible ⊢
    rw [applyMerges]
    obtain ⟨node, hnode, hnone⟩ := hredirect (by simp)
    obtain ⟨hname, hnodup⟩ := nodup_cons.mp hnormal.nodup
    obtain ⟨hfirst, -⟩ := merged_applyMerge hd hbase hnode hnone
      (hnormal.normal tree mem_cons_self) (htargets tree mem_cons_self) (by omega)
      (fun _ => hle) (hcompatible.mono fun _ _ => .inl)
    obtain ⟨node', hnode', hlabel⟩ := hfirst.extends_.node hnode
    have hrest := merged_applyMerges hfirst.wellFormed (hfirst.keeps _ _ hbase)
      (fun _ => ⟨node', hnode', hlabel.redirect.trans hnone⟩)
      ⟨fun other ho => hnormal.normal other (mem_cons_of_mem _ ho), hnodup⟩
      (fun other ho => hfirst.extends_.id ▸ htargets other (mem_cons_of_mem _ ho))
      (Nat.le_trans hle hfirst.extends_.length_le)
      ((hcompatible.mono fun _ _ => .inr).merged hd hfirst fun _ _ _ h => forest_disjoint hname h)
    exact hfirst.trans hd hrest fun _ _ _ h => forest_disjoint hname h

end

mutual

theorem compatible_of_validateMerge (hd : d.WellFormed) : ∀ {tree : UnregisteredCommandNode R}
    {base : List (List Char)} {parent : NodeId}, d.resolve d.root base = some parent →
      d.validateMerge parent tree = .ok () → d.Compatible (Forest base [tree])
  | .mk data kind_ne children executor requirement executionRequirement redirect, base, parent,
      hbase, h => by
    have hpath : d.resolve d.root (base ++ [data.name]) = d.findChild parent data.name := by
      rw [resolve_concat, hbase, Option.bind_some]
    rw [validateMerge] at h
    rw [forest_singleton]
    intro path node hnode
    split at h
    · rename_i hnone
      have hmissing : d.resolve d.root path = none := by
        rcases hnode with ⟨rfl, -⟩ | ⟨_, _, rest, _, rfl⟩
        · exact hpath.trans hnone
        · rw [resolve_append]
          exact congrArg (Option.bind · _) (hpath.trans hnone)
      intro id other hid
      simp [hmissing] at hid
    · rename_i existing hexisting
      have hat := hpath.trans hexisting
      obtain ⟨found, hfound⟩ := hd.node_of_path hat
      rw [(node_eq_some.mp hfound).2] at h
      obtain ⟨⟨⟩, hvalid, hrest⟩ := bind_eq_ok.mp h
      rcases hnode with ⟨rfl, rfl⟩ | hbelow
      · intro id other hid hother
        obtain rfl := Option.some.inj (hat.symm.trans hid)
        obtain rfl := Option.some.inj (hfound.symm.trans hother)
        obtain ⟨hdata, hrequirement, hexecution, hredirect⟩ := validateCompatible_ok hvalid
        exact ⟨.inr hdata, hrequirement, hexecution, hredirect⟩
      · exact compatible_of_validateMerges hd hat hrest path node hbelow

theorem compatible_of_validateMerges (hd : d.WellFormed) :
    ∀ {trees : List (UnregisteredCommandNode R)} {base : List (List Char)} {parent : NodeId},
      d.resolve d.root base = some parent → d.validateMerges parent trees = .ok () →
        d.Compatible (Forest base trees)
  | [], base, parent, _, _ => by
    rw [forest_nil]
    exact fun _ _ h => h.elim
  | tree :: trees, base, parent, hbase, h => by
    rw [validateMerges] at h
    obtain ⟨⟨⟩, hfirst, hrest⟩ := bind_eq_ok.mp h
    rw [forest_cons]
    rintro path node (hnode | hnode)
    · exact compatible_of_validateMerge hd hbase hfirst path node hnode
    · exact compatible_of_validateMerges hd hbase hrest path node hnode

end

theorem validateRedirectsAll_ok {trees : List (UnregisteredCommandNode R)}
    (h : d.validateRedirectsAll trees = .ok ()) :
    ∀ tree ∈ trees, d.validateRedirects tree = .ok () := by
  induction trees with
  | nil => simp
  | cons tree trees ih =>
    obtain ⟨⟨⟩, hfirst, hrest⟩ := bind_eq_ok.mp h
    intro other hother
    rcases mem_cons.mp hother with rfl | hother
    · exact hfirst
    · exact ih hrest other hother

theorem validateRedirects_ok {tree : UnregisteredCommandNode R}
    (h : d.validateRedirects tree = .ok ()) : d.validateRedirect tree.redirect = .ok () ∧
      ∀ child ∈ tree.children, d.validateRedirects child = .ok () := by
  cases tree
  obtain ⟨⟨⟩, hself, hrest⟩ := bind_eq_ok.mp h
  exact ⟨hself, validateRedirectsAll_ok hrest⟩

/-- Redirects of a checked tree lead to nodes that exist, or to the root of the tree. -/
theorem redirect_of_validateRedirects {tree node : UnregisteredCommandNode R}
    (h : d.validateRedirects tree = .ok ()) (hat : tree.At path node) {redirect : CommandRedirect R}
    (hredirect : node.redirect = some redirect) {target : NodeId}
    (htarget : redirect.target = .node target) : (d.node target).isSome := by
  induction hat with
  | self tree =>
    have hself := (validateRedirects_ok h).1
    obtain ⟨_, modifier, forks⟩ := redirect
    obtain rfl : _ = CommandRedirectTarget.node target := htarget
    rw [hredirect, validateRedirect] at hself
    split at hself
    · cases hself
    · rename_i hsome
      cases hnode : d.node target with
      | none => simp [hnode] at hsome
      | some _ => rfl
  | child hmem _ ih => exact ih ((validateRedirects_ok h).2 _ hmem) hredirect

end CommandDispatcher

namespace CommandNodeBuilder

variable (commandRoot : NodeId) (tree : CommandNodeBuilder R)

@[simp] theorem name_resolveCommandRoot :
    (tree.resolveCommandRoot commandRoot).name = tree.name := by
  cases tree
  rfl

@[simp] theorem redirect_resolveCommandRoot : (tree.resolveCommandRoot commandRoot).redirect =
      tree.redirect.map (·.resolveCommandRoot commandRoot) := by
  cases tree
  rfl

theorem resolveChildren_eq_map (trees : List (CommandNodeBuilder R)) :
    resolveChildren commandRoot trees = trees.map (resolveCommandRoot commandRoot) := by
  induction trees with
  | nil => simp [resolveChildren]
  | cons tree trees ih => simp [resolveChildren, ih]

@[simp] theorem children_resolveCommandRoot : (tree.resolveCommandRoot commandRoot).children =
      tree.children.map (resolveCommandRoot commandRoot) := by
  cases tree
  rw [resolveCommandRoot, ← resolveChildren_eq_map]
  rfl

variable {tree : CommandNodeBuilder R}

theorem Normal.resolveCommandRoot (h : tree.Normal) (commandRoot : NodeId) :
    (tree.resolveCommandRoot commandRoot).Normal := by
  induction h with
  | @mk tree _ hnames hleaf ih =>
    refine .mk ?_ ?_ ?_
    · intro child hchild
      rw [children_resolveCommandRoot] at hchild
      obtain ⟨old, hold, rfl⟩ := mem_map.mp hchild
      exact ih old hold
    · rw [children_resolveCommandRoot, map_map]
      have hsame : name ∘ CommandNodeBuilder.resolveCommandRoot commandRoot =
          (name : CommandNodeBuilder R → _) := by
        funext node
        simp
      rw [hsame]
      exact hnames
    · intro hredirect
      simp only [redirect_resolveCommandRoot, Option.isSome_map] at hredirect
      simp [hleaf hredirect]

theorem At.resolveCommandRoot {node : CommandNodeBuilder R} {path : List (List Char)}
    (h : tree.At path node) (commandRoot : NodeId) :
    (tree.resolveCommandRoot commandRoot).At path (node.resolveCommandRoot commandRoot) := by
  induction h with
  | self tree =>
    have := At.self (tree.resolveCommandRoot commandRoot)
    simpa using this
  | @child tree child node path hmem _ ih =>
    have hmem' : child.resolveCommandRoot commandRoot ∈
        (tree.resolveCommandRoot commandRoot).children := by
      rw [children_resolveCommandRoot]
      exact mem_map_of_mem hmem
    have := At.child hmem' ih
    simpa using this

theorem at_resolveCommandRoot {resolved node : CommandNodeBuilder R} {path : List (List Char)}
    {commandRoot : NodeId} (hresolved : resolved = tree.resolveCommandRoot commandRoot)
    (h : resolved.At path node) :
    ∃ old, tree.At path old ∧ node = old.resolveCommandRoot commandRoot := by
  induction h generalizing tree with
  | self resolved =>
    subst hresolved
    exact ⟨tree, by simpa using At.self tree, rfl⟩
  | @child resolved child node path hmem _ ih =>
    subst hresolved
    rw [children_resolveCommandRoot] at hmem
    obtain ⟨old, hold, rfl⟩ := mem_map.mp hmem
    obtain ⟨found, hfound, rfl⟩ := ih rfl
    refine ⟨found, ?_, rfl⟩
    simpa using At.child hold hfound

end CommandNodeBuilder

namespace CommandDispatcher

theorem applyMerge_id (d : CommandDispatcher R) (parent : NodeId)
    (tree : UnregisteredCommandNode R) :
    (d.applyMerge parent tree).2 =
      (d.findChild parent tree.name).getD ⟨d.id, d.nodes.length⟩ := by
  cases tree with
  | mk data kind_ne children executor requirement executionRequirement redirect =>
    rw [applyMerge]
    change _ = (d.findChild parent data.name).getD _
    split
    · rename_i existing hexisting
      simp [hexisting]
    · rename_i hnone
      simp [hnone]

def commandRoot (d : CommandDispatcher R) (tree : CommandNodeBuilder R) : NodeId :=
  (d.findChild d.root tree.name).getD ⟨d.id, d.nodes.length⟩

variable {node : UnregisteredCommandNode R} {builder : CommandNodeBuilder R}

theorem checked_ok (h : d.checked builder = .ok node) : ∃ tree, builder.normalize = .ok tree ∧
      d.validateRedirects tree = .ok () ∧ node = tree.resolveCommandRoot (d.commandRoot tree) ∧
      d.validateMerge d.root node = .ok () := by
  obtain ⟨tree, htree, h⟩ := bind_eq_ok.mp h
  split at h
  · cases h
  · obtain ⟨⟨⟩, hredirects, h⟩ := bind_eq_ok.mp h
    obtain ⟨⟨⟩, hmerge, h⟩ := bind_eq_ok.mp h
    obtain rfl : _ = node := by simpa [pure, Except.pure] using h
    exact ⟨tree, htree, hredirects, rfl, hmerge⟩

theorem treeTargetsIn_of_checked (hd : d.WellFormed) (h : d.validateRedirects tree = .ok ()) :
    TreeTargetsIn d.id (max d.nodes.length ((d.commandRoot tree).index + 1))
      (tree.resolveCommandRoot (d.commandRoot tree)) := by
  have hroot : (d.commandRoot tree).dispatcher = d.id := by
    rw [commandRoot]
    cases hfind : d.findChild d.root tree.name with
    | none => rfl
    | some existing => exact (hd.links _ _ (hd.child_of_findChild hfind).1).1
  intro path node hat redirect hredirect
  obtain ⟨old, hold, rfl⟩ := CommandNodeBuilder.at_resolveCommandRoot rfl hat
  rw [CommandNodeBuilder.redirect_resolveCommandRoot, Option.map_eq_some_iff] at hredirect
  obtain ⟨first, hfirst, rfl⟩ := hredirect
  cases htarget : first.target with
  | commandRoot =>
    refine ⟨d.commandRoot tree, ?_, hroot, by omega⟩
    simp [resolveCommandRoot, htarget]
  | node target =>
    have hsome := redirect_of_validateRedirects h hold hfirst htarget
    obtain ⟨hid, hlt⟩ := node_isSome.mp hsome
    refine ⟨target, ?_, hid, by omega⟩
    simp [resolveCommandRoot, htarget]

/-- The nodes of a tree whose root has been registered as a node. -/
def TreePaths (tree : CommandNodeBuilder R) (id : NodeId) (path : List (List Char))
    (node : CommandNodeBuilder R) : Prop :=
  ∃ old, tree.At path old ∧ node = old.resolveCommandRoot id

theorem forest_resolveCommandRoot (tree : CommandNodeBuilder R) (id : NodeId) :
    Forest [] [tree.resolveCommandRoot id] = TreePaths tree id := by
  funext path node
  apply propext
  constructor
  · rintro ⟨resolved, hresolved, rest, hat, rfl⟩
    obtain rfl : resolved = tree.resolveCommandRoot id := by simpa using hresolved
    exact CommandNodeBuilder.at_resolveCommandRoot rfl hat
  · rintro ⟨old, hat, rfl⟩
    exact ⟨_, by simp, path, hat.resolveCommandRoot id, rfl⟩

/-- A registration that passes the checks adds the paths of its normalized tree. -/
theorem WellFormed.merged_register (hd : d.WellFormed) (h : d.checked builder = .ok node) :
    ∃ tree, builder.normalize = .ok tree ∧
      d.Merged (TreePaths tree (d.applyMerge d.root node).2) (d.applyMerge d.root node).1 ∧
      (d.applyMerge d.root node).1.resolve (d.applyMerge d.root node).1.root [tree.name] =
        some (d.applyMerge d.root node).2 := by
  obtain ⟨tree, htree, hredirects, rfl, hvalid⟩ := checked_ok h
  refine ⟨tree, htree, ?_⟩
  obtain ⟨root, hroot, -, hrootRedirect⟩ := hd.root
  have hnode : d.node d.root = some root := node_eq_some.mpr ⟨rfl, hroot⟩
  have hid : (d.applyMerge d.root (tree.resolveCommandRoot (d.commandRoot tree))).2 =
      d.commandRoot tree := by
    rw [applyMerge_id, CommandNodeBuilder.name_resolveCommandRoot, commandRoot]
  have hindex : d.findChild d.root tree.name ≠ none →
      (d.commandRoot tree).index + 1 ≤ d.nodes.length := by
    intro hne
    obtain ⟨existing, hexisting⟩ := Option.ne_none_iff_exists'.mp hne
    rw [commandRoot, hexisting]
    exact (hd.links _ _ (hd.child_of_findChild hexisting).1).2.2
  have hle : (d.commandRoot tree).index ≤ d.nodes.length := by
    by_cases hnone : d.findChild d.root tree.name = none
    · simp [commandRoot, hnone]
    · have := hindex hnone
      omega
  obtain ⟨hmerged, hpath⟩ :=
    merged_applyMerge hd (rfl : d.resolve d.root [] = _) hnode hrootRedirect
    ((CommandNodeBuilder.normal_of_normalize htree).resolveCommandRoot _)
    (treeTargetsIn_of_checked hd hredirects) (by omega)
    (by
      intro hne
      rw [CommandNodeBuilder.name_resolveCommandRoot] at hne
      have := hindex hne
      omega)
    (compatible_of_validateMerge hd rfl hvalid)
  rw [hid] at hpath ⊢
  rw [forest_resolveCommandRoot] at hmerged
  exact ⟨hmerged, by simpa using hpath⟩

theorem Called.wellFormed (h : d.Called) : d.WellFormed := by
  induction h with
  | new id => exact wellFormed_new id
  | @register d builder _ ih =>
    rw [CommandDispatcher.register]
    split
    · exact ih
    · rename_i node hnode
      obtain ⟨tree, -, hmerged, -⟩ := ih.merged_register hnode
      exact hmerged.wellFormed

theorem Registered.called (h : d.Registered) : d.Called := by
  induction h with
  | new id => exact .new id
  | @register d d' builder nodeId _ hr ih =>
    have := Called.register builder ih
    rwa [hr] at this

theorem Registered.wellFormed (h : d.Registered) : d.WellFormed := h.called.wellFormed

/-- A registration that fails changes nothing. One that succeeds adds exactly the paths of
its normalized tree, and the arena stays a tree whose redirects lead into it. -/
theorem register_atomic (hd : d.Called) (builder : CommandNodeBuilder R) :
    d.WellFormed ∧ (d.register builder).1.WellFormed ∧
      (∀ kind, (d.register builder).2 = .error kind → (d.register builder).1 = d) ∧
      ∀ id, (d.register builder).2 = .ok id → ∃ tree, builder.normalize = .ok tree ∧
        d.Merged (TreePaths tree id) (d.register builder).1 ∧
        (d.register builder).1.resolve (d.register builder).1.root [tree.name] = some id := by
  refine ⟨hd.wellFormed, (Called.register builder hd).wellFormed, ?_, ?_⟩
  · intro kind hkind
    rw [register] at hkind ⊢
    split
    · rfl
    · rename_i node hnode
      simp [hnode] at hkind
  · intro id hid
    rw [register] at hid ⊢
    split at hid
    · cases hid
    · rename_i node hnode
      obtain rfl := Except.ok.inj hid
      simpa only [hnode] using hd.wellFormed.merged_register hnode

end CommandDispatcher

open CommandDispatcher (new register_atomic)

namespace CommandSample

def isAllowedInUnquotedString (c : Char) : Bool :=
  c.isAlphanum || c = '_' || c = '-' || c = '.' || c = '+'

/-- Commands with words as arguments, for sources that are operators or not. -/
def runtime : CommandRuntime Bool where
  Argument := Unit
  ArgumentValue := List Char
  Executor := ℕ
  Modifier := ℕ
  Predicate := Unit
  ErrorKind := Empty
  ProtocolArgument := Unit
  sameArgument := fun _ _ => true
  parse := fun _ reader _ =>
    let word := reader.remaining.takeWhile isAllowedInUnquotedString
    .ok (word, ⟨reader.readSoFar ++ word, reader.remaining.drop word.length⟩)
  holds := fun _ source => source
  protocolArgument := fun argument => argument

def literal (name : List Char) (children : List (CommandNodeBuilder runtime))
    (executor : Option ℕ) (requirement : CommandRequirement runtime)
    (redirect : Option (CommandRedirect runtime)) : CommandNodeBuilder runtime :=
  .mk (.literal name) (by simp [kind]) children executor requirement .allowAll
    redirect

def word (name : List Char) (executor : Option ℕ) : CommandNodeBuilder runtime :=
  .mk (.argument name ()) (by simp [kind]) [] executor .allowAll .allowAll none

def say : CommandNodeBuilder runtime :=
  literal ['s', 'a', 'y'] [word ['t', 'e', 'x', 't'] (some 7)] none (.authorization ()) none

def run : CommandNodeBuilder runtime :=
  literal ['r', 'u', 'n'] [] none .allowAll (some ⟨.node ⟨1, 0⟩, none, false⟩)

def dispatcher : CommandDispatcher runtime :=
  (((new 1).register say).1.register run).1

theorem dispatcher_registered : dispatcher.Registered := by
  have hsay : ((new 1).register say).1.Registered :=
    .register (.new 1) (rfl : (new 1).register say = (_, .ok ⟨1, 1⟩))
  exact .register hsay
    (rfl : ((new 1).register say).1.register run = (_, .ok ⟨1, 3⟩))

/-- Another tree for the command: its argument is kept beside the new one. -/
def sayNow : CommandNodeBuilder runtime :=
  literal ['s', 'a', 'y'] [literal ['n', 'o', 'w'] [] (some 8) .allowAll none] none
    (.authorization ()) none

/-- A tree is merged with a command that exists; one with another requirement is refused. -/
theorem register_sayNow_atomic :
    let d := (dispatcher.register sayNow).1
    let refused := dispatcher.register (literal ['s', 'a', 'y'] [] none .allowAll none)
    dispatcher.WellFormed ∧ d.WellFormed ∧
      (∃ tree, sayNow.normalize = .ok tree ∧
        dispatcher.Merged (CommandDispatcher.TreePaths tree ⟨1, 1⟩) d ∧
        d.resolve d.root [tree.name] = some ⟨1, 1⟩) ∧
      refused.1.WellFormed ∧ refused.1 = dispatcher := by
  intro d refused
  have hcalled := dispatcher_registered.called
  obtain ⟨hdispatcher, hd, -, hmerged⟩ := register_atomic hcalled sayNow
  obtain ⟨-, hrefused, hsame, -⟩ :=
    register_atomic hcalled (literal ['s', 'a', 'y'] [] none .allowAll none)
  exact ⟨hdispatcher, hd, hmerged _ rfl, hrefused, hsame _ rfl⟩

end CommandSample

end Steel
