import Steel.Command.CommandRegistration
import Steel.Command.CommandTermination

/-! # The search for a complete parse

The parser finds a branch that consumes the whole input whenever there is one, if no argument that
redirects stands beside another argument.
-/

namespace Steel

open List
open Option (bind_eq_bind bind_eq_some_iff bind_some)

variable {S : Type} {R : CommandRuntime S} {d : CommandDispatcher R} {source : S}

namespace CommandDispatcher

def IsLiteral (d : CommandDispatcher R) (token : List Char) (child : NodeId) : Prop :=
  ∃ node, d.node child = some node ∧ node.data = .literal token

def IsArgument (d : CommandDispatcher R) (child : NodeId) : Prop :=
  ∃ node name argumentType, d.node child = some node ∧ node.data = .argument name argumentType

/-- The child is the literal that is the next token, or an argument where there is none. -/
def Candidate (d : CommandDispatcher R) (parent : NodeId) (reader : StringReader)
    (child : NodeId) : Prop :=
  ∃ node, d.node parent = some node ∧ child ∈ node.children ∧
    (d.IsLiteral reader.token child ∨
      (∀ other ∈ node.children, ¬ d.IsLiteral reader.token other) ∧ d.IsArgument child)

/-- No argument that redirects stands beside another argument. -/
def RedirectsAlone (d : CommandDispatcher R) : Prop :=
  ∀ node ∈ d.nodes, ∀ a ∈ node.children, ∀ b ∈ node.children, a ≠ b → d.IsArgument a →
    d.IsArgument b → ∀ other, d.node a = some other → other.redirect = none

theorem relevantChildren_eq {token : List Char} {children arguments relevant : List NodeId}
    (hat : ∀ child ∈ children, d.node child = d.nodes[child.index]?)
    (h : d.relevantChildren token children arguments = some relevant) :
    (∃ child ∈ children, d.IsLiteral token child ∧ relevant = [child]) ∨
      (∀ child ∈ children, ¬ d.IsLiteral token child) ∧
        ∀ child, child ∈ relevant ↔ child ∈ arguments ∨ child ∈ children ∧ d.IsArgument child := by
  induction children generalizing arguments with
  | nil =>
    obtain rfl : arguments = relevant := by simpa [relevantChildren] using h
    exact .inr ⟨by simp, by simp⟩
  | cons childId children ih =>
    have hrest := fun child hchild => hat child (mem_cons_of_mem _ hchild)
    rw [relevantChildren, bind_eq_bind, bind_eq_some_iff] at h
    obtain ⟨child, hchild, h⟩ := h
    have hnode : d.node childId = some child := (hat childId mem_cons_self).trans hchild
    have hliteral : ∀ literal, d.IsLiteral literal childId ↔ child.data = .literal literal := by
      intro literal
      constructor
      · rintro ⟨node, hother, hdata⟩
        obtain rfl := Option.some.inj (hnode.symm.trans hother)
        exact hdata
      · exact fun hdata => ⟨child, hnode, hdata⟩
    have hargument : d.IsArgument childId ↔ ∃ name type, child.data = .argument name type := by
      constructor
      · rintro ⟨node, name, type, hother, hdata⟩
        obtain rfl := Option.some.inj (hnode.symm.trans hother)
        exact ⟨name, type, hdata⟩
      · rintro ⟨name, type, hdata⟩
        exact ⟨child, name, type, hnode, hdata⟩
    have hstep : ∀ arguments', (¬ d.IsLiteral token childId) →
        (∀ id, id ∈ arguments' ↔ id ∈ arguments ∨ id = childId ∧ d.IsArgument childId) →
        d.relevantChildren token children arguments' = some relevant →
        (∃ child ∈ childId :: children, d.IsLiteral token child ∧ relevant = [child]) ∨
          (∀ child ∈ childId :: children, ¬ d.IsLiteral token child) ∧ ∀ child,
            child ∈ relevant ↔
              child ∈ arguments ∨ child ∈ childId :: children ∧ d.IsArgument child := by
      intro arguments' hnot harguments h'
      rcases ih hrest h' with ⟨found, hmem, hfound⟩ | ⟨hnone, hmem⟩
      · exact .inl ⟨found, mem_cons_of_mem _ hmem, hfound⟩
      · refine .inr ⟨?_, ?_⟩
        · intro other hother
          rcases mem_cons.mp hother with rfl | hother
          · exact hnot
          · exact hnone other hother
        · intro id
          rw [hmem, harguments, mem_cons]
          constructor
          · rintro ((hid | ⟨rfl, hid⟩) | ⟨hid, harg⟩)
            · exact .inl hid
            · exact .inr ⟨.inl rfl, hid⟩
            · exact .inr ⟨.inr hid, harg⟩
          · rintro (hid | ⟨rfl | hid, harg⟩)
            · exact .inl (.inl hid)
            · exact .inl (.inr ⟨rfl, harg⟩)
            · exact .inr ⟨hid, harg⟩
    split at h
    · rename_i literal hdata
      split at h
      · rename_i heq
        obtain rfl : [childId] = relevant := by simpa using h
        exact .inl ⟨childId, mem_cons_self, (hliteral token).mpr (heq ▸ hdata), rfl⟩
      · rename_i hne
        refine hstep arguments ?_ ?_ h
        · rw [hliteral, hdata]
          simpa using hne
        · simp [hargument, hdata]
    · rename_i name type hdata
      refine hstep _ ?_ ?_ h
      · simp [hliteral, hdata]
      · intro id
        simp only [mem_append, mem_singleton]
        refine or_congr_right (Iff.symm (and_iff_left ?_))
        exact hargument.mpr ⟨name, type, hdata⟩
    · rename_i hdata
      refine hstep arguments ?_ ?_ h
      · simp [hliteral, hdata]
      · simp [hargument, hdata]

variable {node : CommandNode R}

theorem WellFormed.literal_unique (hd : d.WellFormed)
    (hnode : node ∈ d.nodes) {token : List Char} {a b : NodeId} (ha : a ∈ node.children)
    (hb : b ∈ node.children) (hla : d.IsLiteral token a) (hlb : d.IsLiteral token b) : a = b := by
  have hname : ∀ id, d.IsLiteral token id → d.nameOf id = token := by
    rintro id ⟨other, hother, hdata⟩
    simp [nameOf, (node_eq_some.mp hother).2, CommandNode.name, hdata, CommandNodeData.name]
  exact inj_on_of_nodup_map (hd.names node hnode) ha hb ((hname a hla).trans (hname b hlb).symm)

variable {reader : StringReader} {parent : NodeId}

theorem WellFormed.relevantNodes_iff (hd : d.WellFormed)
    {relevant : List NodeId} (h : d.relevantNodes parent reader = some relevant) :
    ∀ child, child ∈ relevant ↔ d.Candidate parent reader child := by
  rw [relevantNodes] at h
  split at h
  · rename_i hnone
    obtain rfl : [] = relevant := by simpa using h
    simp [Candidate, hnone]
  · rename_i node hnode
    have hat : ∀ child ∈ node.children, d.node child = d.nodes[child.index]? :=
      fun child hchild => hd.child_node (child_of_node hnode hchild)
    intro child
    have hcandidate : d.Candidate parent reader child ↔ child ∈ node.children ∧
        (d.IsLiteral reader.token child ∨
          (∀ other ∈ node.children, ¬ d.IsLiteral reader.token other) ∧ d.IsArgument child) := by
      simp [Candidate, hnode]
    rw [hcandidate]
    rcases relevantChildren_eq hat h with ⟨found, hmem, hliteral, rfl⟩ | ⟨hnone, hmem⟩
    · rw [mem_singleton]
      constructor
      · rintro rfl
        exact ⟨hmem, .inl hliteral⟩
      · rintro ⟨hchild, hlit | ⟨hnot, -⟩⟩
        · exact hd.literal_unique (mem_nodes_of_node hnode) hchild hmem hlit hliteral
        · exact absurd hliteral (hnot found hmem)
    · rw [hmem]
      constructor
      · rintro (hid | ⟨hchild, harg⟩)
        · cases hid
        · exact ⟨hchild, .inr ⟨hnone, harg⟩⟩
      · rintro ⟨hchild, hlit | ⟨-, harg⟩⟩
        · exact absurd hlit (hnone child hchild)
        · exact .inr ⟨hchild, harg⟩

def Reads (source : S) (reader after : StringReader) : CommandNodeData R → Prop
  | .root => False
  | .literal literal =>
    after = ⟨reader.readSoFar ++ literal, reader.remaining.drop literal.length⟩
  | .argument _ argumentType => ∃ value, R.parse argumentType reader source = .ok (value, after)

/-- A candidate that the source may use consumes input up to a space or the end. -/
def Takes (d : CommandDispatcher R) (source : S) (parent : NodeId) (reader : StringReader)
    (child : NodeId) (after : StringReader) : Prop :=
  d.Candidate parent reader child ∧ ∃ node, d.node child = some node ∧
    node.requirement.allows source = true ∧ Reads source reader after node.data ∧ after.Stops

theorem tryReadLiteral_token (reader : StringReader) : reader.tryReadLiteral reader.token =
      some ⟨reader.readSoFar ++ reader.token, reader.remaining.drop reader.token.length⟩ := by
  have hprefix : reader.token.isPrefixOf reader.remaining = true :=
    isPrefixOf_iff_prefix.mpr ( takeWhile_prefix _)
  have hdrop : reader.remaining.drop reader.token.length =
      reader.remaining.dropWhile (· ≠ ' ') := by
    conv_lhs => rw [← takeWhile_append_dropWhile (p := (· ≠ ' ')) (l := reader.remaining)]
    exact drop_left
  have hhead : ((reader.remaining.drop reader.token.length).head?.all (· = ' ')) = true := by
    rw [hdrop]
    cases hrest : reader.remaining.dropWhile (· ≠ ' ') with
    | nil => rfl
    | cons c rest =>
      have := List.head?_dropWhile_not (· ≠ ' ') reader.remaining
      simp only [hrest, List.head?_cons] at this
      simpa using this
  rw [StringReader.tryReadLiteral, if_pos hprefix]
  simp only [hhead, if_true]

theorem takes_iff (hforward : R.Forward) {parent childId : NodeId} {child : CommandNode R}
    {reader after : StringReader} {soFar : ParsedCommandContext R} (hsource : soFar.source = source)
    (hcandidate : d.Candidate parent reader childId) (hchild : d.node childId = some child) :
    d.Takes source parent reader childId after ↔
      child.requirement.allows source = true ∧ after.Stops ∧
        ∃ context, d.parseNode childId reader soFar = some (.ok (after, context)) := by
  have hreads : Reads source reader after child.data ↔
      ∃ context, d.parseNode childId reader soFar = some (.ok (after, context)) := by
    rw [parseNode, (node_eq_some.mp hchild).2, bind_eq_bind, bind_some]
    cases hdata : child.data with
    | root => simp [Reads]
    | literal literal =>
      obtain ⟨node, -, -, ⟨other, hother, htoken⟩ | ⟨-, other, _, _, hother, harg⟩⟩ := hcandidate
      · obtain rfl := Option.some.inj (hchild.symm.trans hother)
        obtain rfl : literal = reader.token := by simpa [hdata] using htoken
        obtain ⟨range, hrange⟩ := between_of_advances
          (advances_tryReadLiteral (tryReadLiteral_token reader))
        simp only [Reads, tryReadLiteral_token, hrange, bind_eq_bind, bind_some,
          Option.some.injEq, Except.ok.injEq, Prod.mk.injEq, exists_and_left, exists_eq', and_true]
        exact eq_comm
      · obtain rfl := Option.some.inj (hchild.symm.trans hother)
        simp [hdata] at harg
    | argument name argumentType =>
      simp only [Reads, hsource]
      cases hread : R.parse argumentType reader source with
      | error error => simp
      | ok parsed =>
        obtain ⟨value, stop⟩ := parsed
        obtain ⟨range, hrange⟩ := between_of_advances (hforward _ _ _ _ _ hread)
        simp only [hrange, bind_eq_bind, bind_some, Except.ok.injEq, Prod.mk.injEq,
          Option.some.injEq, exists_and_left, exists_eq', and_true]
        simp
  rw [Takes, ← hreads]
  constructor
  · rintro ⟨-, node, hnode, hallows, hread, hstops⟩
    obtain rfl := Option.some.inj (hchild.symm.trans hnode)
    exact ⟨hallows, hstops, hread⟩
  · rintro ⟨hallows, hstops, hread⟩
    exact ⟨hcandidate, child, hchild, hallows, hread, hstops⟩

/-- Steps below a node consume the whole input. A step that follows a node without a
redirect has at least one character to read, and after a redirect the input may end. -/
inductive Completes (d : CommandDispatcher R) (source : S) : NodeId → StringReader → Prop where
  | ends {parent : NodeId} {reader : StringReader} : reader.remaining = [] →
      Completes d source parent reader
  | last {parent child : NodeId} {reader after : StringReader} :
      d.Takes source parent reader child after → after.remaining = [] →
      Completes d source parent reader
  | next {parent child : NodeId} {reader after : StringReader} {node : CommandNode R} {c : Char}
      {rest : List Char} : d.Takes source parent reader child after →
      d.node child = some node → node.redirectTarget = some none →
      after.remaining = ' ' :: c :: rest → Completes d source child after.skip →
      Completes d source parent reader
  | redirect {parent child target : NodeId} {reader after : StringReader}
      {node : CommandNode R} {rest : List Char} : d.Takes source parent reader child after →
      d.node child = some node → node.redirectTarget = some (some target) →
      after.remaining = ' ' :: rest → Completes d source target after.skip →
      Completes d source parent reader

def Attempt.Complete (outcome : Attempt R) : Prop :=
  ∃ parse, (outcome = .potential parse ∨ outcome = .redirected parse) ∧
    parse.reader.remaining = []

/-- The input is consumed by a walk that starts with the given child. -/
def CompletesVia (d : CommandDispatcher R) (source : S) (parent : NodeId) (reader : StringReader)
    (child : NodeId) : Prop :=
  ∃ after node target, d.Takes source parent reader child after ∧ d.node child = some node ∧
    node.redirectTarget = some target ∧
      (after.remaining = [] ∨
        (target = none ∧ ∃ c rest, after.remaining = ' ' :: c :: rest ∧
          d.Completes source child after.skip) ∨
        ∃ id rest, target = some id ∧ after.remaining = ' ' :: rest ∧
          d.Completes source id after.skip)

theorem CompletesVia.candidate {parent child : NodeId}
    (h : d.CompletesVia source parent reader child) : d.Candidate parent reader child := by
  obtain ⟨_, _, _, htakes, -⟩ := h
  exact htakes.1

theorem WellFormed.completes_iff (hd : d.WellFormed) :
    d.Completes source parent reader ↔
      reader.remaining = [] ∨ ∃ child, d.CompletesVia source parent reader child := by
  constructor
  · intro h
    cases h with
    | ends hend => exact .inl hend
    | @last _ child _ after htakes hend =>
      obtain ⟨node, hnode, -⟩ := htakes.2
      obtain ⟨target, htarget⟩ := hd.redirectTarget_total (mem_nodes_of_node hnode)
      exact .inr ⟨child, after, node, target, htakes, hnode, htarget, .inl hend⟩
    | @next _ child _ after node c rest htakes hnode htarget hrest hnext =>
      exact .inr ⟨child, after, node, none, htakes, hnode, htarget,
        .inr (.inl ⟨rfl, c, rest, hrest, hnext⟩)⟩
    | @redirect _ child target _ after node rest htakes hnode htarget hrest hnext =>
      exact .inr ⟨child, after, node, some target, htakes, hnode, htarget,
        .inr (.inr ⟨target, rest, rfl, hrest, hnext⟩)⟩
  · rintro (hend | ⟨child, after, node, target, htakes, hnode, htarget, hend |
      ⟨rfl, c, rest, hrest, hnext⟩ | ⟨id, rest, rfl, hrest, hnext⟩⟩)
    · exact .ends hend
    · exact .last htakes hend
    · exact .next htakes hnode htarget hrest hnext
    · exact .redirect htakes hnode htarget hrest hnext

theorem completesVia_iff {parent child : NodeId} {target : Option NodeId}
    {reader stop : StringReader}
    (htakes : ∀ after, d.Takes source parent reader child after ↔ after = stop)
    (hnode : d.node child = some node) (htarget : node.redirectTarget = some target) :
    d.CompletesVia source parent reader child ↔ stop.remaining = [] ∨
        (target = none ∧ ∃ c rest, stop.remaining = ' ' :: c :: rest ∧
          d.Completes source child stop.skip) ∨
        ∃ id rest, target = some id ∧ stop.remaining = ' ' :: rest ∧
          d.Completes source id stop.skip := by
  simp [CompletesVia, htakes, hnode, htarget]

theorem bestParse_complete (best : ParseResults R) (potentials : List (ParseResults R)) :
    (bestParse best potentials).reader.remaining = [] ↔
      ∃ parse ∈ best :: potentials, parse.reader.remaining = [] := by
  induction potentials generalizing best with
  | nil => simp [bestParse]
  | cons next potentials ih =>
    have hstep : (if isBetterParse next best then next else best).reader.remaining = [] ↔
        best.reader.remaining = [] ∨ next.reader.remaining = [] := by
      rw [isBetterParse]
      cases hnext : next.reader.remaining with
      | nil =>
        cases hbest : best.reader.remaining <;> simp [StringReader.canRead, hnext, hbest]
        split <;> assumption
      | cons c rest =>
        cases hbest : best.reader.remaining <;> simp [StringReader.canRead, hnext, hbest]
        split <;> simp [hnext, hbest]
    rw [bestParse, foldl_cons, ← bestParse, ih]
    simp only [mem_cons, exists_eq_or_imp, hstep, or_assoc]

section Loop

variable {recurse : NodeId → StringReader → ParsedCommandContext R → Option (ParseResults R)}
  {original : StringReader} {soFar : ParsedCommandContext R}

theorem attempt_complete (hforward : R.Forward)
    (hrec : ∀ parent reader context parse, context.source = source →
      reader.remaining.length < original.remaining.length →
      recurse parent reader context = some parse →
        (parse.reader.remaining = [] ↔ d.Completes source parent reader))
    (hsource : soFar.source = source) {parent childId : NodeId} {child : CommandNode R}
    (hcandidate : d.Candidate parent original childId) (hchild : d.node childId = some child)
    {outcome : Attempt R} (h : d.Attempts recurse original soFar childId child outcome) :
    outcome.Complete ↔ d.CompletesVia source parent original childId := by
  have htakes := fun after : StringReader =>
    @takes_iff S R d source hforward parent childId child original after soFar hsource hcandidate
      hchild
  have htake : ∀ {reader context}, child.requirement.allows soFar.source = true →
      d.parseNode childId original soFar = some (.ok (reader, context)) → reader.Stops →
      ∀ after, d.Takes source parent original childId after ↔ after = reader := by
    intro reader context hallows hparsed hstops after
    rw [htakes, hparsed, ← hsource]
    constructor
    · rintro ⟨-, -, other, hok⟩
      obtain ⟨rfl, -⟩ : reader = after ∧ context = other := by simpa using hok
      rfl
    · rintro rfl
      exact ⟨hallows, hstops, context, rfl⟩
  have hsourceOf : ∀ {reader context},
      d.parseNode childId original soFar = some (.ok (reader, context)) → context.source = source :=
    fun hparsed => (parseNode_ok (node_eq_some.mp hchild).2 hparsed).2.1.trans hsource
  have hnone : (∀ after, ¬ d.Takes source parent original childId after) →
      ¬ d.CompletesVia source parent original childId :=
    fun hno ⟨after, _, _, htakes, _⟩ => hno after htakes
  cases h with
  | skipped hallows =>
    refine iff_of_false (by simp [Attempt.Complete]) (hnone fun after ht => ?_)
    rw [htakes, ← hsource, hallows] at ht
    exact absurd ht.1 Bool.false_ne_true
  | failed hallows hparsed =>
    refine iff_of_false (by simp [Attempt.Complete]) (hnone fun after ht => ?_)
    obtain ⟨-, -, context, hok⟩ := (htakes after).mp ht
    simp [hparsed] at hok
  | trailing hallows hparsed hstops =>
    refine iff_of_false (by simp [Attempt.Complete]) (hnone fun after ht => ?_)
    obtain ⟨-, hafter, context, hok⟩ := (htakes after).mp ht
    obtain ⟨rfl, -⟩ : _ = after ∧ _ = context := by simpa [hparsed] using hok
    exact hstops hafter
  | @redirected reader context target rest inner hallows hparsed hredirect hrest hinner =>
    have hcontext := hsourceOf hparsed
    have hinner := hrec target reader.skip (.new context.source target reader.skip.cursor) inner
      hcontext (skip_shorter hforward hparsed hrest) hinner
    rw [completesVia_iff (htake hallows hparsed (.inr ⟨rest, hrest⟩)) hchild hredirect]
    simp [Attempt.Complete, hrest, hinner]
  | @descended reader context c rest inner hallows hparsed hredirect hrest hinner =>
    have hcontext := hsourceOf hparsed
    have hinner := hrec childId reader.skip
      (context.setExecutor (executorFor child context.source)) inner hcontext
      (skip_shorter hforward hparsed hrest) hinner
    rw [completesVia_iff (htake hallows hparsed (.inr ⟨_, hrest⟩)) hchild hredirect]
    simp [Attempt.Complete, hrest, hinner]
  | @ended reader context target hallows hparsed hredirect hend =>
    have hstops : reader.Stops := by
      rcases hend with hend | ⟨-, hend⟩
      · exact .inl hend
      · exact .inr ⟨[], hend⟩
    rw [completesVia_iff (htake hallows hparsed hstops) hchild hredirect]
    rcases hend with hend | ⟨rfl, hend⟩
    · simp [Attempt.Complete, hend]
    · simp [Attempt.Complete, hend]

/-- The loop finds a complete branch among its attempts, if nothing is tried beside an
attempt that redirects. -/
theorem parseChildren_complete (hmore : original.remaining ≠ []) {children : List NodeId}
    {errors : List (ParseError R)} {potentials : List (ParseResults R)} {parse : ParseResults R}
    (hlone : ∀ child ∈ children, ∀ found,
      d.attempt recurse original soFar child = some (.redirected found) →
        potentials = [] ∧ ∀ other ∈ children, other = child)
    (h : d.parseChildren recurse original soFar children errors potentials = some parse) :
    parse.reader.remaining = [] ↔ (∃ found ∈ potentials, found.reader.remaining = []) ∨
      ∃ child ∈ children, ∃ outcome, d.attempt recurse original soFar child = some outcome ∧
        outcome.Complete := by
  induction children generalizing errors potentials with
  | nil =>
    cases potentials with
    | nil =>
      obtain rfl : _ = parse := by simpa [parseChildren] using h
      simp [hmore]
    | cons best potentials =>
      obtain rfl : _ = parse := by simpa [parseChildren] using h
      simp [bestParse_complete]
  | cons childId children ih =>
    rw [parseChildren, bind_eq_bind, bind_eq_some_iff] at h
    obtain ⟨outcome, houtcome, h⟩ := h
    have hfirst : (∃ outcome, d.attempt recurse original soFar childId = some outcome ∧
        outcome.Complete) ↔ outcome.Complete := by simp [houtcome]
    have hrest : ∀ child ∈ children, ∀ found,
        d.attempt recurse original soFar child = some (.redirected found) →
          (potentials = [] ∧ ∀ other ∈ children, other = child) ∧ outcome = .redirected found := by
      intro child hchild found hfound
      obtain ⟨hnil, hall⟩ := hlone child (mem_cons_of_mem _ hchild) found hfound
      refine ⟨⟨hnil, fun other hother => hall other (mem_cons_of_mem _ hother)⟩, ?_⟩
      obtain rfl := hall childId mem_cons_self
      exact Option.some.inj (houtcome.symm.trans hfound)
    simp only [mem_cons, exists_eq_or_imp, hfirst]
    cases outcome with
    | skipped =>
      rw [ih (fun child hchild found hfound => (hrest child hchild found hfound).1) h]
      simp [Attempt.Complete]
    | failed error =>
      rw [ih (fun child hchild found hfound => (hrest child hchild found hfound).1) h]
      simp [Attempt.Complete]
    | potential found =>
      rw [ih (fun child hchild other hother => by cases (hrest child hchild other hother).2) h]
      have hfound : (Attempt.potential found).Complete ↔ found.reader.remaining = [] := by
        simp [Attempt.Complete]
      simp only [mem_append, mem_singleton, or_and_right, exists_or, exists_eq_left,
        hfound, or_assoc]
    | redirected found =>
      obtain rfl : found = parse := by simpa using h
      obtain ⟨rfl, hall⟩ := hlone childId mem_cons_self found houtcome
      have hfound : (Attempt.redirected found).Complete ↔ found.reader.remaining = [] := by
        simp [Attempt.Complete]
      rw [hfound]
      constructor
      · exact fun hend => .inr (.inl hend)
      · rintro (⟨_, hother, -⟩ | hend | ⟨child, hchild, other, hother, hcomplete⟩)
        · cases hother
        · exact hend
        · obtain rfl := hall child (mem_cons_of_mem _ hchild)
          obtain rfl := Option.some.inj (houtcome.symm.trans hother)
          exact hfound.mp hcomplete

end Loop

theorem RedirectsAlone.candidate_unique (halone : d.RedirectsAlone) (hd : d.WellFormed)
    {parent a b : NodeId} (ha : d.Candidate parent reader a)
    (hb : d.Candidate parent reader b) (hnode : d.node a = some node)
    (hredirect : node.redirect ≠ none) : b = a := by
  obtain ⟨node, hparent, hamem, ha⟩ := ha
  obtain ⟨other, hother, hbmem, hb⟩ := hb
  obtain rfl := Option.some.inj (hparent.symm.trans hother)
  rcases ha with ha | ⟨hano, ha⟩
  · rcases hb with hb | ⟨hbno, -⟩
    · exact hd.literal_unique (mem_nodes_of_node hparent) hbmem hamem hb ha
    · exact absurd ha (hbno a hamem)
  · rcases hb with hb | ⟨-, hb⟩
    · exact absurd hb (hano b hbmem)
    · by_contra hne
      exact hredirect (halone node (mem_nodes_of_node hparent) a hamem b hbmem
        (fun heq => hne heq.symm) ha hb _ hnode)

/-- A parse ends where the input ends exactly when a walk consumes all of it. -/
theorem WellFormed.parseNodes_complete (hd : d.WellFormed) (hforward : R.Forward)
    (halone : d.RedirectsAlone) {fuel : ℕ}
    {context : ParsedCommandContext R} {parse : ParseResults R}
    (hfuel : reader.remaining.length < fuel) (hsource : context.source = source)
    (h : d.parseNodes fuel parent reader context = some parse) :
    parse.reader.remaining = [] ↔ d.Completes source parent reader := by
  induction fuel generalizing parent reader context parse with
  | zero => cases h
  | succ fuel ih =>
    by_cases hmore : reader.remaining = []
    · exact iff_of_true ((advances_parseNodes hforward h).remaining_eq_nil hmore) (.ends hmore)
    rw [parseNodes, bind_eq_bind, bind_eq_some_iff] at h
    obtain ⟨children, hchildren, h⟩ := h
    have hcandidates := hd.relevantNodes_iff hchildren
    have hnodes : ∀ child, d.Candidate parent reader child →
        ∃ node outcome, d.node child = some node ∧
          d.attempt (d.parseNodes fuel) reader context child = some outcome := by
      rintro child ⟨node, hnode, hmem, -⟩
      obtain ⟨other, hother, -⟩ := hd.exists_child_node (child_of_node hnode hmem)
      have htotal : ∀ parent (next : StringReader) context,
          next.remaining.length < reader.remaining.length →
            ∃ parse, d.parseNodes fuel parent next context = some parse :=
        fun parent next context hlt => hd.parseNodes_total hforward (by omega) parent context
      obtain ⟨outcome, houtcome⟩ := hd.attempt_total hforward htotal (child_of_node hnode hmem)
      exact ⟨other, outcome, hother, houtcome⟩
    have hvia : ∀ child ∈ children, (∃ outcome,
        d.attempt (d.parseNodes fuel) reader context child = some outcome ∧ outcome.Complete) ↔
          d.CompletesVia source parent reader child := by
      intro child hchild
      have hcandidate := (hcandidates child).mp hchild
      obtain ⟨node, outcome, hnode, houtcome⟩ := hnodes child hcandidate
      rw [← attempt_complete hforward
        (fun parent next context parse hsource hlt => ih (by omega) hsource) hsource hcandidate
        hnode (attempts_of_attempt (node_eq_some.mp hnode).2 houtcome)]
      simp [houtcome]
    rw [parseChildren_complete hmore ?_ h, hd.completes_iff]
    · simp only [not_mem_nil, false_and, exists_false, false_or, hmore]
      constructor
      · rintro ⟨child, hchild, houtcome⟩
        exact ⟨child, (hvia child hchild).mp houtcome⟩
      · rintro ⟨child, hcompletes⟩
        have hchild := (hcandidates child).mpr hcompletes.candidate
        exact ⟨child, hchild, (hvia child hchild).mpr hcompletes⟩
    · intro child hchild found hfound
      refine ⟨rfl, fun other hother => ?_⟩
      obtain ⟨node, -, hnode, -⟩ := hnodes child ((hcandidates child).mp hchild)
      refine halone.candidate_unique hd ((hcandidates child).mp hchild)
        ((hcandidates other).mp hother) hnode ?_
      cases attempts_of_attempt (node_eq_some.mp hnode).2 hfound with
      | redirected _ _ htarget _ _ =>
        intro hredirect
        simp [CommandNode.redirectTarget, hredirect] at htarget

/-- Parsing ends with one result for all fuel that exceeds the length of the input. If no
argument that redirects stands beside another argument, then the result is at the end of
the input exactly when a walk consumes all of it. -/
theorem parse_complete (hreg : d.Registered) (hforward : R.Forward) (source : S)
    (input : List Char) :
    ∃ parse, (∀ fuel > input.length, d.parse fuel input source = some parse) ∧ (d.RedirectsAlone →
        (parse.reader.canRead = false ↔ d.Completes source d.root (.new input))) := by
  have hd := hreg.wellFormed
  have hlength : (StringReader.new input).remaining.length < input.length + 1 :=
    Nat.lt_succ_self _
  obtain ⟨parse, hparse⟩ := hd.parseNodes_total hforward hlength d.root
    (.new source d.root (StringReader.new input).cursor)
  refine ⟨parse, ?_, ?_⟩
  · intro fuel hfuel
    exact parseNodes_le hfuel hparse
  · intro halone
    rw [StringReader.canRead_eq_false]
    exact hd.parseNodes_complete hforward halone hlength rfl hparse

/-- Steps below a node consume the whole input with one space between two steps. -/
inductive Walks (d : CommandDispatcher R) (source : S) : NodeId → StringReader → Prop where
  | last {parent child : NodeId} {reader after : StringReader} :
      d.Takes source parent reader child after → after.remaining = [] →
      Walks d source parent reader
  | next {parent child : NodeId} {reader after : StringReader} {node : CommandNode R}
      {target : Option NodeId} {rest : List Char} : d.Takes source parent reader child after →
      d.node child = some node → node.redirectTarget = some target →
      after.remaining = ' ' :: rest → Walks d source (target.getD child) after.skip →
      Walks d source parent reader

end CommandDispatcher

namespace CommandSample

theorem runtime_forward : runtime.Forward := by
  intro argument reader source value after h
  obtain ⟨-, rfl⟩ := Prod.mk.inj (Except.ok.inj h)
  refine ⟨reader.remaining.takeWhile isAllowedInUnquotedString, ?_, rfl⟩
  exact prefix_iff_eq_append.mp ( takeWhile_prefix _) |>.symm

theorem index_lt {id : NodeId} {node : CommandNode runtime}
    (h : dispatcher.node id = some node) : id.dispatcher = 1 ∧ id.index < 4 := by
  obtain ⟨hid, hat⟩ := CommandDispatcher.node_eq_some.mp h
  exact ⟨hid, (List.getElem?_eq_some_iff.mp hat).1⟩

theorem dispatcher_redirectsAlone : dispatcher.RedirectsAlone := by
  have hargument : ∀ id, dispatcher.IsArgument id → id = ⟨1, 2⟩ := by
    rintro ⟨owner, index⟩ ⟨node, name, type, hnode, hdata⟩
    obtain ⟨rfl, hlt⟩ : owner = 1 ∧ index < 4 := index_lt hnode
    rcases index with _ | _ | _ | _ | index
    · obtain rfl := Option.some.inj hnode
      cases hdata
    · obtain rfl := Option.some.inj hnode
      cases hdata
    · rfl
    · obtain rfl := Option.some.inj hnode
      cases hdata
    · omega
  intro node _ a _ b _ hne ha hb
  exact absurd ((hargument a ha).trans (hargument b hb).symm) hne

theorem say_completes :
    (∃ parse, (∀ fuel > 6, dispatcher.parse fuel ['s', 'a', 'y', ' ', 'h', 'i'] true = some parse) ∧
      (dispatcher.RedirectsAlone → (parse.reader.canRead = false ↔
        dispatcher.Completes true dispatcher.root (.new ['s', 'a', 'y', ' ', 'h', 'i'])))) ∧
      dispatcher.RedirectsAlone :=
  ⟨CommandDispatcher.parse_complete dispatcher_registered runtime_forward true
    ['s', 'a', 'y', ' ', 'h', 'i'], dispatcher_redirectsAlone⟩

/-- After `say ` the word may be empty, but the parser stops before the space. -/
theorem walks_say : dispatcher.Walks true dispatcher.root (.new ['s', 'a', 'y', ' ']) := by
  have hsay : dispatcher.Takes true dispatcher.root (.new ['s', 'a', 'y', ' ']) ⟨1, 1⟩
      ⟨['s', 'a', 'y'], [' ']⟩ :=
    ⟨⟨_, rfl, by decide, .inl ⟨_, rfl, rfl⟩⟩, _, rfl, rfl, rfl, .inr ⟨_, rfl⟩⟩
  have htext : dispatcher.Takes true ⟨1, 1⟩ ⟨['s', 'a', 'y', ' '], []⟩ ⟨1, 2⟩
      ⟨['s', 'a', 'y', ' '], []⟩ := by
    refine ⟨⟨_, rfl, by decide, .inr ⟨?_, _, _, _, rfl, rfl⟩⟩, _, rfl, rfl, ⟨_, rfl⟩, .inl rfl⟩
    rintro other hother ⟨node, hnode, hdata⟩
    obtain rfl : other = ⟨1, 2⟩ := mem_singleton.mp hother
    obtain rfl := Option.some.inj hnode
    cases hdata
  exact .next hsay rfl rfl rfl (.last htext rfl)

theorem not_walks_run : ¬ dispatcher.Walks true dispatcher.root (.new ['r', 'u', 'n', ' ']) := by
  have hwell := dispatcher_registered.wellFormed
  have hnone : ∀ child after,
      ¬ dispatcher.Takes true dispatcher.root ⟨['r', 'u', 'n', ' '], []⟩ child after := by
    rintro child after ⟨hcandidate, -⟩
    have hnil : dispatcher.relevantNodes dispatcher.root ⟨['r', 'u', 'n', ' '], []⟩ = some [] :=
      rfl
    exact not_mem_nil ((hwell.relevantNodes_iff hnil child).mpr hcandidate)
  have hrun : ∀ child after,
      dispatcher.Takes true dispatcher.root (.new ['r', 'u', 'n', ' ']) child after →
        child = ⟨1, 3⟩ ∧ after = ⟨['r', 'u', 'n'], [' ']⟩ := by
    rintro child after ⟨hcandidate, node, hnode, -, hreads, -⟩
    have hone : dispatcher.relevantNodes dispatcher.root (.new ['r', 'u', 'n', ' ']) =
        some [⟨1, 3⟩] := rfl
    obtain rfl := mem_singleton.mp ((hwell.relevantNodes_iff hone child).mpr hcandidate)
    obtain rfl := Option.some.inj hnode
    exact ⟨rfl, hreads⟩
  intro h
  cases h with
  | last htakes hend =>
    obtain ⟨rfl, rfl⟩ := hrun _ _ htakes
    cases hend
  | next htakes hnode htarget hrest hwalks =>
    obtain ⟨rfl, rfl⟩ := hrun _ _ htakes
    obtain rfl := Option.some.inj hnode
    obtain rfl := Option.some.inj htarget
    cases hwalks with
    | last htakes => exact hnone _ _ htakes
    | next htakes => exact hnone _ _ htakes

theorem dispatcher_trailing_space :
    dispatcher.Registered ∧ runtime.Forward ∧ dispatcher.RedirectsAlone ∧
      (∃ parse, dispatcher.parse 5 ['s', 'a', 'y', ' '] true = some parse ∧
        parse.reader.canRead = true ∧
        dispatcher.Walks true dispatcher.root (.new ['s', 'a', 'y', ' '])) ∧
      ∃ parse, dispatcher.parse 5 ['r', 'u', 'n', ' '] true = some parse ∧
        parse.reader.canRead = false ∧
        ¬ dispatcher.Walks true dispatcher.root (.new ['r', 'u', 'n', ' ']) :=
  ⟨dispatcher_registered, runtime_forward, dispatcher_redirectsAlone,
    ⟨_, rfl, rfl, walks_say⟩, ⟨_, rfl, rfl, not_walks_run⟩⟩

end CommandSample

end Steel
