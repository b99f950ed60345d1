import Steel.Command.CommandRoutes

/-! # Parsing ends

The parser consumes a space before it recurses, so less input is left, also where
redirects lead back to where they came from.
-/

namespace Steel

open Option StringReader List

variable {S : Type} {R : CommandRuntime S} {d : CommandDispatcher R} {source : S}

namespace StringReader

def Advances (reader after : StringReader) : Prop :=
  ∃ consumed, reader.remaining = consumed ++ after.remaining ∧
    after.readSoFar = reader.readSoFar ++ consumed

theorem Advances.refl (reader : StringReader) : reader.Advances reader := ⟨[], rfl, by simp⟩

theorem Advances.trans {a b c : StringReader} (h : a.Advances b) (h' : b.Advances c) :
    a.Advances c := by
  obtain ⟨first, hfirst, hread⟩ := h
  obtain ⟨second, hsecond, hread'⟩ := h'
  exact ⟨first ++ second, by simp [hfirst, hsecond], by simp [hread, hread']⟩

theorem lenUtf16_append (a b : List Char) : lenUtf16 (a ++ b) = lenUtf16 a + lenUtf16 b := by
  simp [lenUtf16]

variable {reader after : StringReader}

theorem Advances.cursor_le (h : reader.Advances after) : reader.cursor ≤ after.cursor := by
  obtain ⟨consumed, -, hread⟩ := h
  rw [cursor, cursor, hread, lenUtf16_append]
  exact Nat.le_add_right _ _

theorem Advances.length_le (h : reader.Advances after) :
    after.remaining.length ≤ reader.remaining.length := by
  obtain ⟨consumed, hremaining, -⟩ := h
  simp [hremaining]

theorem Advances.remaining_eq_nil (h : reader.Advances after) (hend : reader.remaining = []) :
    after.remaining = [] := by
  have := h.length_le
  rw [hend] at this
  simpa using this

theorem advances_skip (reader : StringReader) : reader.Advances reader.skip := by
  rw [skip]
  split
  · exact .refl reader
  · rename_i c rest h
    exact ⟨[c], by simp [h], rfl⟩

theorem skip_remaining {c : Char} {rest : List Char} (h : reader.remaining = c :: rest) :
    reader.skip.remaining = rest := by
  simp [skip, h]

theorem canRead_eq_false : reader.canRead = false ↔ reader.remaining = [] := by
  simp [canRead]

def token (reader : StringReader) : List Char := reader.remaining.takeWhile (· ≠ ' ')

def Stops (reader : StringReader) : Prop :=
  reader.remaining = [] ∨ ∃ rest, reader.remaining = ' ' :: rest

theorem stops_iff : reader.Stops ↔ ¬ (reader.canRead && reader.peek ≠ some ' ') = true := by
  cases h : reader.remaining with
  | nil => simp [Stops, canRead, h]
  | cons c rest => simp [Stops, canRead, peek, h]

theorem charLenUtf16_pos (c : Char) : 0 < charLenUtf16 c := by
  rw [charLenUtf16]
  split <;> omega

theorem canReadLength_iff {length : ℕ} :
    reader.canReadLength length = true ↔ length ≤ lenUtf16 reader.remaining := by
  simp only [canReadLength, totalLength, input, cursor, lenUtf16_append, decide_eq_true_eq]
  omega

theorem Stops.canReadLength_one (h : reader.Stops) :
    reader.canReadLength 1 = true ↔ ∃ rest, reader.remaining = ' ' :: rest := by
  rw [canReadLength_iff]
  rcases h with h | ⟨rest, h⟩
  · simp [h, lenUtf16]
  · simp [h, lenUtf16, charLenUtf16]

theorem Stops.canReadLength_two (h : reader.Stops) :
    reader.canReadLength 2 = true ↔ ∃ c rest, reader.remaining = ' ' :: c :: rest := by
  rw [canReadLength_iff]
  rcases h with h | ⟨_ | ⟨c, rest⟩, h⟩
  · simp [h, lenUtf16]
  · simp [h, lenUtf16, charLenUtf16]
  · refine ⟨fun _ => ⟨c, rest, h⟩, fun _ => ?_⟩
    have hpos := charLenUtf16_pos c
    have hspace : charLenUtf16 ' ' = 1 := rfl
    simp only [h, lenUtf16, map_cons, sum_cons]
    omega

end StringReader

def CommandRuntime.Forward (R : CommandRuntime S) : Prop :=
  ∀ argument reader source value after, R.parse argument reader source = .ok (value, after) →
    reader.Advances after

namespace CommandDispatcher

section Attempts

variable
  {recurse recurse' : NodeId → StringReader → ParsedCommandContext R → Option (ParseResults R)}
  {original : StringReader} {soFar : ParsedCommandContext R} {childId : NodeId}
  {child : CommandNode R}

/-- The ways in which one candidate is tried. -/
inductive Attempts (d : CommandDispatcher R)
    (recurse : NodeId → StringReader → ParsedCommandContext R → Option (ParseResults R))
    (original : StringReader) (soFar : ParsedCommandContext R) (childId : NodeId)
    (child : CommandNode R) : Attempt R → Prop where
  | skipped : child.requirement.allows soFar.source = false →
      Attempts d recurse original soFar childId child .skipped
  | failed {error : CommandSyntaxError R.ErrorKind} :
      child.requirement.allows soFar.source = true →
      d.parseNode childId original soFar = some (.error error) →
      Attempts d recurse original soFar childId child (.failed ⟨childId, error⟩)
  | trailing {reader : StringReader} {context : ParsedCommandContext R} :
      child.requirement.allows soFar.source = true →
      d.parseNode childId original soFar = some (.ok (reader, context)) → ¬ reader.Stops →
      Attempts d recurse original soFar childId child
        (.failed ⟨childId, reader.error .expectedArgumentSeparator⟩)
  | redirected {reader : StringReader} {context : ParsedCommandContext R} {target : NodeId}
      {rest : List Char} {inner : ParseResults R} :
      child.requirement.allows soFar.source = true →
      d.parseNode childId original soFar = some (.ok (reader, context)) →
      child.redirectTarget = some (some target) → reader.remaining = ' ' :: rest →
      recurse target reader.skip (.new context.source target reader.skip.cursor) = some inner →
      Attempts d recurse original soFar childId child (.redirected
        ⟨(context.setExecutor (executorFor child context.source)).setChild inner.context,
          inner.reader, inner.errors⟩)
  | descended {reader : StringReader} {context : ParsedCommandContext R} {c : Char}
      {rest : List Char} {inner : ParseResults R} :
      child.requirement.allows soFar.source = true →
      d.parseNode childId original soFar = some (.ok (reader, context)) →
      child.redirectTarget = some none → reader.remaining = ' ' :: c :: rest →
      recurse childId reader.skip (context.setExecutor (executorFor child context.source)) =
        some inner →
      Attempts d recurse original soFar childId child (.potential inner)
  | ended {reader : StringReader} {context : ParsedCommandContext R} {target : Option NodeId} :
      child.requirement.allows soFar.source = true →
      d.parseNode childId original soFar = some (.ok (reader, context)) →
      child.redirectTarget = some target →
      reader.remaining = [] ∨ target = none ∧ reader.remaining = [' '] →
      Attempts d recurse original soFar childId child (.potential
        ⟨context.setExecutor (executorFor child context.source), reader, []⟩)

variable {outcome : Attempt R}

theorem attempts_of_attempt (hchild : d.nodes[childId.index]? = some child)
    (h : d.attempt recurse original soFar childId = some outcome) :
    d.Attempts recurse original soFar childId child outcome := by
  rw [attempt, hchild, bind_eq_bind, bind_some] at h
  split at h
  · rename_i hallows
    obtain rfl : _ = outcome := by simpa using h
    exact .skipped (by simpa using hallows)
  rename_i hallows
  have hallows : child.requirement.allows soFar.source = true := by simpa using hallows
  rw [bind_eq_bind, bind_eq_some_iff] at h
  obtain ⟨parsed, hparsed, h⟩ := h
  split at h
  · obtain rfl : _ = outcome := by simpa using h
    exact .failed hallows hparsed
  rename_i reader context
  split at h
  · rename_i hstops
    obtain rfl : _ = outcome := by simpa using h
    exact .trailing hallows hparsed (fun hs => stops_iff.mp hs hstops)
  rename_i hstops
  have hstops : reader.Stops := stops_iff.mpr hstops
  rw [bind_eq_bind, bind_eq_some_iff] at h
  obtain ⟨redirect, hredirect, h⟩ := h
  split at h
  · split at h
    · rename_i target hread
      obtain ⟨rest, hrest⟩ := hstops.canReadLength_one.mp hread
      rw [bind_eq_bind, bind_eq_some_iff] at h
      obtain ⟨inner, hinner, h⟩ := h
      obtain rfl : _ = outcome := by simpa using h
      exact .redirected hallows hparsed hredirect hrest hinner
    · rename_i target hread
      obtain rfl : _ = outcome := by simpa using h
      refine .ended hallows hparsed hredirect (.inl ?_)
      rcases hstops with hend | hspace
      · exact hend
      · exact absurd (StringReader.Stops.canReadLength_one (.inr hspace) |>.mpr hspace) hread
  · split at h
    · rename_i hread
      obtain ⟨c, rest, hrest⟩ := hstops.canReadLength_two.mp hread
      rw [bind_eq_bind, bind_eq_some_iff] at h
      obtain ⟨inner, hinner, h⟩ := h
      obtain rfl : _ = outcome := by simpa using h
      exact .descended hallows hparsed hredirect hrest hinner
    · rename_i hread
      obtain rfl : _ = outcome := by simpa using h
      refine .ended hallows hparsed hredirect ?_
      rcases hstops with hend | ⟨_ | ⟨c, rest⟩, hspace⟩
      · exact .inl hend
      · exact .inr ⟨rfl, hspace⟩
      · exact absurd ((StringReader.Stops.canReadLength_two (.inr ⟨_, hspace⟩)).mpr
          ⟨c, rest, hspace⟩) hread

theorem attempt_of_attempts (hchild : d.nodes[childId.index]? = some child)
    (h : d.Attempts recurse original soFar childId child outcome) :
    d.attempt recurse original soFar childId = some outcome := by
  rw [attempt, hchild, bind_eq_bind, bind_some]
  cases h with
  | skipped hallows => simp [hallows]
  | failed hallows hparsed => simp [hallows, hparsed]
  | trailing hallows hparsed hstops =>
    rw [stops_iff, not_not] at hstops
    simp only [hallows, hparsed, hstops, Bool.not_true, Bool.false_eq_true, if_false, if_true,
      bind_eq_bind, bind_some]
  | redirected hallows hparsed hredirect hrest hinner =>
    have hstops : StringReader.Stops _ := .inr ⟨_, hrest⟩
    have hread := hstops.canReadLength_one.mpr ⟨_, hrest⟩
    rw [stops_iff] at hstops
    simp only [hallows, hparsed, hstops, hredirect, hread, Bool.not_true, Bool.false_eq_true,
      if_false, if_true, bind_eq_bind, bind_some]
    exact (congrArg (Option.bind · _) hinner).trans rfl
  | descended hallows hparsed hredirect hrest hinner =>
    have hstops : StringReader.Stops _ := .inr ⟨_, hrest⟩
    have hread := hstops.canReadLength_two.mpr ⟨_, _, hrest⟩
    rw [stops_iff] at hstops
    simp only [hallows, hparsed, hstops, hredirect, hread, hinner, Bool.not_true,
      Bool.false_eq_true, if_false, if_true, bind_eq_bind, bind_some]
  | @ended reader context target hallows hparsed hredirect hend =>
    have hstops : reader.Stops := by
      rcases hend with hend | ⟨-, hend⟩
      · exact .inl hend
      · exact .inr ⟨[], hend⟩
    have hone : target.isSome → ¬ reader.canReadLength 1 = true := by
      intro hsome hread
      obtain ⟨rest, hrest⟩ := hstops.canReadLength_one.mp hread
      rcases hend with hend | ⟨rfl, -⟩
      · simp [hend] at hrest
      · cases hsome
    have htwo : ¬ reader.canReadLength 2 = true := by
      intro hread
      obtain ⟨c, rest, hrest⟩ := hstops.canReadLength_two.mp hread
      rcases hend with hend | ⟨-, hend⟩ <;> simp [hend] at hrest
    rw [stops_iff] at hstops
    simp only [hallows, hparsed, hstops, hredirect, Bool.not_true, Bool.false_eq_true, if_false,
      bind_eq_bind, bind_some]
    cases target with
    | none => simp only [htwo, Bool.false_eq_true, if_false]
    | some target => simp only [hone rfl, Bool.false_eq_true, if_false]

section

variable (hrec : ∀ parent reader context parse, recurse parent reader context = some parse →
    recurse' parent reader context = some parse)

include hrec

theorem attempt_mono (h : d.attempt recurse original soFar childId = some outcome) :
    d.attempt recurse' original soFar childId = some outcome := by
  cases hchild : d.nodes[childId.index]? with
  | none => simp [attempt, hchild] at h
  | some child =>
    apply attempt_of_attempts hchild
    cases attempts_of_attempt hchild h with
    | skipped hallows => exact .skipped hallows
    | failed hallows hparsed => exact .failed hallows hparsed
    | trailing hallows hparsed hstops => exact .trailing hallows hparsed hstops
    | redirected hallows hparsed hredirect hrest hinner =>
      exact .redirected hallows hparsed hredirect hrest (hrec _ _ _ _ hinner)
    | descended hallows hparsed hredirect hrest hinner =>
      exact .descended hallows hparsed hredirect hrest (hrec _ _ _ _ hinner)
    | ended hallows hparsed hredirect hend => exact .ended hallows hparsed hredirect hend

theorem parseChildren_mono {children : List NodeId} {errors : List (ParseError R)}
    {potentials : List (ParseResults R)} {parse : ParseResults R}
    (h : d.parseChildren recurse original soFar children errors potentials = some parse) :
    d.parseChildren recurse' original soFar children errors potentials = some parse := by
  induction children generalizing errors potentials with
  | nil =>
    cases potentials with
    | nil => simpa only [parseChildren] using h
    | cons best potentials => simpa only [parseChildren] using h
  | cons childId children ih =>
    rw [parseChildren, bind_eq_bind, bind_eq_some_iff] at h
    obtain ⟨outcome, houtcome, h⟩ := h
    rw [parseChildren, attempt_mono hrec houtcome, bind_eq_bind, bind_some]
    cases outcome with
    | skipped => exact ih h
    | failed error => exact ih h
    | potential found => exact ih h
    | redirected found => exact h

end

end Attempts

variable {fuel : ℕ} {parent nodeId : NodeId} {reader after original : StringReader}
  {context : ParsedCommandContext R} {parse : ParseResults R}

theorem parseNodes_succ (h : d.parseNodes fuel parent reader context = some parse) :
    d.parseNodes (fuel + 1) parent reader context = some parse := by
  induction fuel generalizing parent reader context parse with
  | zero => cases h
  | succ fuel ih =>
    rw [parseNodes, bind_eq_bind, bind_eq_some_iff] at h ⊢
    obtain ⟨children, hchildren, h⟩ := h
    exact ⟨children, hchildren, parseChildren_mono (fun _ _ _ _ hinner => ih hinner) h⟩

theorem parseNodes_le {fuel' : ℕ} (hle : fuel ≤ fuel')
    (h : d.parseNodes fuel parent reader context = some parse) :
    d.parseNodes fuel' parent reader context = some parse := by
  induction hle with
  | refl => exact h
  | step _ ih => exact parseNodes_succ ih

theorem advances_tryReadLiteral {literal : List Char}
    (h : reader.tryReadLiteral literal = some after) : reader.Advances after := by
  rw [tryReadLiteral] at h
  split at h
  · rename_i hprefix
    obtain ⟨rest, hrest⟩ := isPrefixOf_iff_prefix.mp hprefix
    simp only at h
    split at h
    · obtain rfl : _ = after := by simpa using h
      exact ⟨literal, by simp [← hrest], rfl⟩
    · cases h
  · cases h

variable {next : ParsedCommandContext R}

theorem advances_parseNode (hforward : R.Forward)
    (h : d.parseNode nodeId reader context = some (.ok (after, next))) : reader.Advances after := by
  rw [parseNode, bind_eq_bind, bind_eq_some_iff] at h
  obtain ⟨node, -, h⟩ := h
  split at h
  · cases h
  · split at h
    · cases h
    · rename_i hread
      rw [bind_eq_bind, bind_eq_some_iff] at h
      obtain ⟨range, -, h⟩ := h
      obtain ⟨rfl, -⟩ : _ = after ∧ _ = next := by simpa using h
      exact advances_tryReadLiteral hread
  · split at h
    · cases h
    · rename_i hread
      rw [bind_eq_bind, bind_eq_some_iff] at h
      obtain ⟨range, -, h⟩ := h
      obtain ⟨rfl, -⟩ : _ = after ∧ _ = next := by simpa using h
      exact hforward _ _ _ _ _ hread

theorem advances_parseNodes (hforward : R.Forward)
    (h : d.parseNodes fuel parent reader context = some parse) : reader.Advances parse.reader := by
  induction fuel generalizing parent reader context parse with
  | zero => cases h
  | succ fuel ih =>
    rw [parseNodes, bind_eq_bind, bind_eq_some_iff] at h
    obtain ⟨children, -, h⟩ := h
    refine parseChildren_forall (P := fun parse => reader.Advances parse.reader)
      (fun _ => .refl reader) ?_ (by simp) h
    intro child _ outcome houtcome parse hparse
    cases hchild : d.nodes[child.index]? with
    | none => simp [attempt, hchild] at houtcome
    | some node =>
      cases attempts_of_attempt hchild houtcome with
      | skipped => simp at hparse
      | failed => simp at hparse
      | trailing => simp at hparse
      | redirected _ hparsed _ _ hinner =>
        obtain rfl : _ = parse := by simpa using hparse
        have hreads := ih hinner
        exact (advances_parseNode hforward hparsed).trans
          ((advances_skip _).trans hreads)
      | descended _ hparsed _ _ hinner =>
        obtain rfl : _ = parse := by simpa using hparse
        exact (advances_parseNode hforward hparsed).trans
          ((advances_skip _).trans (ih hinner))
      | ended _ hparsed _ _ =>
        obtain rfl : _ = parse := by simpa using hparse
        exact advances_parseNode hforward hparsed

theorem between_of_advances (h : reader.Advances after) :
    ∃ range, StringRange.between reader.cursor after.cursor = some range := by
  rw [StringRange.between, dif_pos h.cursor_le]
  exact ⟨_, rfl⟩

theorem parseNode_total (hforward : R.Forward) {node : CommandNode R}
    (hnode : d.nodes[nodeId.index]? = some node) (hkind : node.kind ≠ .root) (reader : StringReader)
    (context : ParsedCommandContext R) :
    ∃ parsed, d.parseNode nodeId reader context = some parsed := by
  rw [parseNode, hnode, bind_eq_bind, bind_some]
  cases hdata : node.data with
  | root => simp [CommandNode.kind, hdata, CommandNodeData.kind] at hkind
  | literal literal =>
    simp only
    cases hread : reader.tryReadLiteral literal with
    | none => exact ⟨_, rfl⟩
    | some after =>
      obtain ⟨range, hrange⟩ := between_of_advances (advances_tryReadLiteral hread)
      simp [hrange]
  | argument name argumentType =>
    simp only
    cases hread : R.parse argumentType reader context.source with
    | error error => exact ⟨_, rfl⟩
    | ok parsed =>
      obtain ⟨value, after⟩ := parsed
      obtain ⟨range, hrange⟩ := between_of_advances (hforward _ _ _ _ _ hread)
      simp [hrange]

theorem skip_shorter (hforward : R.Forward)
    (h : d.parseNode nodeId original context = some (.ok (reader, next))) {rest : List Char}
    (hrest : reader.remaining = ' ' :: rest) :
    reader.skip.remaining.length < original.remaining.length := by
  have hadvances := (advances_parseNode hforward h).length_le
  rw [skip_remaining hrest]
  simp only [hrest, length_cons] at hadvances
  omega

theorem WellFormed.redirectTarget_total (hd : d.WellFormed) {node : CommandNode R}
    (h : node ∈ d.nodes) : ∃ target, node.redirectTarget = some target := by
  rw [CommandNode.redirectTarget]
  cases hredirect : node.redirect with
  | none => exact ⟨none, rfl⟩
  | some redirect =>
    obtain ⟨target, htarget, -⟩ := hd.targets node h redirect hredirect
    simp [htarget]

variable {recurse : NodeId → StringReader → ParsedCommandContext R → Option (ParseResults R)}

variable {soFar : ParsedCommandContext R}

theorem WellFormed.attempt_total (hd : d.WellFormed) (hforward : R.Forward)
    (hrec : ∀ parent reader context, reader.remaining.length < original.remaining.length →
      ∃ parse, recurse parent reader context = some parse)
    {parent : ℕ} {childId : NodeId} (hmem : d.Child parent childId) :
    ∃ outcome, d.attempt recurse original soFar childId = some outcome := by
  obtain ⟨child, hchild, hkind⟩ := hd.exists_child_node hmem
  have hat := (node_eq_some.mp hchild).2
  suffices ∃ outcome, d.Attempts recurse original soFar childId child outcome by
    obtain ⟨outcome, houtcome⟩ := this
    exact ⟨outcome, attempt_of_attempts hat houtcome⟩
  cases hallows : child.requirement.allows soFar.source with
  | false => exact ⟨_, .skipped hallows⟩
  | true =>
    obtain ⟨parsed, hparsed⟩ := parseNode_total hforward hat hkind original soFar
    cases parsed with
    | error error => exact ⟨_, .failed hallows hparsed⟩
    | ok parsed =>
      obtain ⟨reader, context⟩ := parsed
      obtain ⟨target, htarget⟩ := hd.redirectTarget_total (mem_nodes_of_node hchild)
      by_cases hstops : reader.Stops
      · rcases hstops with hend | ⟨rest, hrest⟩
        · exact ⟨_, .ended hallows hparsed htarget (.inl hend)⟩
        · have hskip := skip_shorter hforward hparsed hrest
          cases target with
          | some target =>
            obtain ⟨inner, hinner⟩ := hrec target reader.skip
              (.new context.source target reader.skip.cursor) hskip
            exact ⟨_, .redirected hallows hparsed htarget hrest hinner⟩
          | none =>
            cases rest with
            | nil => exact ⟨_, .ended hallows hparsed htarget (.inr ⟨rfl, hrest⟩)⟩
            | cons c rest =>
              obtain ⟨inner, hinner⟩ := hrec childId reader.skip
                (context.setExecutor (executorFor child context.source)) hskip
              exact ⟨_, .descended hallows hparsed htarget hrest hinner⟩
      · exact ⟨_, .trailing hallows hparsed hstops⟩

theorem parseChildren_total {children : List NodeId}
    (h : ∀ child ∈ children, ∃ outcome, d.attempt recurse original soFar child = some outcome)
    (errors : List (ParseError R)) (potentials : List (ParseResults R)) :
    ∃ parse, d.parseChildren recurse original soFar children errors potentials = some parse := by
  induction children generalizing errors potentials with
  | nil =>
    cases potentials with
    | nil => exact ⟨_, rfl⟩
    | cons best potentials => exact ⟨_, rfl⟩
  | cons childId children ih =>
    obtain ⟨outcome, houtcome⟩ := h childId mem_cons_self
    have hrest := ih fun child hchild => h child (mem_cons_of_mem _ hchild)
    rw [parseChildren, houtcome, bind_eq_bind, bind_some]
    cases outcome with
    | skipped => exact hrest errors potentials
    | failed error => exact hrest (errors ++ [error]) potentials
    | potential found => exact hrest errors (potentials ++ [found])
    | redirected found => exact ⟨found, rfl⟩

theorem relevantChildren_total {token : List Char} {children : List NodeId}
    (h : ∀ child ∈ children, ∃ node, d.nodes[child.index]? = some node)
    (arguments : List NodeId) :
    ∃ relevant, d.relevantChildren token children arguments = some relevant := by
  induction children generalizing arguments with
  | nil => exact ⟨arguments, rfl⟩
  | cons childId children ih =>
    obtain ⟨child, hchild⟩ := h childId mem_cons_self
    have hrest := ih fun other hother => h other (mem_cons_of_mem _ hother)
    rw [relevantChildren, hchild, bind_eq_bind, bind_some]
    split
    · split
      · exact ⟨_, rfl⟩
      · exact hrest arguments
    · exact hrest (arguments ++ [childId])
    · exact hrest arguments

theorem WellFormed.relevantNodes_total (hd : d.WellFormed) (parent : NodeId)
    (reader : StringReader) : ∃ children, d.relevantNodes parent reader = some children := by
  rw [relevantNodes]
  split
  · exact ⟨[], rfl⟩
  · rename_i node hnode
    apply relevantChildren_total
    intro child hchild
    obtain ⟨other, hother, -⟩ := hd.exists_child_node (child_of_node hnode hchild)
    exact ⟨other, (node_eq_some.mp hother).2⟩

/-- A parse ends when its fuel exceeds the length of the input that is left. -/
theorem WellFormed.parseNodes_total (hd : d.WellFormed) (hforward : R.Forward)
    (hfuel : reader.remaining.length < fuel) (parent : NodeId) (context : ParsedCommandContext R) :
    ∃ parse, d.parseNodes fuel parent reader context = some parse := by
  induction fuel generalizing reader parent context with
  | zero => omega
  | succ fuel ih =>
    obtain ⟨children, hchildren⟩ := hd.relevantNodes_total parent reader
    rw [parseNodes, hchildren, bind_eq_bind, bind_some]
    apply parseChildren_total
    intro child hchild
    obtain ⟨node, hnode, hmem⟩ := relevantNodes_mem hchildren hchild
    exact hd.attempt_total hforward
      (fun parent reader context hlt => ih (by omega) parent context) (child_of_node hnode hmem)

end CommandDispatcher

end Steel
