import Steel.Command.PendingCommands

/-! # Commands of a sender keep their order

The barriers of the retained executions are counted exactly, whatever is submitted, popped, retained
and polled.
-/

namespace Steel

open List PendingRequestQueues CommandRequestQueue

namespace PendingCommandExecutionQueue

variable {Execution : Type} {suspensionOrder : Execution → Option CommandSuspensionOrder}
variable {queue : PendingCommandExecutionQueue Execution}

/-- The barriers of retained executions, and of those that a tick has taken from the queue. -/
structure Balanced (held : List (CommandSenderKey × CommandSuspensionOrder))
    (queue : PendingCommandExecutionQueue Execution) : Prop where
  sources : ReferenceCount.Counts queue.blockedSources
    (held.map Prod.fst ++ queue.queued.map (·.owner.key))
  globals : queue.globalBarriers =
    (held.map Prod.snd).count .global + (queue.queued.map (·.order)).count .global

def Current (suspensionOrder : Execution → Option CommandSuspensionOrder)
    (queue : PendingCommandExecutionQueue Execution) : Prop :=
  ∀ pending ∈ queue.queued, suspensionOrder pending.execution = some pending.order

variable {held : List (CommandSenderKey × CommandSuspensionOrder)}
  {pending : PendingCommandExecution Execution}

theorem Balanced.retain (h : Balanced held queue) (source : CommandSenderKey)
    (order : CommandSuspensionOrder) :
    Balanced ((source, order) :: held) (queue.retainBarrier source order) := by
  refine ⟨h.sources.retain, ?_⟩
  have := h.globals
  cases order <;> simp [retainBarrier] <;> omega

theorem Balanced.release {source : CommandSenderKey} {order : CommandSuspensionOrder}
    (h : Balanced ((source, order) :: held) queue) :
    Balanced held (queue.releaseBarrier source order) := by
  refine ⟨h.sources.release, ?_⟩
  have := h.globals
  cases order <;> simp [releaseBarrier] at this ⊢ <;> omega

/-- An execution in the hands of an operation is retained at the end of the queue. -/
theorem Balanced.push (h : Balanced ((pending.owner.key, pending.order) :: held) queue) :
    Balanced held { queue with queued := queue.queued ++ [pending] } := by
  constructor
  · apply h.sources.perm
    simp only [map_cons, map_append, map_nil, ← append_assoc]
    exact (perm_append_singleton _ _).symm
  · rw [h.globals]
    simp only [map_cons, map_append, map_nil, count_cons, count_append, count_nil]
    omega

theorem Balanced.pop {queued : List (PendingCommandExecution Execution)} (h : Balanced [] queue)
    (hqueue : queue.queued = pending :: queued) :
    Balanced [(pending.owner.key, pending.order)] { queue with queued := queued } := by
  constructor
  · simpa [hqueue] using h.sources
  · have := h.globals
    simp only [hqueue, map_cons, map_nil, count_cons, count_nil] at this ⊢
    omega

theorem Balanced.blocks_iff (h : Balanced [] queue) (source : CommandSenderKey) :
    queue.blocks source = true ↔
      ∃ pending ∈ queue.queued, pending.owner.key = source ∨ pending.order = .global := by
  have hglobals : 0 < queue.globalBarriers ↔ ∃ pending ∈ queue.queued, pending.order = .global := by
    rw [h.globals]
    simp [count_pos_iff]
  simp only [blocks, gt_iff_lt, Bool.or_eq_true, decide_eq_true_eq, hglobals, h.sources.mem_iff,
    map_nil, nil_append, mem_map]
  constructor
  · rintro (⟨pending, hpending, horder⟩ | ⟨pending, hpending, hkey⟩)
    · exact ⟨pending, hpending, .inr horder⟩
    · exact ⟨pending, hpending, .inl hkey⟩
  · rintro ⟨pending, hpending, hkey | horder⟩
    · exact .inr ⟨pending, hpending, hkey⟩
    · exact .inl ⟨pending, hpending, horder⟩

theorem Balanced.no_barrier (h : Balanced [] queue) (hqueue : queue.queued = []) :
    queue.blockedSources = ∅ ∧ queue.globalBarriers = 0 := by
  constructor
  · apply ReferenceCount.Counts.eq_empty
    simpa [hqueue] using h.sources
  · simp [h.globals, hqueue]

/-- What every operation keeps between two of them. -/
structure Orderly (suspensionOrder : Execution → Option CommandSuspensionOrder)
    (queue : PendingCommandExecutionQueue Execution) : Prop where
  balanced : Balanced [] queue
  current : Current suspensionOrder queue

theorem Orderly.pushSuspended (h : Orderly suspensionOrder queue) (owner : CommandExecutionOwner)
    (execution : Execution) :
    Orderly suspensionOrder (queue.pushSuspended suspensionOrder owner execution).2 := by
  unfold PendingCommandExecutionQueue.pushSuspended
  split
  · exact h
  case _ order horder =>
    refine ⟨(h.balanced.retain owner.key order).push, fun pending hpending => ?_⟩
    rcases mem_append.1 hpending with hpending | hpending
    · exact h.current pending hpending
    · obtain rfl := mem_singleton.1 hpending
      exact horder

theorem tickPending_orderly {ownerIsCurrent : Bool} {poll : Execution → ExecutionStop × Execution}
    (hbalanced : Balanced [(pending.owner.key, pending.order)] queue)
    (hcurrent : Current suspensionOrder queue) :
    Orderly suspensionOrder (queue.tickPending suspensionOrder pending ownerIsCurrent poll).1 := by
  have hreleased : Orderly suspensionOrder (queue.releaseBarrier pending.owner.key pending.order) :=
    ⟨hbalanced.release, hcurrent⟩
  unfold tickPending
  split
  · exact hreleased
  · split
    case _ execution _ =>
      split
      · exact hreleased
      case _ order horder =>
        have hchanged : Balanced [(pending.owner.key, order)] (if order ≠ pending.order then
              (queue.releaseBarrier pending.owner.key pending.order).retainBarrier
                pending.owner.key order
            else queue) := by
          split
          · exact hbalanced.release.retain pending.owner.key order
          case _ hsame =>
            rw [not_ne_iff.1 hsame]
            exact hbalanced
        refine ⟨hchanged.push, fun other hother => ?_⟩
        rcases mem_append.1 hother with hother | hother
        · apply hcurrent other
          split at hother <;> exact hother
        · obtain rfl := mem_singleton.1 hother
          exact horder
    · exact hreleased

theorem tickLoop_orderly (ownerIsCurrent : ℕ → CommandExecutionOwner → Bool)
    (poll : ℕ → Execution → ExecutionStop × Execution) (scheduled : ℕ) :
    ∀ (queue : PendingCommandExecutionQueue Execution) (polled finished : ℕ),
      Orderly suspensionOrder queue →
      Orderly suspensionOrder
        (tickLoop suspensionOrder ownerIsCurrent poll scheduled queue polled finished).1 := by
  induction scheduled with
  | zero => exact fun queue polled finished h => h
  | succ scheduled ih =>
    intro queue polled finished h
    rw [tickLoop]
    split
    · exact h
    case _ pending queued hqueue =>
      apply ih
      apply tickPending_orderly (h.balanced.pop hqueue)
      exact fun other hother => h.current other (by simp [hqueue, hother])

end PendingCommandExecutionQueue

/-- The owner and the command of a request to execute one. -/
def CommandRequest.execution? : CommandRequest → Option (CommandExecutionOwner × List Char)
  | .execute owner command => some (owner, command)
  | .suggestions _ _ _ => none

def commandsOf (key : CommandSenderKey) (commands : List (CommandExecutionOwner × List Char)) :
    List (CommandExecutionOwner × List Char) :=
  commands.filter fun command => command.1.key = key

@[simp] theorem commandsOf_append (key : CommandSenderKey)
    (commands commands' : List (CommandExecutionOwner × List Char)) :
    commandsOf key (commands ++ commands') = commandsOf key commands ++ commandsOf key commands' :=
  filter_append commands commands'

namespace CommandRequestQueue

def waiting (queue : CommandRequestQueue) : List (CommandExecutionOwner × List Char) :=
  queue.executions.filterMap CommandRequest.execution?

variable {queue after : CommandRequestQueue}

theorem submit_waiting {request : CommandRequest} (h : queue.submit request = .ok after) :
    waiting after = queue.waiting ++ request.execution?.toList := by
  cases request with
  | execute owner command =>
    simp only [submit, submitExecution] at h
    split at h
    · cases h
    · cases h
      simp [waiting, CommandRequest.execution?]
  | suggestions owner transactionId input =>
    simp only [submit, submitSuggestions] at h
    split at h
    · cases h
      simp [waiting, CommandRequest.execution?]
    · split at h
      · cases h
      · cases h
        simp [waiting, CommandRequest.execution?]

end CommandRequestQueue

theorem PendingRequestQueues.popAllowedExecution_split {K E Q : Type}
    {queues after : PendingRequestQueues K E Q} {executionAllowed : E → Bool} {request : E}
    (h : queues.popAllowedExecution executionAllowed = some (request, after)) :
    ∃ earlier later, queues.executions = earlier ++ request :: later ∧
      after.executions = earlier ++ later ∧ after.suggestions = queues.suggestions ∧
      executionAllowed request = true ∧ ∀ other ∈ earlier, executionAllowed other = false := by
  simp only [popAllowedExecution, Option.bind_eq_bind, Option.bind_eq_some_iff, pure,
    Option.some.injEq, Prod.mk.injEq] at h
  obtain ⟨index, hindex, request', hrequest, rfl, rfl⟩ := h
  obtain ⟨hlt, hallowed, hearlier⟩ := List.findIdx?_eq_some_iff_getElem.1 hindex
  obtain ⟨_, hget⟩ := List.getElem?_eq_some_iff.1 hrequest
  refine ⟨queues.executions.take index, queues.executions.drop (index + 1), ?_,
    eraseIdx_eq_take_drop_succ _ _, rfl, hget ▸ hallowed, fun other hother => ?_⟩
  · rw [← hget, ← drop_eq_getElem_cons hlt, take_append_drop]
  · obtain ⟨i, hi, rfl⟩ := mem_take_iff_getElem.1 hother
    simpa using hearlier i (by omega)

namespace CommandRequestQueue

variable {queue after : CommandRequestQueue}

def SuggestionsOnly (queue : CommandRequestQueue) : Prop :=
  ∀ pending ∈ queue.suggestions, pending.2.execution? = none

variable {request : CommandRequest} {executionAllowed : CommandExecutionOwner → Bool}

theorem SuggestionsOnly.submit (hs : queue.SuggestionsOnly) (h : queue.submit request = .ok after) :
    SuggestionsOnly after := by
  cases request with
  | execute owner command =>
    simp only [submit, submitExecution] at h
    split at h
    · cases h
    · cases h
      exact hs
  | suggestions owner transactionId input =>
    simp only [submit, submitSuggestions] at h
    split at h
    · cases h
      intro pending hpending
      rcases mem_or_eq_of_mem_set hpending with hpending | rfl
      · exact hs pending hpending
      · rfl
    · split at h
      · cases h
      · cases h
        intro pending hpending
        rcases mem_append.1 hpending with hpending | hpending
        · exact hs pending hpending
        · obtain rfl := mem_singleton.1 hpending
          rfl

/-- What is taken from the queue: a suggestion request, or the first command whose sender may
execute it. -/
inductive Popped (executionAllowed : CommandExecutionOwner → Bool) (queue : CommandRequestQueue) :
    CommandRequest → CommandRequestQueue → Prop
  | suggestions (owner : CommandExecutionOwner) (transactionId : ℤ) (input : List Char)
      {after : CommandRequestQueue} (hwaiting : after.waiting = queue.waiting) :
    Popped executionAllowed queue (.suggestions owner transactionId input) after
  | execute {owner : CommandExecutionOwner} {command : List Char}
      {earlier later : List (CommandExecutionOwner × List Char)} {after : CommandRequestQueue}
      (hbefore : queue.waiting = earlier ++ (owner, command) :: later)
      (hafter : after.waiting = earlier ++ later) (hallowed : executionAllowed owner = true)
      (hearlier : ∀ other ∈ earlier, executionAllowed other.1 = false) :
    Popped executionAllowed queue (.execute owner command) after

theorem popAllowedExecution_popped (h : queue.popAllowedExecution (fun request =>
      match request with
      | .execute owner _ => executionAllowed owner
      | .suggestions _ _ _ => false) = some (request, after)) :
    Popped executionAllowed queue request after ∧ after.suggestions = queue.suggestions := by
  obtain ⟨earlier, later, hbefore, hafter, hsuggestions, hallowed, hearlier⟩ :=
    popAllowedExecution_split h
  refine ⟨?_, hsuggestions⟩
  cases request with
  | suggestions owner transactionId input => cases hallowed
  | execute owner command =>
    have hqueue : queue.waiting = earlier.filterMap CommandRequest.execution? ++
        (owner, command) :: later.filterMap CommandRequest.execution? := by
      simp [waiting, hbefore, CommandRequest.execution?]
    have hnext : after.waiting = earlier.filterMap CommandRequest.execution? ++
        later.filterMap CommandRequest.execution? := by
      simp [waiting, hafter]
    refine .execute hqueue hnext hallowed fun other hother => ?_
    obtain ⟨request, hrequest, hother⟩ := mem_filterMap.1 hother
    have hblocked := hearlier request hrequest
    cases request with
    | suggestions owner transactionId input => cases hother
    | execute owner command =>
      cases hother
      exact hblocked

theorem Popped.prefer (h : Popped executionAllowed queue request after) (preferExecution : Bool) :
    Popped executionAllowed queue request { after with preferExecution := preferExecution } := by
  cases h with
  | suggestions owner transactionId input hwaiting =>
    exact .suggestions owner transactionId input hwaiting
  | execute hbefore hafter hallowed hearlier => exact .execute hbefore hafter hallowed hearlier

theorem SuggestionsOnly.pop (hs : queue.SuggestionsOnly) {key : CommandSuggestionKey}
    {suggestions : List (CommandSuggestionKey × CommandRequest)}
    (h : queue.suggestions = (key, request) :: suggestions) :
    Popped executionAllowed queue request
        { queue with suggestions := suggestions, preferExecution := true } ∧
      SuggestionsOnly { queue with suggestions := suggestions, preferExecution := true } := by
  constructor
  · have hnone := hs (key, request) (by simp [h])
    cases request with
    | execute owner command => cases hnone
    | suggestions owner transactionId input => exact .suggestions owner transactionId input rfl
  · exact fun pending hpending => hs pending (by simp [h, hpending])

theorem popFrontRunnable_popped (hs : queue.SuggestionsOnly)
    (h : queue.popFrontRunnable executionAllowed = some (request, after)) :
    Popped executionAllowed queue request after ∧ SuggestionsOnly after := by
  have hallowed : ∀ {request : CommandRequest} {next : CommandRequestQueue},
      queue.popAllowedExecution (fun request =>
        match request with
        | .execute owner _ => executionAllowed owner
        | .suggestions _ _ _ => false) = some (request, next) →
      Popped executionAllowed queue request { next with preferExecution := false } ∧
        SuggestionsOnly { next with preferExecution := false } := by
    intro request next hpop
    obtain ⟨hpopped, hsuggestions⟩ := popAllowedExecution_popped hpop
    exact ⟨hpopped.prefer false, fun pending hpending => hs pending (hsuggestions ▸ hpending)⟩
  unfold popFrontRunnable popFrontWhere at h
  split at h
  · split at h
    case _ hpop =>
      cases h
      exact hallowed hpop
    · split at h
      · cases h
      case _ hsuggestions =>
        cases h
        exact hs.pop hsuggestions
  · split at h
    case _ hsuggestions =>
      cases h
      exact hs.pop hsuggestions
    · simp only [Option.map_map, Option.map_eq_some_iff] at h
      obtain ⟨⟨popped, next⟩, hpop, hnext⟩ := h
      cases hnext
      exact hallowed hpop

end CommandRequestQueue

/-- The queues of a server, with the commands that have been submitted and popped so far. -/
structure CommandQueues (Execution : Type) where
  requests : CommandRequestQueue
  pending : PendingCommandExecutionQueue Execution
  submitted : List (CommandExecutionOwner × List Char)
  popped : List (CommandExecutionOwner × List Char)

/-- What happens to the queues. A popped command may leave an execution. -/
inductive CommandQueueEvent (Execution : Type) where
  | submit (request : CommandRequest)
  | pop (execute : CommandExecutionOwner → List Char → Option Execution)
  | tick (limit : ℕ) (ownerIsCurrent : ℕ → CommandExecutionOwner → Bool)
      (poll : ℕ → Execution → ExecutionStop × Execution)

namespace CommandQueues

variable {Execution : Type} (suspensionOrder : Execution → Option CommandSuspensionOrder)

def new (executionCapacity suggestionCapacity : ℕ) : CommandQueues Execution where
  requests := .new executionCapacity suggestionCapacity
  pending := .new
  submitted := []
  popped := []

variable (queues : CommandQueues Execution)

/-- The next request, with the senders blocked that have to wait. -/
def popRunnable : Option (CommandRequest × CommandRequestQueue) :=
  queues.requests.popFrontRunnable fun owner => !queues.pending.blocks owner.key

def step : CommandQueueEvent Execution → CommandQueues Execution
  | .submit request =>
    match queues.requests.submit request with
    | .error _ => queues
    | .ok requests => { queues with
        requests := requests
        submitted := queues.submitted ++ request.execution?.toList }
  | .pop execute =>
    match queues.popRunnable with
    | none => queues
    | some (.suggestions _ _ _, requests) => { queues with requests := requests }
    | some (.execute owner command, requests) => { queues with
        requests := requests
        pending :=
          match execute owner command with
          | none => queues.pending
          | some execution => (queues.pending.pushSuspended suspensionOrder owner execution).2
        popped := queues.popped ++ [(owner, command)] }
  | .tick limit ownerIsCurrent poll =>
    { queues with pending := (queues.pending.tick suspensionOrder limit ownerIsCurrent poll).1 }

variable {suspensionOrder}

/-- The invariant of the queues. -/
structure Ordered (suspensionOrder : Execution → Option CommandSuspensionOrder)
    (queues : CommandQueues Execution) : Prop where
  pending : queues.pending.Orderly suspensionOrder
  requests : queues.requests.SuggestionsOnly
  inOrder : ∀ key, commandsOf key queues.popped ++ commandsOf key queues.requests.waiting =
    commandsOf key queues.submitted

theorem ordered_new (executionCapacity suggestionCapacity : ℕ) :
    Ordered suspensionOrder (new executionCapacity suggestionCapacity) := by
  refine ⟨⟨⟨.empty, rfl⟩, ?_⟩, ?_, fun key => rfl⟩
  · exact fun pending hpending => absurd hpending not_mem_nil
  · exact fun pending hpending => absurd hpending not_mem_nil

variable {queues : CommandQueues Execution}

/-- The first waiting command of a sender that is not blocked is the first of this sender. -/
theorem Ordered.inOrder_pop
    (h : Ordered suspensionOrder queues) {owner : CommandExecutionOwner} {command : List Char}
    {earlier later : List (CommandExecutionOwner × List Char)}
    (hbefore : queues.requests.waiting = earlier ++ (owner, command) :: later)
    (hearlier : ∀ other ∈ earlier, other.1.key ≠ owner.key) (key : CommandSenderKey) :
    commandsOf key (queues.popped ++ [(owner, command)]) ++ commandsOf key (earlier ++ later) =
      commandsOf key queues.submitted := by
  rw [← h.inOrder key, hbefore]
  by_cases hkey : owner.key = key
  · have hnone : commandsOf key earlier = [] := by
      apply filter_eq_nil_iff.2
      intro other hother
      simpa [← hkey] using hearlier other hother
    have hone : commandsOf key ((owner, command) :: later) =
        (owner, command) :: commandsOf key later :=
      filter_cons_of_pos (by simpa using hkey)
    simp only [commandsOf_append, hnone, hone, nil_append, append_assoc]
    simp [commandsOf, hkey]
  · have hother : commandsOf key [(owner, command)] = [] := by
      simp [commandsOf, hkey]
    have hlater : commandsOf key ((owner, command) :: later) = commandsOf key later :=
      filter_cons_of_neg (by simpa using hkey)
    simp [commandsOf_append, hother, hlater]

theorem Ordered.step (h : Ordered suspensionOrder queues) (event : CommandQueueEvent Execution) :
    Ordered suspensionOrder (queues.step suspensionOrder event) := by
  cases event with
  | submit request =>
    rw [CommandQueues.step]
    split
    · exact h
    case _ requests hsubmit =>
      refine ⟨h.pending, h.requests.submit hsubmit, fun key => ?_⟩
      rw [submit_waiting hsubmit, commandsOf_append, ← append_assoc,
        h.inOrder key, commandsOf_append]
  | pop execute =>
    rw [CommandQueues.step]
    split
    · exact h
    case _ requests hpop =>
      obtain ⟨hpopped, hrequests⟩ := popFrontRunnable_popped h.requests hpop
      cases hpopped with
      | suggestions owner transactionId input hwaiting =>
        exact ⟨h.pending, hrequests, fun key => by rw [hwaiting, h.inOrder key]⟩
    case _ owner command requests hpop =>
      obtain ⟨hpopped, hrequests⟩ := popFrontRunnable_popped h.requests hpop
      cases hpopped with
      | execute hbefore hafter hallowed hearlier =>
        refine ⟨?_, hrequests, fun key => ?_⟩
        · dsimp only
          split
          · exact h.pending
          · exact h.pending.pushSuspended owner _
        · rw [hafter]
          refine h.inOrder_pop hbefore (fun other hother hkey => ?_) key
          have := hearlier other hother
          rw [hkey, hallowed] at this
          cases this
  | tick limit ownerIsCurrent poll =>
    exact ⟨PendingCommandExecutionQueue.tickLoop_orderly _ _ _ _ _ _ h.pending, h.requests,
      h.inOrder⟩

/-- Whatever is submitted, popped, retained and polled, a sender is blocked by its own retained
commands and by global ones, its commands are popped as submitted and never past a retained one,
and no barrier is left without retained commands. -/
theorem run_ordered (suspensionOrder : Execution → Option CommandSuspensionOrder)
    (executionCapacity suggestionCapacity : ℕ) (events : List (CommandQueueEvent Execution)) :
    let queues := runSteps (step suspensionOrder) (new executionCapacity suggestionCapacity) events
    (∀ key, queues.pending.blocks key = true ↔ ∃ pending ∈ queues.pending.queued,
      pending.owner.key = key ∨ suspensionOrder pending.execution = some .global) ∧
    (∀ key, commandsOf key queues.popped ++ commandsOf key queues.requests.waiting =
      commandsOf key queues.submitted) ∧
    (∀ owner command requests, queues.popRunnable = some (.execute owner command, requests) →
      ∀ pending ∈ queues.pending.queued, pending.owner.key ≠ owner.key ∧
        suspensionOrder pending.execution ≠ some .global) ∧
    (queues.pending.queued = [] →
      queues.pending.blockedSources = ∅ ∧ queues.pending.globalBarriers = 0) := by
  intro queues
  have hguarded : Guarded (step suspensionOrder) (fun _ _ => True)
      (new executionCapacity suggestionCapacity) events :=
    guarded_of_forall fun _ _ _ => trivial
  have h : Ordered suspensionOrder queues :=
    hguarded.invariant (fun queues event h _ => h.step event)
      (ordered_new executionCapacity suggestionCapacity)
  have hblocks : ∀ key, queues.pending.blocks key = true ↔ ∃ pending ∈ queues.pending.queued,
      pending.owner.key = key ∨ suspensionOrder pending.execution = some .global := by
    intro key
    rw [h.pending.balanced.blocks_iff]
    constructor
    · rintro ⟨pending, hpending, hcase⟩
      exact ⟨pending, hpending, by simpa [h.pending.current pending hpending] using hcase⟩
    · rintro ⟨pending, hpending, hcase⟩
      exact ⟨pending, hpending, by simpa [h.pending.current pending hpending] using hcase⟩
  refine ⟨hblocks, h.inOrder, ?_, h.pending.balanced.no_barrier⟩
  intro owner command requests hpop pending hpending
  obtain ⟨hpopped, -⟩ := popFrontRunnable_popped h.requests hpop
  cases hpopped with
  | execute hbefore hafter hallowed hearlier =>
    have hfree : ¬ ∃ pending ∈ queues.pending.queued,
        pending.owner.key = owner.key ∨ suspensionOrder pending.execution = some .global := by
      rw [← hblocks]
      simpa using hallowed
    exact ⟨fun hkey => hfree ⟨pending, hpending, .inl hkey⟩,
      fun horder => hfree ⟨pending, hpending, .inr horder⟩⟩

end CommandQueues

end Steel
