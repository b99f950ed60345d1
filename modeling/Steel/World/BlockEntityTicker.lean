import Steel.Lib.Run

/-! # The tickers of block entities

The tickers of a world stand in one list, in which a ticker may be bound anew without losing its
place.
-/

namespace Steel

open Function (update)

variable {H P T : Type}

/-- A ticker with the entity it ticks, for the chunk holder that owns it. The address tells it
apart from all others. -/
structure BoundBlockEntityTicker (H P T : Type) where
  address : ℕ
  holder : H
  entity : ℕ
  blockPos : P
  ticker : T
  deriving DecidableEq

/-- Wrappers are numbered as they are made. -/
structure TickerState (P : Type) where
  active : List ℕ
  pending : List ℕ
  byPos : P → Option ℕ
  ticking : Bool

/-- The list of a phase: what stays in it, and what is still to come. -/
structure TickerIteration where
  runsNormally : Bool
  kept : List ℕ
  rest : List ℕ

/-- Where the thread of the phase stands. -/
inductive TickerPhase (H P T : Type) where
  | idle
  | iterating (iteration : TickerIteration)
  | loaded (iteration : TickerIteration) (wrapper : ℕ) (binding : BoundBlockEntityTicker H P T)
  | removing (iteration : TickerIteration) (wrapper : ℕ) (binding : BoundBlockEntityTicker H P T)
  | called (iteration : TickerIteration) (wrapper : ℕ)

/-- The bindings are those of the wrappers; `wrappers` and `addresses` are the next numbers. -/
structure WorldBlockEntityTickers (H P T : Type) where
  state : TickerState P
  bindings : ℕ → Option (BoundBlockEntityTicker H P T)
  wrappers : ℕ
  addresses : ℕ
  phase : TickerPhase H P T

/-- The atomic steps: sections under the lock and loads of bindings. `isRemoved` is what the entity
answers when the phase asks it. -/
inductive TickerStep (H P T : Type) where
  | reconcile (holder : H) (entity : ℕ) (blockPos : P) (ticker : Option T)
  | remove (holder : H) (pos : P)
  | removePositions (holder : H) (positions : List P)
  | start (runsNormally : Bool)
  | load
  | check (isRemoved : Bool)
  | removeIfSame
  | keep
  | finish

namespace WorldBlockEntityTickers

def new : WorldBlockEntityTickers H P T :=
  ⟨⟨[], [], fun _ => none, false⟩, fun _ => none, 0, 0, .idle⟩

section Registration

variable [DecidableEq P] (tickers : WorldBlockEntityTickers H P T)

def unregister (pos : P) (wrapper : ℕ) : WorldBlockEntityTickers H P T :=
  { tickers with
    state := { tickers.state with byPos := update tickers.state.byPos pos none }
    bindings := update tickers.bindings wrapper none }

/-- A new wrapper at the end of the list, or of the pending ones while a phase goes on. -/
def register (binding : BoundBlockEntityTicker H P T) : WorldBlockEntityTickers H P T :=
  let wrapper := tickers.wrappers
  { tickers with
    state := { tickers.state with
      byPos := update tickers.state.byPos binding.blockPos (some wrapper)
      pending := if tickers.state.ticking then tickers.state.pending ++ [wrapper]
        else tickers.state.pending
      active := if tickers.state.ticking then tickers.state.active
        else tickers.state.active ++ [wrapper] }
    bindings := update tickers.bindings wrapper (some binding)
    wrappers := tickers.wrappers + 1 }

def rebind (wrapper : ℕ) (binding : BoundBlockEntityTicker H P T) : WorldBlockEntityTickers H P T :=
  { tickers with bindings := update tickers.bindings wrapper (some binding) }

variable (t : WorldBlockEntityTickers H P T) (p : P) (w : ℕ) (b : BoundBlockEntityTicker H P T)

@[simp] theorem bindings_unregister :
    (t.unregister p w).bindings = update t.bindings w none := rfl

@[simp] theorem byPos_unregister :
    (t.unregister p w).state.byPos = update t.state.byPos p none := rfl

@[simp] theorem bindings_register :
    (t.register b).bindings = update t.bindings t.wrappers (some b) := rfl

@[simp] theorem byPos_register : (t.register b).state.byPos =
    update t.state.byPos b.blockPos (some t.wrappers) := rfl

omit [DecidableEq P] in
@[simp] theorem bindings_rebind :
    (t.rebind w b).bindings = update t.bindings w (some b) := rfl

end Registration

section Locked

variable [DecidableEq H] (tickers : WorldBlockEntityTickers H P T)

def belongsTo (wrapper : ℕ) (holder : H) : Bool :=
  (tickers.bindings wrapper).any fun binding => decide (binding.holder = holder)

variable [DecidableEq P]

/-- Removes the wrapper only when it still belongs to the holder. -/
def remove (holder : H) (pos : P) : WorldBlockEntityTickers H P T :=
  match tickers.state.byPos pos with
  | none => tickers
  | some wrapper =>
    if tickers.belongsTo wrapper holder then tickers.unregister pos wrapper else tickers

def removePositions (holder : H) (positions : List P) : WorldBlockEntityTickers H P T :=
  positions.foldl (fun tickers pos => tickers.remove holder pos) tickers

def reconcile (holder : H) (entity : ℕ) (blockPos : P)
    (ticker : Option T) : WorldBlockEntityTickers H P T :=
  match ticker with
  | none => tickers.remove holder blockPos
  | some ticker =>
    let binding := ⟨tickers.addresses, holder, entity, blockPos, ticker⟩
    let tickers := { tickers with addresses := tickers.addresses + 1 }
    match tickers.state.byPos blockPos with
    | some wrapper =>
      if tickers.belongsTo wrapper holder then tickers.rebind wrapper binding
      else (tickers.unregister blockPos wrapper).register binding
    | none => tickers.register binding

def start (runsNormally : Bool) : WorldBlockEntityTickers H P T :=
  match tickers.phase with
  | .idle =>
    { tickers with
      state := { tickers.state with active := [], pending := [], ticking := true }
      phase := .iterating ⟨runsNormally, [], tickers.state.active ++ tickers.state.pending⟩ }
  | _ => tickers

def load : WorldBlockEntityTickers H P T :=
  match tickers.phase with
  | .iterating ⟨runsNormally, kept, wrapper :: rest⟩ =>
    match tickers.bindings wrapper with
    | none => { tickers with phase := .iterating ⟨runsNormally, kept, rest⟩ }
    | some binding => { tickers with phase := .loaded ⟨runsNormally, kept, rest⟩ wrapper binding }
  | _ => tickers

/-- An entity that is not removed is ticked, unless the phase is frozen. What the ticker does is in
the steps that follow. -/
def check (isRemoved : Bool) : WorldBlockEntityTickers H P T :=
  match tickers.phase with
  | .loaded iteration wrapper binding =>
    if isRemoved then { tickers with phase := .removing iteration wrapper binding }
    else { tickers with phase := .called iteration wrapper }
  | _ => tickers

def removeIfSame : WorldBlockEntityTickers H P T :=
  match tickers.phase with
  | .removing iteration wrapper binding =>
    let tickers := { tickers with phase := .iterating iteration }
    let stillSameWrapper := tickers.state.byPos binding.blockPos = some wrapper
    let stillSameBinding := (tickers.bindings wrapper).map BoundBlockEntityTicker.address =
      some binding.address
    if stillSameWrapper ∧ stillSameBinding then tickers.unregister binding.blockPos wrapper
    else tickers
  | _ => tickers

def keep : WorldBlockEntityTickers H P T :=
  match tickers.phase with
  | .called iteration wrapper =>
    if (tickers.bindings wrapper).isSome then
      { tickers with phase := .iterating { iteration with kept := iteration.kept ++ [wrapper] } }
    else { tickers with phase := .iterating iteration }
  | _ => tickers

def finish : WorldBlockEntityTickers H P T :=
  match tickers.phase with
  | .iterating ⟨_, kept, []⟩ =>
    { tickers with
      state := { tickers.state with active := kept, ticking := false }
      phase := .idle }
  | _ => tickers

/-- A step of the phase that it has not come to does nothing. -/
def step : TickerStep H P T → WorldBlockEntityTickers H P T
  | .reconcile holder entity blockPos ticker => tickers.reconcile holder entity blockPos ticker
  | .remove holder pos => tickers.remove holder pos
  | .removePositions holder positions => tickers.removePositions holder positions
  | .start runsNormally => tickers.start runsNormally
  | .load => tickers.load
  | .check isRemoved => tickers.check isRemoved
  | .removeIfSame => tickers.removeIfSame
  | .keep => tickers.keep
  | .finish => tickers.finish

end Locked

end WorldBlockEntityTickers

/-- What is to be registered at each position, when the wrappers have been registered, and what the
phase under way, or else the last one, has ticked. -/
structure TickerHistory (H P T : Type) where
  registered : P → Option (BoundBlockEntityTicker H P T)
  phases : ℕ
  place : ℕ → ℕ
  first : ℕ
  ticked : List (ℕ × BoundBlockEntityTicker H P T)

namespace TickerHistory

def new : TickerHistory H P T := ⟨fun _ => none, 0, fun _ => 0, 0, []⟩

section Observed

variable [DecidableEq H] [DecidableEq P]

def removed (history : TickerHistory H P T) (holder : H) (pos : P) : TickerHistory H P T :=
  if (history.registered pos).any fun binding => decide (binding.holder = holder) then
    { history with registered := update history.registered pos none }
  else history

/-- A wrapper made between two phases has an even place, one made during a phase the odd place
after it. -/
def placed (history : TickerHistory H P T) (tickers tickers' : WorldBlockEntityTickers H P T) :
    TickerHistory H P T :=
  if tickers'.wrappers = tickers.wrappers then history
  else
    let place := 2 * history.phases + if tickers.state.ticking then 1 else 0
    { history with place := update history.place tickers.wrappers place }

/-- What a step is to do to the registrations, and what it ticks. -/
def recorded (history : TickerHistory H P T) (tickers : WorldBlockEntityTickers H P T) :
    TickerStep H P T → TickerHistory H P T
  | .reconcile holder entity blockPos (some ticker) =>
    let binding := ⟨tickers.addresses, holder, entity, blockPos, ticker⟩
    { history with registered := update history.registered blockPos (some binding) }
  | .reconcile holder _ blockPos none => history.removed holder blockPos
  | .remove holder pos => history.removed holder pos
  | .removePositions holder positions =>
    positions.foldl (fun history pos => history.removed holder pos) history
  | .start _ =>
    match tickers.phase with
    | .idle =>
      { history with phases := history.phases + 1, first := tickers.wrappers, ticked := [] }
    | _ => history
  | .check isRemoved =>
    match tickers.phase with
    | .loaded iteration wrapper binding =>
      if !isRemoved && iteration.runsNormally then
        { history with ticked := history.ticked ++ [(wrapper, binding)] }
      else history
    | _ => history
  | .removeIfSame =>
    match tickers.phase with
    | .removing _ _ binding =>
      if (history.registered binding.blockPos).map BoundBlockEntityTicker.address =
          some binding.address then
        { history with registered := update history.registered binding.blockPos none }
      else history
    | _ => history
  | .load | .keep | .finish => history

def observe (history : TickerHistory H P T) (tickers : WorldBlockEntityTickers H P T)
    (action : TickerStep H P T) : TickerHistory H P T :=
  (history.placed tickers (tickers.step action)).recorded tickers action

end Observed

end TickerHistory

def observedStep [DecidableEq H] [DecidableEq P]
    (s : WorldBlockEntityTickers H P T × TickerHistory H P T) (action : TickerStep H P T) :
    WorldBlockEntityTickers H P T × TickerHistory H P T :=
  (s.1.step action, s.2.observe s.1 action)

end Steel
