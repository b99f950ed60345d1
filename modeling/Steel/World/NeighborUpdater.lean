import Steel.Utils.ChunkPos

/-! # Neighbour updates

A change of a block updates its neighbours, and these updates cause further ones.
-/

namespace Steel

/-- `UPDATE_ORDER` -/
def updateOrder : List Direction := [.west, .east, .down, .up, .north, .south]

structure ShapeUpdate (S : Type) where
  direction : Direction
  neighborState : S
  pos : BlockPos
  neighborPos : BlockPos
  flags : UInt16
  updateLimit : Int32

/-- An update of all neighbours but one. The index is that of the next direction. -/
structure MultiUpdate (B : Type) where
  sourcePos : BlockPos
  sourceBlock : B
  skipDirection : Option Direction
  index : ℕ
  index_lt : index < updateOrder.length
  not_skipped : updateOrder[index]? ≠ skipDirection

inductive NeighborUpdate (S B : Type) where
  | full (state : S) (pos : BlockPos) (sourceBlock : B) (movedByPiston : Bool)
  | multi (update : MultiUpdate B)
  | shape (update : ShapeUpdate S)
  | simple (pos : BlockPos) (sourceBlock : B)

/-- What the updates do to a world: its states, and what blocks do when they are updated. A block
may cause further updates. -/
structure UpdateWorld (W S B : Type) where
  getBlockState : W → BlockPos → S
  executeNeighborUpdate : S → BlockPos → B → Bool → W → W × List (NeighborUpdate S B)
  executeNeighborShapeUpdate :
    Direction → BlockPos → BlockPos → S → UInt16 → Int32 → W → W × List (NeighborUpdate S B)

variable {W S B : Type}

namespace MultiUpdate

def direction (update : MultiUpdate B) : Direction :=
  updateOrder.get ⟨update.index, update.index_lt⟩

def skipIndex (skipDirection : Option Direction) (index : ℕ) : ℕ :=
  if index < updateOrder.length ∧ updateOrder[index]? = skipDirection then index + 1 else index

theorem not_skipped_skipIndex {skipDirection : Option Direction} {index : ℕ}
    (h : skipIndex skipDirection index < updateOrder.length) :
    updateOrder[skipIndex skipDirection index]? ≠ skipDirection := by
  unfold skipIndex at h ⊢
  split_ifs at h ⊢ with hskip
  · intro heq
    have hindex := (List.getElem?_inj hskip.1 (by decide)).1 (hskip.2.trans heq.symm)
    omega
  · exact fun heq => hskip ⟨h, heq⟩

/-- The directions follow one another without the one that is skipped. -/
def next (update : MultiUpdate B) : Option (MultiUpdate B) :=
  let index := skipIndex update.skipDirection (update.index + 1)
  if h : index < updateOrder.length then
    some { update with index := index, index_lt := h, not_skipped := not_skipped_skipIndex h }
  else none

end MultiUpdate

namespace NeighborUpdate

/-- The world after the next callback with the updates it has caused, and what is left of the
update. -/
def runNext (world : UpdateWorld W S B) (w : W) :
    NeighborUpdate S B → (W × List (NeighborUpdate S B)) × Option (NeighborUpdate S B)
  | full state pos sourceBlock movedByPiston =>
    (world.executeNeighborUpdate state pos sourceBlock movedByPiston w, none)
  | multi update =>
    let neighborPos := update.sourcePos.relative update.direction
    let state := world.getBlockState w neighborPos
    (world.executeNeighborUpdate state neighborPos update.sourceBlock false w,
      update.next.map .multi)
  | shape update =>
    (world.executeNeighborShapeUpdate update.direction update.pos update.neighborPos
      update.neighborState update.flags update.updateLimit w, none)
  | simple pos sourceBlock =>
    let state := world.getBlockState w pos
    (world.executeNeighborUpdate state pos sourceBlock false w, none)

end NeighborUpdate

structure AddResult where
  shouldRun : Bool
  firstSkipped : Bool
  deriving DecidableEq

/-- The vectors are given from their ends: what has been pushed last comes first. -/
structure CollectingState (U : Type) where
  stack : List U
  addedThisLayer : List U
  count : Int32

namespace CollectingState

variable {U : Type}

def empty : CollectingState U := ⟨[], [], 0⟩

variable (state : CollectingState U)

def enqueue (maxChainedNeighborUpdates : Int32) (update : U) : AddResult × CollectingState U :=
  let runningAlready : Bool := state.count > 0
  let tooManyUpdates : Bool :=
    maxChainedNeighborUpdates ≥ 0 && state.count ≥ maxChainedNeighborUpdates
  let count := state.count + 1
  let state :=
    if tooManyUpdates then { state with count := count }
    else if runningAlready then
      { state with addedThisLayer := update :: state.addedThisLayer, count := count }
    else { state with stack := update :: state.stack, count := count }
  (⟨!runningAlready, tooManyUpdates && count - 1 = maxChainedNeighborUpdates⟩, state)

/-- Moves the collected updates to the stack, from the last to the first. -/
def moveLayer : List U → List U → List U
  | [], stack => stack
  | update :: addedThisLayer, stack => moveLayer addedThisLayer (update :: stack)

def takeNext : Option U × CollectingState U :=
  match moveLayer state.addedThisLayer state.stack with
  | [] => (none, { state with stack := [], addedThisLayer := [] })
  | update :: stack => (some update, { state with stack := stack, addedThisLayer := [] })

def returnUnfinished (update : U) : CollectingState U :=
  { state with stack := update :: state.stack }

def reset (_ : CollectingState U) : CollectingState U := empty

/-- The updates that a callback causes, one after the other. -/
def enqueueAll (maxChainedNeighborUpdates : Int32) :
    List U → CollectingState U → List AddResult × CollectingState U
  | [], state => ([], state)
  | update :: updates, state =>
    let (result, state) := state.enqueue maxChainedNeighborUpdates update
    let (results, state) := enqueueAll maxChainedNeighborUpdates updates state
    (result :: results, state)

end CollectingState

/-- What runs at a time: an update of a block, whose state is read first unless it is given, or of
its shape. -/
inductive NeighborCallback (S B : Type) where
  | neighbor (state : Option S) (pos : BlockPos) (sourceBlock : B) (movedByPiston : Bool)
  | shape (update : ShapeUpdate S)

def NeighborUpdate.callback : NeighborUpdate S B → NeighborCallback S B
  | full state pos sourceBlock movedByPiston => .neighbor (some state) pos sourceBlock movedByPiston
  | multi update =>
    .neighbor none (update.sourcePos.relative update.direction) update.sourceBlock false
  | shape update => .shape update
  | simple pos sourceBlock => .neighbor none pos sourceBlock false

/-- What has happened in a run: the callbacks, all updates that have been enqueued with the answers
they got, and the state and the world at the end. -/
structure NeighborRun (W S B : Type) where
  finished : Bool
  callbacks : List (NeighborCallback S B)
  enqueued : List (NeighborUpdate S B)
  results : List AddResult
  state : CollectingState (NeighborUpdate S B)
  world : W

/-- Runs updates until there are none left, or the steps are used up. An update that is enqueued by
a callback does not start a run, as long as none of the answers asks for one. -/
def runUpdates (world : UpdateWorld W S B) (maxChainedNeighborUpdates : Int32) :
    ℕ → CollectingState (NeighborUpdate S B) → W → NeighborRun W S B
  | 0, state, w => ⟨false, [], [], [], state, w⟩
  | steps + 1, state, w =>
    match state.takeNext with
    | (none, state) => ⟨true, [], [], [], state.reset, w⟩
    | (some update, state) =>
      let ((w, enqueued), unfinished) := update.runNext world w
      let (results, state) := CollectingState.enqueueAll maxChainedNeighborUpdates enqueued state
      let state :=
        match unfinished with
        | none => state
        | some update => state.returnUnfinished update
      let run := runUpdates world maxChainedNeighborUpdates steps state w
      { run with
        callbacks := update.callback :: run.callbacks
        enqueued := enqueued ++ run.enqueued
        results := results ++ run.results }

/-- An update from outside starts a run, unless one is going on. -/
def addAndRun (world : UpdateWorld W S B) (maxChainedNeighborUpdates : Int32) (steps : ℕ)
    (state : CollectingState (NeighborUpdate S B)) (update : NeighborUpdate S B) (w : W) :
    NeighborRun W S B :=
  let (result, state) := state.enqueue maxChainedNeighborUpdates update
  if result.shouldRun then
    let run := runUpdates world maxChainedNeighborUpdates steps state w
    { run with enqueued := update :: run.enqueued, results := result :: run.results }
  else ⟨true, [], [update], [result], state, w⟩

end Steel
