import Mathlib.Algebra.Group.Nat.Defs
import Mathlib.Data.Finset.Basic
import Mathlib.Data.Prod.Lex
import Steel.Lib.Sorted
import Steel.Utils.ChunkPos

/-! # Scheduled ticks of one chunk

Live ticks wait in a priority queue ordered by deadline, priority, sub-tick order and insertion.
-/

namespace Steel

open List Option

inductive TickPriority where
  | extremelyHigh | veryHigh | high | normal | low | veryLow | extremelyLow
  deriving DecidableEq

def TickPriority.value : TickPriority → ℤ
  | .extremelyHigh => -3
  | .veryHigh => -2
  | .high => -1
  | .normal => 0
  | .low => 1
  | .veryLow => 2
  | .extremelyLow => 3

/-- A type of ticks with the address that identifies it. -/
class TickKey (T : Type) where
  key : T → ℕ

instance : TickKey ℕ := ⟨id⟩

abbrev ScheduledTickKey := BlockPos × ℕ

structure ScheduledTick (T : Type) where
  tickType : T
  pos : BlockPos
  triggerTick : ℤ
  priority : TickPriority
  subTickOrder : ℤ
  deriving DecidableEq

structure SavedTick (T : Type) where
  tickType : T
  pos : BlockPos
  delay : Int32
  priority : TickPriority
  deriving DecidableEq

/-- What `intra_tick_drain_order` compares. -/
def intraTickDrainOrder (priority : TickPriority) (subTickOrder : ℤ) : ℤ ×ₗ ℤ :=
  toLex (priority.value, subTickOrder)

variable {T : Type}

def ScheduledTick.key [TickKey T] (tick : ScheduledTick T) : ScheduledTickKey :=
  (tick.pos, TickKey.key tick.tickType)

def ScheduledTick.intraOrder (tick : ScheduledTick T) : ℤ ×ₗ ℤ :=
  intraTickDrainOrder tick.priority tick.subTickOrder

structure QueuedTick (T : Type) where
  tick : ScheduledTick T
  insertionOrder : ℕ
  deriving DecidableEq

/-- `drain_order`, then the order of insertion. -/
def QueuedTick.order (queued : QueuedTick T) : ℤ ×ₗ (ℤ ×ₗ ℤ) ×ₗ ℕ :=
  toLex (queued.tick.triggerTick, toLex (queued.tick.intraOrder, queued.insertionOrder))

structure TickList (T : Type) where
  pendingTicks : Option (List (SavedTick T))
  ticks : PriorityQueue (QueuedTick T) QueuedTick.order
  scheduled : Finset ScheduledTickKey
  nextInsertionOrder : ℕ

namespace TickList

def new : TickList T := ⟨none, .empty, ∅, 0⟩

variable (list : TickList T)

def pushUnchecked (tick : ScheduledTick T) : TickList T :=
  { list with
    ticks := list.ticks.push ⟨tick, list.nextInsertionOrder⟩
    nextInsertionOrder := (list.nextInsertionOrder + 1) % 2 ^ 64 }

def schedule [TickKey T] (list : TickList T) (tickType : T) (pos : BlockPos) (triggerTick : ℤ)
    (priority : TickPriority) (subTickOrder : ℤ) : Bool × TickList T :=
  if (pos, TickKey.key tickType) ∈ list.scheduled then (false, list)
  else
    let list := { list with scheduled := insert (pos, TickKey.key tickType) list.scheduled }
    (true, list.pushUnchecked ⟨tickType, pos, triggerTick, priority, subTickOrder⟩)

/-- Saved ticks get negative sub-tick orders, in the order in which they were saved. -/
def unpackFrom (currentTick tickCount : ℤ) : ℕ → List (SavedTick T) → TickList T → TickList T
  | _, [], list => list
  | index, saved :: pending, list =>
    unpackFrom currentTick tickCount (index + 1) pending (list.pushUnchecked
      ⟨saved.tickType, saved.pos, Int.bmod (currentTick + saved.delay.toInt) (2 ^ 64),
        saved.priority, -tickCount + index⟩)

def unpack (currentTick : ℤ) : TickList T :=
  match list.pendingTicks with
  | none => list
  | some pending =>
    unpackFrom currentTick pending.length 0 pending { list with pendingTicks := none }

def peek (list : TickList T) : Option (ScheduledTick T) := list.ticks.peek.map QueuedTick.tick

def peekReady (currentTick : ℤ) : Option (ScheduledTick T) :=
  match list.peek with
  | none => none
  | some tick => if tick.triggerTick ≤ currentTick then some tick else none

def popReady [TickKey T] (list : TickList T) (currentTick : ℤ) :
    Option (ScheduledTick T × TickList T) :=
  match list.peekReady currentTick with
  | none => none
  | some _ =>
    match list.ticks.pop with
    | none => none
    | some (queued, ticks) =>
      some (queued.tick,
        { list with ticks := ticks, scheduled := list.scheduled.erase queued.tick.key })

def head : Option ℤ := list.peek.map ScheduledTick.triggerTick

/-- The live ticks in the order in which they leave the queue. -/
def live : List (ScheduledTick T) := list.ticks.items.map QueuedTick.tick

variable {list : TickList T} {tick : ScheduledTick T} {now : ℤ}

theorem peek_eq : list.peek = list.live.head? := by
  rw [peek, live, head?_map]
  rfl

theorem head_eq : list.head = list.live.head?.map ScheduledTick.triggerTick := by
  rw [head, peek_eq]

theorem head_le (h : list.head = some now) (htick : tick ∈ list.live) : now ≤ tick.triggerTick := by
  obtain ⟨first, hpeek, rfl⟩ := map_eq_some_iff.mp h
  obtain ⟨queued, hqueued, rfl⟩ := map_eq_some_iff.mp hpeek
  obtain ⟨q, hq, rfl⟩ := mem_map.mp htick
  have hle := PriorityQueue.key_le_of_peek hqueued hq
  rcases Prod.Lex.toLex_le_toLex.mp hle with hlt | ⟨heq, -⟩
  · exact hlt.le
  · exact heq.le

theorem head_eq_none : list.head = none ↔ list.live = [] := by
  rw [head_eq, map_eq_none_iff, head?_eq_none_iff]

theorem exists_of_head (h : list.head = some now) : ∃ tick ∈ list.live, tick.triggerTick = now := by
  rw [head_eq] at h
  obtain ⟨tick, htick, rfl⟩ := map_eq_some_iff.mp h
  exact ⟨tick, mem_of_head? htick, rfl⟩

theorem peekReady_eq_some :
    list.peekReady now = some tick ↔ list.live.head? = some tick ∧ tick.triggerTick ≤ now := by
  unfold peekReady
  rw [peek_eq]
  cases list.live.head? with
  | none => simp
  | some first =>
    simp only [ite_none_right_eq_some, Option.some.injEq]
    constructor
    · rintro ⟨hle, rfl⟩
      exact ⟨rfl, hle⟩
    · rintro ⟨rfl, hle⟩
      exact ⟨hle, rfl⟩

variable [TickKey T]

theorem popReady_of_ready (h : list.peekReady now = some tick) :
    ∃ list', list.popReady now = some (tick, list') ∧ list'.live = list.live.tail ∧
      list'.scheduled = list.scheduled.erase tick.key ∧
      list'.pendingTicks = list.pendingTicks := by
  obtain ⟨hhead, -⟩ := peekReady_eq_some.mp h
  rw [live, head?_map, map_eq_some_iff] at hhead
  obtain ⟨queued, hqueued, rfl⟩ := hhead
  have hpop : list.ticks.pop = some (queued, list.ticks.rest) := by
    rw [PriorityQueue.pop, PriorityQueue.peek, hqueued]
    rfl
  refine ⟨{ list with
    ticks := list.ticks.rest
    scheduled := list.scheduled.erase queued.tick.key }, ?_, ?_, rfl, rfl⟩
  · simp only [popReady, h, hpop]
  · rw [live, live, ← map_tail]
    rfl

theorem popReady_of_not_ready (h : list.peekReady now = none) : list.popReady now = none := by
  simp only [popReady, h]

end TickList

end Steel
