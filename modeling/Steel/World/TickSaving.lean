import Mathlib.Order.Lattice.Nat
import Steel.Lib.Run
import Steel.Lib.StableSort
import Steel.World.TickList

/-! # Saving the ticks of a chunk

A saved tick keeps its delay and priority but neither its sub-tick order nor its insertion. A key is
entered when its tick is stored, and leaves with it.
-/

namespace Steel

section

open List ScheduledTick QueuedTick Int

variable {T : Type}

structure TickListPackingSnapshot (T : Type) where
  pendingTicks : List (SavedTick T)
  liveTicks : List (ScheduledTick T × ℕ)

/-- Pending ticks, then live ticks by sub-tick order and insertion. The sort is stable. -/
def TickListPackingSnapshot.pack (snapshot : TickListPackingSnapshot T) (currentTick : ℤ) :
    List (SavedTick T) :=
  snapshot.pendingTicks ++
    (sortStable (fun e => toLex (e.1.subTickOrder, e.2)) snapshot.liveTicks).map fun e =>
      ⟨e.1.tickType, e.1.pos, Int32.ofInt (Int.bmod (e.1.triggerTick - currentTick) (2 ^ 64)),
        e.1.priority⟩

namespace TickList

def newPending : TickList T := { new with pendingTicks := some [] }

def fromSavedTicks [TickKey T] (savedTicks : List (SavedTick T)) : TickList T :=
  { newPending with
    pendingTicks := some savedTicks
    scheduled := (savedTicks.map fun saved => (saved.pos, TickKey.key saved.tickType)).toFinset }

def pendingEntries (list : TickList T) : List (SavedTick T) := list.pendingTicks.getD []

/-- The live ticks in the order of the queue. Any order of iteration is sorted alike unless two
ticks agree in sub-tick order and insertion. -/
def packingSnapshot (list : TickList T) : TickListPackingSnapshot T :=
  ⟨list.pendingEntries, list.ticks.items.map fun queued => (queued.tick, queued.insertionOrder)⟩

def pack (list : TickList T) (currentTick : ℤ) : List (SavedTick T) :=
  list.packingSnapshot.pack currentTick

/-- Pop ticks while they are ready, at most `n`. -/
def drainFrom [TickKey T] (currentTick : ℤ) : ℕ → TickList T → List (ScheduledTick T)
  | 0, _ => []
  | n + 1, list =>
    match list.popReady currentTick with
    | none => []
    | some (tick, list) => tick :: drainFrom currentTick n list

def drainReady [TickKey T] (list : TickList T) (currentTick : ℤ) : List (ScheduledTick T) :=
  drainFrom currentTick list.ticks.items.length list

theorem drainFrom_eq [TickKey T] {list : TickList T} {now : ℤ} {n : ℕ} (hn : list.live.length ≤ n) :
    drainFrom now n list = list.live.takeWhile fun tick => tick.triggerTick ≤ now := by
  induction n generalizing list with
  | zero => simp [drainFrom, length_eq_zero_iff.mp (Nat.le_zero.mp hn)]
  | succ n ih =>
    cases hready : list.peekReady now with
    | none =>
      simp only [drainFrom, popReady_of_not_ready hready]
      cases hlive : list.live with
      | nil => rfl
      | cons tick rest =>
        rw [takeWhile_cons_of_neg]
        intro hle
        have hsome := peekReady_eq_some.mpr ⟨by rw [hlive]; rfl, of_decide_eq_true hle⟩
        rw [hready] at hsome
        cases hsome
    | some tick =>
      obtain ⟨hhead, hle⟩ := peekReady_eq_some.mp hready
      obtain ⟨list', hpop, hlive, -, -⟩ := popReady_of_ready hready
      obtain ⟨rest, hrest⟩ := List.head?_eq_some_iff.mp hhead
      rw [hrest, tail_cons] at hlive
      simp only [drainFrom, hpop]
      rw [ih, hrest, hlive, takeWhile_cons_of_pos (by simpa using hle)]
      rw [hlive]
      simpa [hrest] using hn

theorem drainReady_eq [TickKey T] (list : TickList T) (now : ℤ) :
    list.drainReady now = list.live.takeWhile fun tick => tick.triggerTick ≤ now :=
  drainFrom_eq (by simp [live])

end TickList

/-- What a saved tick keeps. -/
structure TickContent (T : Type) where
  tickType : T
  pos : BlockPos
  triggerTick : ℤ
  priority : TickPriority
  deriving DecidableEq

def ScheduledTick.content (tick : ScheduledTick T) : TickContent T :=
  ⟨tick.tickType, tick.pos, tick.triggerTick, tick.priority⟩

/-- The content of a saved tick that is unpacked at a given time. -/
def SavedTick.content (now : ℤ) (saved : SavedTick T) : TickContent T :=
  ⟨saved.tickType, saved.pos, Int.bmod (now + saved.delay.toInt) (2 ^ 64), saved.priority⟩

def TickContent.order (content : TickContent T) : ℤ ×ₗ ℤ :=
  toLex (content.triggerTick, content.priority.value)

namespace TickList

variable {list : TickList T} {now : ℤ}

variable {tick : ScheduledTick T}

/-- A tick whose sub-tick order is larger than all others is placed by deadline and priority. -/
theorem content_pushUnchecked (h : ∀ t ∈ list.live, t.subTickOrder < tick.subTickOrder) :
    (list.pushUnchecked tick).live.map content =
      insertSorted TickContent.order tick.content (list.live.map content) := by
  have hcompare : ∀ b ∈ list.ticks.items,
      (order ⟨tick, list.nextInsertionOrder⟩ < b.order ↔
        tick.content.order < b.tick.content.order) := by
    intro b hb
    have hlt := h b.tick (mem_map_of_mem hb)
    simp only [order, intraOrder, intraTickDrainOrder,
      TickContent.order, content, Prod.Lex.toLex_lt_toLex, Prod.ext_iff,
      toLex_inj]
    omega
  have hinsert : insertSorted order ⟨tick, list.nextInsertionOrder⟩ list.ticks.items =
      insertSorted (fun queued => queued.tick.content.order) ⟨tick, list.nextInsertionOrder⟩
        list.ticks.items := insertSorted_congr hcompare
  simp only [live, pushUnchecked, PriorityQueue.push, hinsert, map_map]
  exact (insertSorted_map (fun queued : QueuedTick T => queued.tick.content) TickContent.order
    ⟨tick, list.nextInsertionOrder⟩ list.ticks.items).symm

theorem mem_live_pushUnchecked {t : ScheduledTick T} :
    t ∈ (list.pushUnchecked tick).live ↔ t = tick ∨ t ∈ list.live := by
  simp [live, pushUnchecked, PriorityQueue.push, mem_insertSorted, eq_comm]

/-- Unpacking sorts the saved ticks by deadline and priority, behind those already there. -/
theorem unpackFrom_spec {n : ℤ} {index : ℕ} (pending : List (SavedTick T))
    (h : ∀ t ∈ list.live, t.subTickOrder < -n + index) :
    (unpackFrom now n index pending list).live.map content =
        insertAll TickContent.order (list.live.map content)
          (pending.map (SavedTick.content now)) ∧
      ∀ t ∈ (unpackFrom now n index pending list).live,
        t.subTickOrder < -n + (index + pending.length : ℕ) := by
  induction pending generalizing list index with
  | nil => exact ⟨rfl, h⟩
  | cons saved pending ih =>
    have hpush := @content_pushUnchecked T list
      ⟨saved.tickType, saved.pos, Int.bmod (now + saved.delay.toInt) (2 ^ 64),
        saved.priority, -n + index⟩ h
    obtain ⟨hcontent, hless⟩ := @ih (list.pushUnchecked
      ⟨saved.tickType, saved.pos, Int.bmod (now + saved.delay.toInt) (2 ^ 64),
        saved.priority, -n + index⟩) (index + 1) (by
      intro t ht
      rcases mem_live_pushUnchecked.mp ht with rfl | ht
      · push_cast
        omega
      · have hlt := h t ht
        push_cast
        omega)
    refine ⟨?_, ?_⟩
    · rw [unpackFrom, hcontent, hpush]
      rfl
    · intro t ht
      have hlt := hless t ht
      rw [length_cons]
      push_cast at hlt ⊢
      omega

@[simp] theorem live_new : (new : TickList T).live = [] := rfl

@[simp] theorem live_fromSavedTicks [TickKey T] (saved : List (SavedTick T)) :
    (fromSavedTicks saved).live = [] := rfl

def reload [TickKey T] (list : TickList T) (now : ℤ) : TickList T :=
  (fromSavedTicks (list.pack now)).unpack now

theorem reload_spec [TickKey T] (saved : List (SavedTick T)) :
    ((fromSavedTicks saved).unpack now).live.map content =
        sortStable TickContent.order (saved.map (SavedTick.content now)) ∧
      ∀ t ∈ ((fromSavedTicks saved).unpack now).live, t.subTickOrder < 0 := by
  obtain ⟨hcontent, hless⟩ := @unpackFrom_spec T
    { fromSavedTicks saved with pendingTicks := none } now saved.length 0 saved
    (by simp [live, fromSavedTicks, newPending, new])
  refine ⟨hcontent, ?_⟩
  intro t ht
  have hlt := hless t ht
  omega

theorem bmod_delay {trigger : ℤ} (hmin : -2 ^ 63 ≤ trigger) (hmax : trigger < 2 ^ 63)
    (hlow : -2 ^ 31 ≤ trigger - now) (hhigh : trigger - now < 2 ^ 31) :
    Int.bmod (now + (Int32.ofInt (Int.bmod (trigger - now) (2 ^ 64))).toInt) (2 ^ 64) =
    trigger := by
  have hdiff : Int.bmod (trigger - now) (2 ^ 64) = trigger - now :=
    bmod_eq_of_le (by omega) (by omega)
  have hsum : now + (trigger - now) = trigger := by omega
  rw [hdiff, Int32.toInt_ofInt_of_le hlow hhigh, hsum]
  exact bmod_eq_of_le (by omega) (by omega)

/-- Sorting by sub-tick order and insertion, then by deadline and priority, is the order of the
queue. -/
theorem sortStable_items (list : TickList T) :
    sortStable (fun e : ScheduledTick T × ℕ => e.1.content.order)
        (sortStable (fun e => toLex (e.1.subTickOrder, e.2))
          (list.ticks.items.map fun queued => (queued.tick, queued.insertionOrder))) =
      list.ticks.items.map fun queued => (queued.tick, queued.insertionOrder) := by
  apply sortStable_sortStable
  rw [pairwise_map]
  apply list.ticks.sorted.imp
  intro a b hab
  simp only [order, intraOrder, intraTickDrainOrder, TickContent.order,
    content, Prod.Lex.toLex_le_toLex, Prod.Lex.toLex_lt_toLex, Prod.ext_iff,
    toLex_inj] at hab ⊢
  omega

/-- The operations that change a list. -/
inductive Steps [TickKey T] (list : TickList T) : TickList T → Prop where
  | refl : Steps list list
  | schedule {list' : TickList T} (tickType : T) (pos : BlockPos) (triggerTick : Int64)
      (priority : TickPriority) (subTickOrder : Int64) : Steps list list' →
      Steps list (list'.schedule tickType pos triggerTick.toInt priority subTickOrder.toInt).2
  | unpack {list' : TickList T} (currentTick : Int64) : Steps list list' →
      Steps list (list'.unpack currentTick.toInt)
  | popReady {list' list'' : TickList T} {currentTick : Int64} {tick : ScheduledTick T} :
      Steps list list' → list'.popReady currentTick.toInt = some (tick, list'') →
      Steps list list''

/-- Lists start empty or from storage. -/
inductive Reachable [TickKey T] (list : TickList T) : Prop where
  | new : Steps .new list → Reachable list
  | saved (savedTicks : List (SavedTick T)) : Steps (.fromSavedTicks savedTicks) list →
      Reachable list

theorem live_of_popReady [TickKey T] {list' : TickList T}
    (h : list.popReady now = some (tick, list')) : list'.live = list.live.tail := by
  cases hready : list.peekReady now with
  | none =>
    rw [popReady_of_not_ready hready] at h
    cases h
  | some first =>
    obtain ⟨rest, hpop, hlive, -, -⟩ := popReady_of_ready hready
    rw [hpop, Option.some.injEq, Prod.mk.injEq] at h
    obtain ⟨-, rfl⟩ := h
    exact hlive

def Ranged (list : TickList T) : Prop :=
  ∀ t ∈ list.live, -2 ^ 63 ≤ t.triggerTick ∧ t.triggerTick < 2 ^ 63

theorem Ranged.pushUnchecked (h : Ranged list) (hmin : -2 ^ 63 ≤ tick.triggerTick)
    (hmax : tick.triggerTick < 2 ^ 63) : Ranged (list.pushUnchecked tick) := by
  intro t ht
  rcases mem_live_pushUnchecked.mp ht with rfl | ht
  · exact ⟨hmin, hmax⟩
  · exact h t ht

theorem Ranged.unpackFrom {n : ℤ} {index : ℕ} (pending : List (SavedTick T)) (h : Ranged list) :
    Ranged (unpackFrom now n index pending list) := by
  induction pending generalizing list index with
  | nil => exact h
  | cons saved pending ih =>
    apply ih (h.pushUnchecked _ _)
    · exact le_bmod (by decide)
    · exact bmod_lt (by decide)

theorem Steps.ranged [TickKey T] {list' : TickList T} (hsteps : Steps list list')
    (h : Ranged list) : Ranged list' := by
  induction hsteps with
  | refl => exact h
  | schedule tickType pos triggerTick priority subTickOrder _ ih =>
    unfold TickList.schedule
    split
    · exact ih
    · exact Ranged.pushUnchecked ih triggerTick.le_toInt triggerTick.toInt_lt
  | unpack currentTick _ ih =>
    unfold TickList.unpack
    split
    · exact ih
    · exact Ranged.unpackFrom _ ih
  | popReady _ hpop ih =>
    intro t ht
    rw [live_of_popReady hpop] at ht
    exact ih t (mem_of_mem_tail ht)

theorem Reachable.ranged [TickKey T] (h : Reachable list) : Ranged list := by
  cases h with
  | new hsteps => exact hsteps.ranged (by simp [Ranged])
  | saved savedTicks hsteps => exact hsteps.ranged (by simp [Ranged])

theorem content_reload [TickKey T] (h : Ranged list) (hpending : list.pendingEntries = [])
    (hnear : ∀ t ∈ list.live, -2 ^ 31 ≤ t.triggerTick - now ∧ t.triggerTick - now < 2 ^ 31) :
    (list.reload now).live.map content = list.live.map content := by
  have hsaved : (list.pack now).map (SavedTick.content now) =
      (sortStable (fun e : ScheduledTick T × ℕ => toLex (e.1.subTickOrder, e.2))
        (list.ticks.items.map fun queued => (queued.tick, queued.insertionOrder))).map
          fun e => e.1.content := by
    simp only [pack, TickListPackingSnapshot.pack, packingSnapshot, hpending, nil_append, map_map]
    apply map_congr_left
    intro e he
    obtain ⟨queued, hqueued, rfl⟩ := mem_map.mp (mem_sortStable.mp he)
    have hmem : queued.tick ∈ list.live := mem_map_of_mem hqueued
    obtain ⟨hmin, hmax⟩ := h _ hmem
    obtain ⟨hlow, hhigh⟩ := hnear _ hmem
    simp only [Function.comp_apply, SavedTick.content, content,
      bmod_delay hmin hmax hlow hhigh]
  have hmap := insertAll_map (fun e : ScheduledTick T × ℕ => e.1.content) TickContent.order []
  rw [reload, (reload_spec (list.pack now)).1, hsaved, sortStable, ← map_nil, hmap]
  rw [← sortStable, sortStable_items, live, map_map, map_map]
  rfl

/-- In every queue a tick of negative sub-tick order comes before the others of its deadline and
priority. -/
theorem pairwise_live (list : TickList T) : list.live.Pairwise fun first second =>
    second.subTickOrder < 0 → first.triggerTick = second.triggerTick →
      first.priority = second.priority → first.subTickOrder < 0 := by
  rw [live, pairwise_map]
  apply list.ticks.sorted.imp
  intro a b hab hneg htrigger hpriority
  simp only [order, intraOrder, intraTickDrainOrder,
    Prod.Lex.toLex_le_toLex, Prod.Lex.toLex_lt_toLex, Prod.ext_iff, toLex_inj, htrigger,
    hpriority] at hab
  omega

/-- A reloaded list drains like the original one, whatever is drained at whatever time, and ticks
scheduled later with a non-negative sub-tick order never come before a reloaded tick of the same
deadline and priority. -/
theorem reload_keeps_order [TickKey T] (h : Reachable list) (hpending : list.pendingEntries = [])
    (now : Int64) (hnear : ∀ t ∈ list.live,
      -2 ^ 31 ≤ t.triggerTick - now.toInt ∧ t.triggerTick - now.toInt < 2 ^ 31) :
    (list.reload now.toInt).live.map content = list.live.map content ∧
      (∀ time, ((list.reload now.toInt).drainReady time).map content =
        (list.drainReady time).map content) ∧
      ∀ later, Steps (list.reload now.toInt) later →
        later.live.Pairwise fun first second => 0 ≤ first.subTickOrder →
          first.triggerTick = second.triggerTick → first.priority = second.priority →
          second ∉ (list.reload now.toInt).live := by
  have hcontent := content_reload h.ranged hpending hnear
  refine ⟨hcontent, ?_, ?_⟩
  · intro time
    have hready : ∀ l : List (ScheduledTick T),
        (l.takeWhile fun tick => tick.triggerTick ≤ time).map content =
          (l.map content).takeWhile fun content => content.triggerTick ≤ time := by
      intro l
      rw [takeWhile_map]
      rfl
    rw [drainReady_eq, drainReady_eq, hready, hready, hcontent]
  · intro later _
    apply later.pairwise_live.imp
    intro first second hneg hsub htrigger hpriority hmem
    have hlt := hneg ((reload_spec (list.pack now.toInt)).2 second hmem) htrigger hpriority
    omega

/-- Three ticks at one position, the first of them overdue. -/
def threeTicks : TickList ℕ :=
  let first := (new.schedule 0 ⟨0, 0, 0⟩ (100 : Int64).toInt .normal (5 : Int64).toInt).2
  let second := (first.schedule 1 ⟨0, 0, 0⟩ (100 : Int64).toInt .normal (4 : Int64).toInt).2
  (second.schedule 2 ⟨0, 0, 0⟩ (90 : Int64).toInt .low (6 : Int64).toInt).2

theorem reload_keeps_order_threeTicks : (threeTicks.reload 95).live.map content =
        threeTicks.live.map content ∧
      (∀ time, ((threeTicks.reload 95).drainReady time).map content =
        (threeTicks.drainReady time).map content) ∧
      ∀ later, Steps (threeTicks.reload 95) later →
        later.live.Pairwise fun first second => 0 ≤ first.subTickOrder →
          first.triggerTick = second.triggerTick → first.priority = second.priority →
          second ∉ (threeTicks.reload 95).live :=
  reload_keeps_order (.new (.schedule _ _ _ _ _ (.schedule _ _ _ _ _ (.schedule _ _ _ _ _ .refl))))
    rfl 95 (by decide +kernel)

end TickList

end

open List

variable {T : Type} [TickKey T]

def SavedTick.key (saved : SavedTick T) : ScheduledTickKey :=
  (saved.pos, TickKey.key saved.tickType)

namespace TickList

variable (list : TickList T)

def scheduleSavedPending (savedTick : SavedTick T) : Bool × TickList T :=
  if savedTick.key ∈ list.scheduled then (false, list)
  else
    (true, { list with
      scheduled := insert savedTick.key list.scheduled
      pendingTicks := some (list.pendingTicks.getD [] ++ [savedTick]) })

def schedulePending (tickType : T) (pos : BlockPos) (priority : TickPriority) : Bool × TickList T :=
  list.scheduleSavedPending ⟨tickType, pos, 0, priority⟩

def fromProtoSavedTicks (savedTicks : List (SavedTick T)) : TickList T :=
  savedTicks.foldl (fun list savedTick => (list.scheduleSavedPending savedTick).2) newPending

def hasTick (pos : BlockPos) (tickType : T) : Bool :=
  decide ((pos, TickKey.key tickType) ∈ list.scheduled)

/-- `Vec::retain` with the keys of what it drops. The predicate may change with every call: it is
given the number of calls before. -/
def retainPending (predicate : ℕ → SavedTick T → Bool) :
    ℕ → List (SavedTick T) → Finset ScheduledTickKey → List (SavedTick T) × Finset ScheduledTickKey
  | _, [], scheduled => ([], scheduled)
  | n, tick :: ticks, scheduled =>
    if predicate n tick then retainPending predicate (n + 1) ticks (scheduled.erase tick.key)
    else
      let (kept, scheduled) := retainPending predicate (n + 1) ticks scheduled
      (tick :: kept, scheduled)

def removePendingMatching (predicate : ℕ → SavedTick T → Bool) : ℕ × TickList T :=
  match list.pendingTicks with
  | none => (0, list)
  | some pending =>
    let (kept, scheduled) := retainPending predicate 0 pending list.scheduled
    (pending.length - kept.length,
      { list with pendingTicks := some kept, scheduled := scheduled })

/-- The keys of the ticks a list holds, the pending ones first. -/
def heldKeys : List ScheduledTickKey :=
  list.pendingEntries.map SavedTick.key ++ list.live.map ScheduledTick.key

/-- The scheduled keys are those of the ticks held, and none of them is held twice. -/
structure Deduplicated (list : TickList T) : Prop where
  nodup : list.heldKeys.Nodup
  mem_scheduled : ∀ key, key ∈ list.scheduled ↔ key ∈ list.heldKeys

variable {list : TickList T}

omit [TickKey T] in
theorem live_pushUnchecked_perm (list : TickList T) (tick : ScheduledTick T) :
    (list.pushUnchecked tick).live.Perm (tick :: list.live) :=
  (PriorityQueue.items_push_perm list.ticks ⟨tick, list.nextInsertionOrder⟩).map QueuedTick.tick

theorem heldKeys_pushUnchecked_perm (list : TickList T) (tick : ScheduledTick T) :
    (list.pushUnchecked tick).heldKeys.Perm (tick.key :: list.heldKeys) := by
  have hlive := (live_pushUnchecked_perm list tick).map ScheduledTick.key
  exact (hlive.append_left _).trans perm_middle

variable {list' : TickList T}

section

variable (h : list.Deduplicated)

include h

theorem Deduplicated.insert {key : ScheduledTickKey}
    (hnew : key ∉ list.scheduled) (hheld : list'.heldKeys.Perm (key :: list.heldKeys))
    (hscheduled : list'.scheduled = insert key list.scheduled) : list'.Deduplicated := by
  rw [h.mem_scheduled] at hnew
  constructor
  · rw [hheld.nodup_iff]
    exact nodup_cons.mpr ⟨hnew, h.nodup⟩
  · intro key'
    rw [hscheduled, hheld.mem_iff, Finset.mem_insert, mem_cons, h.mem_scheduled]

theorem Deduplicated.congr
    (hheld : list'.heldKeys.Perm list.heldKeys) (hscheduled : list'.scheduled = list.scheduled) :
    list'.Deduplicated := by
  constructor
  · rw [hheld.nodup_iff]
    exact h.nodup
  · intro key
    rw [hscheduled, hheld.mem_iff, h.mem_scheduled]

theorem Deduplicated.schedule (tickType : T) (pos : BlockPos)
    (triggerTick : ℤ) (priority : TickPriority) (subTickOrder : ℤ) :
    (list.schedule tickType pos triggerTick priority subTickOrder).2.Deduplicated := by
  unfold TickList.schedule
  split
  case isTrue => exact h
  case isFalse hnew => exact h.insert hnew (heldKeys_pushUnchecked_perm _ _) rfl

theorem Deduplicated.scheduleSavedPending (savedTick : SavedTick T) :
    (list.scheduleSavedPending savedTick).2.Deduplicated := by
  unfold TickList.scheduleSavedPending
  split
  case isTrue => exact h
  case isFalse hnew =>
    refine h.insert hnew ?_ rfl
    simp only [heldKeys, pendingEntries, Option.getD_some, map_append, append_assoc]
    exact perm_middle

end

theorem retainPending_spec (predicate : ℕ → SavedTick T → Bool) (n : ℕ)
    (pending : List (SavedTick T)) (scheduled : Finset ScheduledTickKey)
    (hnodup : (pending.map SavedTick.key).Nodup) :
    (retainPending predicate n pending scheduled).1.Sublist pending ∧
    ∀ key, key ∈ (retainPending predicate n pending scheduled).2 ↔
      key ∈ scheduled ∧ (key ∈ pending.map SavedTick.key →
        key ∈ (retainPending predicate n pending scheduled).1.map SavedTick.key) := by
  induction pending generalizing n scheduled with
  | nil => exact ⟨.slnil, by simp [retainPending]⟩
  | cons tick pending ih =>
    rw [map_cons, nodup_cons] at hnodup
    obtain ⟨hnot, hnodup⟩ := hnodup
    unfold retainPending
    split
    case isTrue =>
      obtain ⟨hsub, hkeys⟩ := ih (n + 1) (scheduled.erase tick.key) hnodup
      refine ⟨hsub.cons tick, ?_⟩
      intro key
      rw [hkeys, Finset.mem_erase, map_cons, mem_cons]
      have hkept : tick.key ∉
          (retainPending predicate (n + 1) pending (scheduled.erase tick.key)).1.map
            SavedTick.key := fun hmem => hnot ((hsub.map _).subset hmem)
      constructor
      · rintro ⟨⟨hne, hmem⟩, himp⟩
        exact ⟨hmem, fun hk => himp (hk.resolve_left hne)⟩
      · rintro ⟨hmem, himp⟩
        refine ⟨⟨?_, hmem⟩, fun hk => himp (.inr hk)⟩
        rintro rfl
        exact hkept (himp (.inl rfl))
    case isFalse =>
      obtain ⟨hsub, hkeys⟩ := ih (n + 1) scheduled hnodup
      refine ⟨hsub.cons_cons tick, ?_⟩
      intro key
      dsimp only
      rw [hkeys, map_cons, map_cons, mem_cons, mem_cons]
      constructor
      · rintro ⟨hmem, himp⟩
        exact ⟨hmem, Or.imp_right himp⟩
      · rintro ⟨hmem, himp⟩
        refine ⟨hmem, fun hk => (himp (.inr hk)).resolve_left ?_⟩
        rintro rfl
        exact hnot hk

theorem Deduplicated.removePendingMatching (h : list.Deduplicated)
    (predicate : ℕ → SavedTick T → Bool) :
    (list.removePendingMatching predicate).2.Deduplicated := by
  unfold TickList.removePendingMatching
  split
  case h_1 => exact h
  case h_2 pending hpending =>
    have hheld : list.heldKeys = pending.map SavedTick.key ++ list.live.map ScheduledTick.key := by
      rw [heldKeys, pendingEntries, hpending, Option.getD_some]
    have hnodup := h.nodup
    rw [hheld] at hnodup
    obtain ⟨hpend, hlive, hdisjoint⟩ := nodup_append.mp hnodup
    obtain ⟨hsub, hkeys⟩ := retainPending_spec predicate 0 pending list.scheduled hpend
    generalize retainPending predicate 0 pending list.scheduled = result at hsub hkeys
    obtain ⟨kept, scheduled⟩ := result
    dsimp only at hsub hkeys ⊢
    have hmap := hsub.map SavedTick.key
    constructor
    · exact nodup_append.mpr
        ⟨hpend.sublist hmap, hlive, fun a ha b hb => hdisjoint a (hmap.subset ha) b hb⟩
    · intro key
      change key ∈ scheduled ↔ key ∈ kept.map SavedTick.key ++ list.live.map ScheduledTick.key
      rw [hkeys, h.mem_scheduled, hheld, mem_append, mem_append]
      constructor
      · rintro ⟨hmem | hmem, himp⟩
        · exact .inl (himp hmem)
        · exact .inr hmem
      · rintro (hmem | hmem)
        · exact ⟨.inl (hmap.subset hmem), fun _ => hmem⟩
        · exact ⟨.inr hmem, fun hk => absurd rfl (hdisjoint key hk key hmem)⟩

theorem heldKeys_unpackFrom (currentTick tickCount : ℤ) (index : ℕ) (pending : List (SavedTick T))
    (list : TickList T) (hpending : list.pendingTicks = none) :
    (unpackFrom currentTick tickCount index pending list).heldKeys.Perm
      (pending.map SavedTick.key ++ list.heldKeys) ∧
    (unpackFrom currentTick tickCount index pending list).scheduled = list.scheduled := by
  induction pending generalizing index list with
  | nil => exact ⟨.refl _, rfl⟩
  | cons saved pending ih =>
    rw [unpackFrom]
    obtain ⟨hheld, hscheduled⟩ := ih (index + 1) (list.pushUnchecked
      ⟨saved.tickType, saved.pos, Int.bmod (currentTick + saved.delay.toInt) (2 ^ 64),
        saved.priority, -tickCount + index⟩) hpending
    refine ⟨hheld.trans ?_, hscheduled⟩
    refine ((heldKeys_pushUnchecked_perm _ _).append_left _).trans ?_
    exact perm_middle

theorem Deduplicated.unpack (h : list.Deduplicated) (currentTick : ℤ) :
    (list.unpack currentTick).Deduplicated := by
  unfold TickList.unpack
  split
  case h_1 => exact h
  case h_2 pending hpending =>
    obtain ⟨hheld, hscheduled⟩ := heldKeys_unpackFrom currentTick pending.length 0 pending
      { list with pendingTicks := none } rfl
    refine h.congr (hheld.trans ?_) hscheduled
    rw [heldKeys, heldKeys, pendingEntries, pendingEntries, hpending]
    rfl

theorem Deduplicated.popReady (h : list.Deduplicated) {currentTick : ℤ} {tick : ScheduledTick T}
    (hpop : list.popReady currentTick = some (tick, list')) :
    list'.Deduplicated := by
  cases hready : list.peekReady currentTick with
  | none =>
    rw [popReady_of_not_ready hready] at hpop
    cases hpop
  | some first =>
    obtain ⟨list'', hpop', hlive, hscheduled, hpending⟩ := popReady_of_ready hready
    cases hpop.symm.trans hpop'
    obtain ⟨hhead, -⟩ := peekReady_eq_some.mp hready
    obtain ⟨rest, hrest⟩ := List.head?_eq_some_iff.mp hhead
    have hheld : list.heldKeys.Perm (tick.key :: list'.heldKeys) := by
      rw [heldKeys, heldKeys, pendingEntries, pendingEntries, hpending, hlive, hrest, map_cons,
        tail_cons]
      exact perm_middle
    have hnodup := hheld.nodup_iff.mp h.nodup
    obtain ⟨hnot, hrest'⟩ := nodup_cons.mp hnodup
    constructor
    · exact hrest'
    · intro key
      rw [hscheduled, Finset.mem_erase, h.mem_scheduled, hheld.mem_iff, mem_cons]
      constructor
      · rintro ⟨hne, hmem⟩
        exact hmem.resolve_left hne
      · intro hmem
        refine ⟨?_, .inr hmem⟩
        rintro rfl
        exact hnot hmem

/-- How a list comes into being; a full chunk's saved list repeats no key. -/
inductive Origin (T : Type) [TickKey T] where
  | new
  | newPending
  | fromProtoSavedTicks (savedTicks : List (SavedTick T))
  | fromSavedTicks (savedTicks : List (SavedTick T))
      (nodup : (savedTicks.map SavedTick.key).Nodup)

def Origin.build : Origin T → TickList T
  | .new => TickList.new
  | .newPending => TickList.newPending
  | .fromProtoSavedTicks savedTicks => TickList.fromProtoSavedTicks savedTicks
  | .fromSavedTicks savedTicks _ => TickList.fromSavedTicks savedTicks

inductive Operation (T : Type) where
  | schedule (tickType : T) (pos : BlockPos) (triggerTick : ℤ) (priority : TickPriority)
      (subTickOrder : ℤ)
  | schedulePending (tickType : T) (pos : BlockPos) (priority : TickPriority)
  | removePendingMatching (predicate : ℕ → SavedTick T → Bool)
  | unpack (currentTick : ℤ)
  | popReady (currentTick : ℤ)

def perform (list : TickList T) : Operation T → TickList T
  | .schedule tickType pos triggerTick priority subTickOrder =>
    (list.schedule tickType pos triggerTick priority subTickOrder).2
  | .schedulePending tickType pos priority => (list.schedulePending tickType pos priority).2
  | .removePendingMatching predicate => (list.removePendingMatching predicate).2
  | .unpack currentTick => list.unpack currentTick
  | .popReady currentTick => ((list.popReady currentTick).map Prod.snd).getD list

theorem Deduplicated.perform (h : list.Deduplicated) (operation : Operation T) :
    (list.perform operation).Deduplicated := by
  cases operation with
  | schedule tickType pos triggerTick priority subTickOrder =>
    exact h.schedule tickType pos triggerTick priority subTickOrder
  | schedulePending tickType pos priority => exact h.scheduleSavedPending _
  | removePendingMatching predicate => exact h.removePendingMatching predicate
  | unpack currentTick => exact h.unpack currentTick
  | popReady currentTick =>
    cases hpop : list.popReady currentTick with
    | none => simpa [TickList.perform, hpop] using h
    | some popped =>
      obtain ⟨tick, list'⟩ := popped
      simpa [TickList.perform, hpop] using h.popReady hpop

theorem Origin.deduplicated (origin : Origin T) : origin.build.Deduplicated := by
  have hempty : (TickList.newPending : TickList T).Deduplicated :=
    ⟨nodup_nil, fun key => iff_of_false (Finset.notMem_empty key) not_mem_nil⟩
  cases origin with
  | new =>
    exact ⟨nodup_nil, fun key => iff_of_false (Finset.notMem_empty key) not_mem_nil⟩
  | newPending => exact hempty
  | fromProtoSavedTicks savedTicks =>
    have hall : ∀ list : TickList T, list.Deduplicated →
        (savedTicks.foldl (fun list savedTick => (list.scheduleSavedPending savedTick).2)
          list).Deduplicated := by
      induction savedTicks with
      | nil => exact fun list h => h
      | cons savedTick savedTicks ih => exact fun list h => ih _ (h.scheduleSavedPending savedTick)
    exact hall _ hempty
  | fromSavedTicks savedTicks nodup =>
    have hheld : (TickList.fromSavedTicks savedTicks).heldKeys = savedTicks.map SavedTick.key :=
      append_nil _
    constructor
    · rw [build, hheld]
      exact nodup
    · intro key
      rw [build, hheld]
      exact mem_toFinset

/-- Over every run the scheduled keys are exactly those of the pending and live ticks, each held
once; `has_tick` answers for them, and scheduling fails exactly on a key that is held. -/
theorem deduplication_exact (origin : Origin T) (operations : List (Operation T)) :
    let list := runSteps perform origin.build operations
    (∀ key, key ∈ list.scheduled ↔
      key ∈ list.pendingEntries.map SavedTick.key ∨ key ∈ list.live.map ScheduledTick.key) ∧
    (list.pendingEntries.map SavedTick.key ++ list.live.map ScheduledTick.key).Nodup ∧
    (∀ pos tickType, list.hasTick pos tickType = true ↔
      (∃ saved ∈ list.pendingEntries, saved.key = (pos, TickKey.key tickType)) ∨
      ∃ tick ∈ list.live, tick.key = (pos, TickKey.key tickType)) ∧
    (∀ tickType pos triggerTick priority subTickOrder,
      (list.schedule tickType pos triggerTick priority subTickOrder).1 = false ↔
        (pos, TickKey.key tickType) ∈ list.heldKeys) ∧
    ∀ tickType pos priority, (list.schedulePending tickType pos priority).1 = false ↔
      (pos, TickKey.key tickType) ∈ list.heldKeys := by
  have h : (runSteps perform origin.build operations).Deduplicated := by
    have hguard : Guarded perform (fun _ _ => True) origin.build operations :=
      guarded_of_forall fun _ _ _ => trivial
    exact hguard.invariant (fun list operation hlist _ => hlist.perform operation)
      origin.deduplicated
  generalize runSteps perform origin.build operations = list at h
  refine ⟨?_, h.nodup, ?_, ?_, ?_⟩
  · intro key
    rw [h.mem_scheduled, heldKeys, mem_append]
  · intro pos tickType
    rw [hasTick, decide_eq_true_iff, h.mem_scheduled, heldKeys, mem_append, mem_map, mem_map]
  · intro tickType pos triggerTick priority subTickOrder
    rw [← h.mem_scheduled, TickList.schedule]
    split
    case isTrue hmem => exact ⟨fun _ => hmem, fun _ => rfl⟩
    case isFalse hnot => exact ⟨fun hfalse => absurd hfalse (by simp), fun hmem => absurd hmem hnot⟩
  · intro tickType pos priority
    rw [← h.mem_scheduled, schedulePending, scheduleSavedPending]
    split
    case isTrue hmem => exact ⟨fun _ => hmem, fun _ => rfl⟩
    case isFalse hnot => exact ⟨fun hfalse => absurd hfalse (by simp), fun hmem => absurd hmem hnot⟩

end TickList

end Steel
