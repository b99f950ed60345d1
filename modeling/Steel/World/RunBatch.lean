import Steel.Lib.HashMap
import Steel.Lib.Run
import Steel.World.TickList

/-! # The batch of ticks of one phase

While a batch runs, callbacks ask whether a tick is still to come. The first query builds a map from
keys to their last place in the rest of the batch; later queries compare that place with the next
tick to start.
-/

namespace Steel

open List

variable {T : Type}

/-- The lookup map is empty until the first query. -/
structure ScheduledTickRunBatch (T : Type) where
  ticks : List (ScheduledTick T)
  nextIndex : ℕ
  lookup : Option (HashMap ScheduledTickKey ℕ)

namespace ScheduledTickRunBatch

def new (ticks : List (ScheduledTick T)) : ScheduledTickRunBatch T := ⟨ticks, 0, none⟩

/-- An index outside the batch is a panic before anything changes. -/
def start (batch : ScheduledTickRunBatch T) (index : ℕ) : Except String (ScheduledTickRunBatch T) :=
  if index < batch.ticks.length then .ok { batch with nextIndex := index + 1 }
  else .error "scheduled-tick batch index out of bounds"

variable [TickKey T]

/-- The ticks with their places, collected in order: a later place replaces an earlier one. -/
def buildLookup (initialIndex : ℕ) (ticks : List (ScheduledTick T)) : HashMap ScheduledTickKey ℕ :=
  ((ticks.zipIdx initialIndex).map fun entry => (entry.1.key, entry.2)).foldl
    (fun lookup entry => lookup.insert entry.1 entry.2) ∅

/-- The answer, and the batch with the map it was read from. -/
def contains (batch : ScheduledTickRunBatch T) (pos : BlockPos) (tickType : T) :
    Bool × ScheduledTickRunBatch T :=
  let initialIndex := batch.nextIndex
  if batch.ticks.length ≤ initialIndex then (false, batch)
  else
    let lookup := batch.lookup.getD (buildLookup initialIndex (batch.ticks.drop initialIndex))
    ((lookup.lookup (pos, TickKey.key tickType)).any fun index => decide (batch.nextIndex ≤ index),
      { batch with lookup := some lookup })

variable {ticks : List (ScheduledTick T)} {batch : ScheduledTickRunBatch T}

/-- Some tick of the key has its place at the index or behind it. -/
def StillToCome (ticks : List (ScheduledTick T)) (index : ℕ) (key : ScheduledTickKey) : Prop :=
  ∃ i tick, index ≤ i ∧ ticks[i]? = some tick ∧ tick.key = key

theorem buildLookup_spec {first index : ℕ} (hle : first ≤ index) (key : ScheduledTickKey) :
    (((buildLookup first (ticks.drop first)).lookup key).any
      fun last => decide (index ≤ last)) = true ↔ StillToCome ticks index key := by
  have hrising : (((ticks.drop first).zipIdx first).map fun entry =>
      (entry.1.key, entry.2)).Pairwise fun e e' => e.2 ≤ e'.2 := by
    rw [pairwise_map]
    have hplaces : (((ticks.drop first).zipIdx first).map Prod.snd).Pairwise (· < ·) := by
      rw [zipIdx_map_snd]
      exact pairwise_lt_range' ..
    exact (pairwise_map.mp hplaces).imp fun hlt => hlt.le
  rw [buildLookup, lookup_collect_le_iff hrising]
  constructor
  · rintro ⟨e, he, hkey, hindex⟩
    obtain ⟨⟨tick, i⟩, hmem, rfl⟩ := mem_map.mp he
    obtain ⟨hfirst, htick⟩ := mk_mem_zipIdx_iff_le_and_getElem?_sub.mp hmem
    rw [List.getElem?_drop, Nat.add_sub_cancel' hfirst] at htick
    exact ⟨i, tick, hindex, htick, hkey⟩
  · rintro ⟨i, tick, hindex, htick, hkey⟩
    refine ⟨(tick.key, i), mem_map.mpr ⟨(tick, i), ?_, rfl⟩, hkey, hindex⟩
    rw [mk_mem_zipIdx_iff_le_and_getElem?_sub, List.getElem?_drop,
      Nat.add_sub_cancel' (hle.trans hindex)]
    exact ⟨hle.trans hindex, htick⟩

/-- A map that was built answers for the next index and all later ones. -/
def LookupExact (batch : ScheduledTickRunBatch T) : Prop :=
  ∀ lookup, batch.lookup = some lookup → ∀ index, batch.nextIndex ≤ index → ∀ key,
    ((lookup.lookup key).any fun last => decide (index ≤ last)) = true ↔
      StillToCome batch.ticks index key

theorem LookupExact.start (h : batch.LookupExact) {index : ℕ} (hle : batch.nextIndex ≤ index)
    {batch' : ScheduledTickRunBatch T} (hstart : batch.start index = .ok batch') :
    batch'.LookupExact := by
  unfold ScheduledTickRunBatch.start at hstart
  split at hstart
  case isTrue =>
    cases hstart
    intro lookup hlookup index' hindex
    exact h lookup hlookup index' (hle.trans (Nat.le_of_succ_le hindex))
  case isFalse => cases hstart

/-- A query answers like a scan of the ticks that have not started, and keeps the map exact. -/
theorem LookupExact.contains (h : batch.LookupExact) (pos : BlockPos) (tickType : T) :
    ((batch.contains pos tickType).1 = true ↔
      StillToCome batch.ticks batch.nextIndex (pos, TickKey.key tickType)) ∧
    (batch.contains pos tickType).2.LookupExact ∧
    (batch.contains pos tickType).2.nextIndex = batch.nextIndex ∧
    (batch.contains pos tickType).2.ticks = batch.ticks := by
  unfold ScheduledTickRunBatch.contains
  dsimp only
  split
  case isTrue hdone =>
    refine ⟨?_, h, rfl, rfl⟩
    constructor
    · intro hfalse
      cases hfalse
    · rintro ⟨i, tick, hindex, htick, -⟩
      have hlt := (List.getElem?_eq_some_iff.mp htick).1
      omega
  case isFalse =>
    cases hlookup : batch.lookup with
    | some lookup =>
      refine ⟨h lookup hlookup _ le_rfl _, ?_, rfl, rfl⟩
      rintro lookup' ⟨⟩
      exact h lookup hlookup
    | none =>
      refine ⟨buildLookup_spec le_rfl _, ?_, rfl, rfl⟩
      rintro lookup' ⟨⟩ index hindex key
      exact buildLookup_spec hindex key

inductive Operation (T : Type) where
  | start (index : ℕ)
  | contains (pos : BlockPos) (tickType : T)

/-- A start outside the batch panics and leaves the batch as it was. -/
def perform (batch : ScheduledTickRunBatch T) : Operation T → ScheduledTickRunBatch T
  | .start index => (batch.start index).toOption.getD batch
  | .contains pos tickType => (batch.contains pos tickType).2

def startedIndices : List (Operation T) → List ℕ
  | [] => []
  | .start index :: operations => index :: startedIndices operations
  | .contains .. :: operations => startedIndices operations

/-- The index that follows the last started tick of a batch of `count` ticks. -/
def followingIndex (count : ℕ) : ℕ → List (Operation T) → ℕ
  | index, [] => index
  | index, .start index' :: operations =>
    followingIndex count (if index' < count then index' + 1 else index) operations
  | index, .contains .. :: operations => followingIndex count index operations

theorem LookupExact.run (h : batch.LookupExact) {operations : List (Operation T)}
    (hrising : (startedIndices operations).Pairwise (· < ·))
    (hge : ∀ index ∈ startedIndices operations, batch.nextIndex ≤ index) :
    (runSteps perform batch operations).LookupExact ∧
    (runSteps perform batch operations).ticks = batch.ticks ∧
    (runSteps perform batch operations).nextIndex =
      followingIndex batch.ticks.length batch.nextIndex operations := by
  induction operations generalizing batch with
  | nil => exact ⟨h, rfl, rfl⟩
  | cons operation operations ih =>
    cases operation with
    | contains pos tickType =>
      obtain ⟨-, hexact, hnext, hticks⟩ := h.contains pos tickType
      have hrun := ih hexact hrising (by rw [hnext]; exact hge)
      rwa [hnext, hticks] at hrun
    | start index =>
      obtain ⟨hless, hrising⟩ := pairwise_cons.mp hrising
      rw [startedIndices, forall_mem_cons] at hge
      rw [runSteps_cons, followingIndex, perform]
      by_cases hlt : index < batch.ticks.length
      · have hstart : batch.start index = .ok { batch with nextIndex := index + 1 } := if_pos hlt
        rw [hstart, if_pos hlt]
        exact ih (h.start hge.1 hstart) hrising fun index' hmem => hless index' hmem
      · have hstart : batch.start index = .error "scheduled-tick batch index out of bounds" :=
          if_neg hlt
        rw [hstart, if_neg hlt]
        exact ih h hrising hge.2

theorem lookupExact_new (ticks : List (ScheduledTick T)) : (new ticks).LookupExact := by
  rintro lookup ⟨⟩

/-- Whatever ticks a batch has and wherever queries fall between the starts, each query answers
like a scan of the ticks from the one that follows the last started. -/
theorem contains_iff_stillToCome (ticks : List (ScheduledTick T))
    (operations : List (Operation T)) (hrising : (startedIndices operations).Pairwise (· < ·))
    (pos : BlockPos) (tickType : T) :
    ((runSteps perform (new ticks) operations).contains pos tickType).1 = true ↔
      ∃ i tick, followingIndex ticks.length 0 operations ≤ i ∧ ticks[i]? = some tick ∧
        tick.key = (pos, TickKey.key tickType) := by
  obtain ⟨hexact, hticks, hnext⟩ :=
    (lookupExact_new ticks).run hrising fun index _ => Nat.zero_le index
  have hquery := (hexact.contains pos tickType).1
  rw [hticks, hnext] at hquery
  exact hquery

/-- A repeated key: its first tick has run when the map is built, its last one is still to come. -/
theorem contains_repeated_key :
    ((runSteps perform (new [⟨(7 : ℕ), ⟨0, 0, 0⟩, 1, .normal, 0⟩, ⟨8, ⟨0, 0, 0⟩, 1, .normal, 1⟩,
      ⟨7, ⟨0, 0, 0⟩, 1, .normal, 2⟩]) [.start 0, .contains ⟨0, 0, 0⟩ 8, .start 1]).contains
        ⟨0, 0, 0⟩ 7).1 = true :=
  (contains_iff_stillToCome _ _ (by decide) _ _).mpr ⟨2, _, le_rfl, rfl, rfl⟩

end ScheduledTickRunBatch

end Steel
