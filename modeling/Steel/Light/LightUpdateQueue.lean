import Mathlib.Data.Finset.Lattice.Lemmas
import Steel.Lib.HashMap
import Steel.Utils.ChunkPos

/-! # Pending light updates

Light changes are collected in one task for each chunk. Tasks are drained to be worked on, and put
back before the others when they are blocked.
-/

namespace Steel

open AList List

variable {β σ : Type} [DecidableEq β] [DecidableEq σ]

/-- The changes of a chunk, with the positions of blocks and of sections as type parameters. -/
structure PendingChunkLightUpdates (β σ : Type) where
  changedPositions : Finset β
  changedSections : HashMap σ Bool

namespace PendingChunkLightUpdates

def default : PendingChunkLightUpdates β σ := ⟨∅, ∅⟩

def isEmpty (task : PendingChunkLightUpdates β σ) : Bool :=
  decide (task.changedPositions = ∅) && task.changedSections.entries.isEmpty

/-- The entries of the older task are only taken where there is none yet. -/
def mergeOlder (task older : PendingChunkLightUpdates β σ) : PendingChunkLightUpdates β σ :=
  ⟨task.changedPositions ∪ older.changedPositions, task.changedSections ∪ older.changedSections⟩

/-- What `queue_change` does with the task of the chunk. -/
def record (task : PendingChunkLightUpdates β σ) (pos : β) (checkBlock : Bool)
    (emptySectionChange : Option (σ × Bool)) : PendingChunkLightUpdates β σ :=
  ⟨if checkBlock then insert pos task.changedPositions else task.changedPositions,
    match emptySectionChange with
    | some (section_, empty) => task.changedSections.insert section_ empty
    | none => task.changedSections⟩

end PendingChunkLightUpdates

/-- Chunks with a task, in the order in which they were queued. -/
structure PendingLightUpdates (β σ : Type) where
  chunks : HashMap ChunkPos (PendingChunkLightUpdates β σ)
  queuedChunks : List ChunkPos

def lightCacheRadius : ℕ := 2

def lightUpdateWindowContains (center chunkPos : ChunkPos) : Bool :=
  (center.x.toInt - chunkPos.x.toInt).natAbs ≤ lightCacheRadius &&
    (center.z.toInt - chunkPos.z.toInt).natAbs ≤ lightCacheRadius

namespace PendingLightUpdates

variable (pending : PendingLightUpdates β σ)

def empty : PendingLightUpdates β σ := ⟨∅, []⟩

def nextCenter : Option ChunkPos :=
  pending.queuedChunks.find? fun chunkPos => decide (chunkPos ∈ pending.chunks)

def nextCenterTouchingChunk (chunkPos : ChunkPos) : Option ChunkPos :=
  pending.queuedChunks.find? fun center =>
    decide (center ∈ pending.chunks) && lightUpdateWindowContains center chunkPos

def task (chunkPos : ChunkPos) : PendingChunkLightUpdates β σ :=
  (pending.chunks.lookup chunkPos).getD .default

def queueChange (chunkPos : ChunkPos) (pos : β) (checkBlock : Bool)
    (emptySectionChange : Option (σ × Bool)) : PendingLightUpdates β σ :=
  ⟨pending.chunks.insert chunkPos
      ((pending.task chunkPos).record pos checkBlock emptySectionChange),
    if chunkPos ∈ pending.chunks then pending.queuedChunks
    else pending.queuedChunks ++ [chunkPos]⟩

/-- The tasks of some chunks in their order, each taken out of the map. -/
def takeTasks (chunks : HashMap ChunkPos (PendingChunkLightUpdates β σ)) :
    List ChunkPos → List (ChunkPos × PendingChunkLightUpdates β σ)
  | [] => []
  | chunkPos :: queued =>
    match chunks.lookup chunkPos with
    | some task => (chunkPos, task) :: takeTasks (chunks.erase chunkPos) queued
    | none => takeTasks (chunks.erase chunkPos) queued

def drain : List (ChunkPos × PendingChunkLightUpdates β σ) × PendingLightUpdates β σ :=
  (takeTasks pending.chunks pending.queuedChunks, empty)

def drainCenter (chunkPos : ChunkPos) :
    Option (PendingChunkLightUpdates β σ) × PendingLightUpdates β σ :=
  match pending.chunks.lookup chunkPos with
  | none => (none, pending)
  | some task =>
    (some task, ⟨pending.chunks.erase chunkPos, pending.queuedChunks.filter (· ≠ chunkPos)⟩)

/-- One round of `prepend_drained`, with the chunks that have been put back as the queue. -/
def putBack (pending : PendingLightUpdates β σ)
    (entry : ChunkPos × PendingChunkLightUpdates β σ) : PendingLightUpdates β σ :=
  if entry.2.isEmpty then pending
  else
    ⟨match pending.chunks.lookup entry.1 with
      | some existing => pending.chunks.insert entry.1 (existing.mergeOlder entry.2)
      | none => pending.chunks.insert entry.1 entry.2,
    if entry.1 ∈ pending.queuedChunks then pending.queuedChunks
    else pending.queuedChunks ++ [entry.1]⟩

def prependDrained (tasks : List (ChunkPos × PendingChunkLightUpdates β σ)) :
    PendingLightUpdates β σ :=
  let prepended := tasks.foldl putBack ⟨pending.chunks, []⟩
  ⟨prepended.chunks,
    prepended.queuedChunks ++ pending.queuedChunks.filter (· ∉ prepended.queuedChunks)⟩

/-- The queue lists every chunk with a task exactly once. -/
structure Listed : Prop where
  nodup : pending.queuedChunks.Nodup
  mem_iff : ∀ chunkPos, chunkPos ∈ pending.queuedChunks ↔ chunkPos ∈ pending.chunks

variable {pending} {chunkPos : ChunkPos}

section Instances

omit [DecidableEq β] [DecidableEq σ]

theorem task_of_notMem (h : chunkPos ∉ pending.chunks) : pending.task chunkPos = .default := by
  rw [task, lookup_eq_none.2 h]
  rfl

theorem takeTasks_eq {queued : List ChunkPos} (h : queued.Nodup) :
    ∀ chunks : HashMap ChunkPos (PendingChunkLightUpdates β σ),
      (∀ chunkPos ∈ queued, chunkPos ∈ chunks) →
      takeTasks chunks queued = queued.map fun chunkPos =>
        (chunkPos, (chunks.lookup chunkPos).getD .default) := by
  induction queued with
  | nil => exact fun _ _ => rfl
  | cons first queued ih =>
    intro chunks hmem
    obtain ⟨hfirst, hqueued⟩ := nodup_cons.1 h
    obtain ⟨task, htask⟩ := Option.isSome_iff_exists.1 (lookup_isSome.2 (hmem first mem_cons_self))
    have hne : ∀ chunkPos ∈ queued, chunkPos ≠ first := fun _ hq heq => hfirst (heq ▸ hq)
    rw [takeTasks, htask, map_cons, htask]
    dsimp only
    rw [ih hqueued]
    · refine congrArg _ (map_congr_left fun chunkPos hq => ?_)
      rw [lookup_erase_ne (hne chunkPos hq)]
    · intro chunkPos hq
      exact mem_erase.2 ⟨hne chunkPos hq, hmem chunkPos (mem_cons_of_mem _ hq)⟩

theorem Listed.drain_eq (h : pending.Listed) :
    pending.drain.1 = pending.queuedChunks.map fun chunkPos => (chunkPos, pending.task chunkPos) :=
  takeTasks_eq h.nodup _ fun chunkPos => (h.mem_iff chunkPos).1

theorem Listed.drainCenter {task : PendingChunkLightUpdates β σ}
    (h : pending.Listed) (htask : (pending.drainCenter chunkPos).1 = some task) :
    task = pending.task chunkPos ∧ (pending.drainCenter chunkPos).2.Listed ∧
      ∀ other, (pending.drainCenter chunkPos).2.task other =
        if other = chunkPos then .default else pending.task other := by
  unfold PendingLightUpdates.drainCenter at htask ⊢
  cases hlookup : pending.chunks.lookup chunkPos with
  | none =>
    rw [hlookup] at htask
    cases htask
  | some found =>
    rw [hlookup] at htask
    cases htask
    refine ⟨by rw [PendingLightUpdates.task, hlookup]; rfl, ⟨h.nodup.filter _, ?_⟩, ?_⟩
    · intro other
      rw [mem_filter, h.mem_iff, mem_erase, decide_eq_true_eq, and_comm]
    · intro other
      split_ifs with heq
      · rw [heq, PendingLightUpdates.task, lookup_erase]
        rfl
      · rw [PendingLightUpdates.task, lookup_erase_ne heq]
        rfl

end Instances

theorem task_queueChange (pos : β) (checkBlock : Bool) (emptySectionChange : Option (σ × Bool))
    (other : ChunkPos) :
    (pending.queueChange chunkPos pos checkBlock emptySectionChange).task other =
      if other = chunkPos then (pending.task other).record pos checkBlock emptySectionChange
      else pending.task other := by
  rw [queueChange, task]
  dsimp only
  split_ifs with heq
  · rw [heq, lookup_insert]
    rfl
  · rw [lookup_insert_ne heq]
    rfl

end PendingLightUpdates

namespace PendingChunkLightUpdates

theorem default_mergeOlder (task : PendingChunkLightUpdates β σ) :
    default.mergeOlder task = task := by
  rw [mergeOlder, default, Finset.empty_union, empty_union]

theorem mergeOlder_of_isEmpty {task older : PendingChunkLightUpdates β σ}
    (h : older.isEmpty = true) : task.mergeOlder older = task := by
  rw [isEmpty, Bool.and_eq_true, decide_eq_true_eq, List.isEmpty_iff] at h
  have hsections : older.changedSections = ∅ := AList.ext h.2
  rw [mergeOlder, h.1, hsections, Finset.union_empty, union_empty]

end PendingChunkLightUpdates

namespace PendingLightUpdates

variable {pending : PendingLightUpdates β σ} (entry : ChunkPos × PendingChunkLightUpdates β σ)

theorem task_putBack (chunkPos : ChunkPos) : (putBack pending entry).task chunkPos =
      if chunkPos = entry.1 then (pending.task chunkPos).mergeOlder entry.2
      else pending.task chunkPos := by
  unfold putBack
  by_cases hempty : entry.2.isEmpty = true
  · rw [if_pos hempty, PendingChunkLightUpdates.mergeOlder_of_isEmpty hempty, ite_self]
  · rw [if_neg hempty, task, task]
    dsimp only
    by_cases h : chunkPos = entry.1
    · rw [if_pos h, h]
      cases pending.chunks.lookup entry.1 with
      | none =>
        rw [lookup_insert]
        exact (PendingChunkLightUpdates.default_mergeOlder _).symm
      | some existing =>
        rw [lookup_insert]
        rfl
    · rw [if_neg h]
      cases pending.chunks.lookup entry.1 <;> rw [lookup_insert_ne h]

variable (pending) in
/-- A task that is put back is added to the map and to the queue, unless it is empty. -/
theorem mem_putBack (chunkPos : ChunkPos) : (chunkPos ∈ (putBack pending entry).chunks ↔
      chunkPos ∈ pending.chunks ∨ entry.1 = chunkPos ∧ entry.2.isEmpty = false) ∧
    (chunkPos ∈ (putBack pending entry).queuedChunks ↔
      chunkPos ∈ pending.queuedChunks ∨ entry.1 = chunkPos ∧ entry.2.isEmpty = false) := by
  unfold putBack
  cases hempty : entry.2.isEmpty with
  | true => simp
  | false =>
    rw [if_neg Bool.false_ne_true]
    constructor
    · cases pending.chunks.lookup entry.1 <;> simp [mem_insert, or_comm, eq_comm]
    · dsimp only
      split_ifs with hmem
      · constructor
        · exact .inl
        · rintro (h | ⟨rfl, -⟩)
          · exact h
          · exact hmem
      · simp [eq_comm]

theorem nodup_putBack (h : pending.queuedChunks.Nodup)
    (entry : ChunkPos × PendingChunkLightUpdates β σ) :
    (putBack pending entry).queuedChunks.Nodup := by
  unfold putBack
  split_ifs with hempty hmem
  · exact h
  · exact h
  · exact nodup_append_comm.2 (nodup_cons.2 ⟨hmem, h⟩)

variable (tasks : List (ChunkPos × PendingChunkLightUpdates β σ))

/-- The loop puts back all tasks that are not empty. -/
theorem foldl_putBack (chunkPos : ChunkPos) :
    ∀ pending : PendingLightUpdates β σ, pending.queuedChunks.Nodup →
      (tasks.foldl putBack pending).queuedChunks.Nodup ∧
      (chunkPos ∈ (tasks.foldl putBack pending).chunks ↔ chunkPos ∈ pending.chunks ∨
        ∃ entry ∈ tasks, entry.1 = chunkPos ∧ entry.2.isEmpty = false) ∧
      (chunkPos ∈ (tasks.foldl putBack pending).queuedChunks ↔ chunkPos ∈ pending.queuedChunks ∨
        ∃ entry ∈ tasks, entry.1 = chunkPos ∧ entry.2.isEmpty = false) := by
  induction tasks with
  | nil => simp
  | cons entry tasks ih =>
    intro pending hnodup
    obtain ⟨hnodup', hchunks, hqueued⟩ := ih (putBack pending entry) (nodup_putBack hnodup entry)
    obtain ⟨hmem, hmem'⟩ := mem_putBack pending entry chunkPos
    rw [foldl_cons]
    refine ⟨hnodup', ?_, ?_⟩
    · rw [hchunks, hmem, or_assoc, exists_mem_cons_iff]
    · rw [hqueued, hmem', or_assoc, exists_mem_cons_iff]

theorem Listed.queueChange (h : pending.Listed) (chunkPos : ChunkPos) (pos : β) (checkBlock : Bool)
    (emptySectionChange : Option (σ × Bool)) :
    (pending.queueChange chunkPos pos checkBlock emptySectionChange).Listed := by
  unfold PendingLightUpdates.queueChange
  constructor
  · dsimp only
    split_ifs with hmem
    · exact h.nodup
    · exact nodup_append_comm.2 (nodup_cons.2 ⟨mt (h.mem_iff chunkPos).1 hmem, h.nodup⟩)
  · intro other
    dsimp only
    rw [mem_insert, ← h.mem_iff other]
    split_ifs with hmem
    · constructor
      · exact .inr
      · rintro (rfl | hother)
        · exact (h.mem_iff other).2 hmem
        · exact hother
    · rw [mem_append, mem_singleton, or_comm]

/-- The chunks of the tasks that are put back come first, in front of the others in their order. -/
theorem exists_prependDrained_eq :
    ∃ front : List ChunkPos, (pending.prependDrained tasks).queuedChunks =
        front ++ pending.queuedChunks.filter (· ∉ front) ∧
      ∀ chunkPos, chunkPos ∈ front ↔
        ∃ entry ∈ tasks, entry.1 = chunkPos ∧ entry.2.isEmpty = false := by
  refine ⟨_, rfl, fun chunkPos => ?_⟩
  rw [(foldl_putBack tasks chunkPos ⟨pending.chunks, []⟩ nodup_nil).2.2]
  exact or_iff_right not_mem_nil

theorem Listed.prependDrained (h : pending.Listed)
    (tasks : List (ChunkPos × PendingChunkLightUpdates β σ)) :
    (pending.prependDrained tasks).Listed := by
  have hfold := fun chunkPos => foldl_putBack tasks chunkPos ⟨pending.chunks, []⟩ nodup_nil
  constructor
  · refine (hfold ⟨0, 0⟩).1.append (h.nodup.filter _) fun chunkPos hfront hrest => ?_
    exact of_decide_eq_true (mem_filter.1 hrest).2 hfront
  · intro chunkPos
    obtain ⟨-, hchunks, hqueued⟩ := hfold chunkPos
    rw [or_iff_right not_mem_nil] at hqueued
    dsimp only [PendingLightUpdates.prependDrained]
    rw [hchunks, ← hqueued, mem_append, mem_filter, h.mem_iff, decide_eq_true_eq]
    tauto

omit [DecidableEq β] [DecidableEq σ] in
theorem Listed.find_eq_none (h : pending.Listed) {p : ChunkPos → Bool} :
    (pending.queuedChunks.find? fun chunkPos => decide (chunkPos ∈ pending.chunks) && p chunkPos) =
      none ↔ ∀ chunkPos ∈ pending.chunks, p chunkPos = false := by
  rw [List.find?_eq_none]
  constructor
  · intro hnone chunkPos hmem
    have hfalse := hnone chunkPos ((h.mem_iff chunkPos).2 hmem)
    rwa [decide_eq_true hmem, Bool.true_and, Bool.not_eq_true] at hfalse
  · intro hnone chunkPos hqueued
    rw [hnone chunkPos ((h.mem_iff chunkPos).1 hqueued), Bool.and_false]
    exact Bool.false_ne_true

end PendingLightUpdates

end Steel
