import Steel.Light.LightUpdateQueue

/-! # Light changes on their way

A light change is pending, in a task that has been drained, or done with the task that it was
drained in.
-/

namespace Steel

open List PendingLightUpdates AList Perm

variable {β σ : Type} [DecidableEq β] [DecidableEq σ]

/-- A call of `queue_change`, with its number. -/
structure LightChange (β σ : Type) where
  index : ℕ
  chunkPos : ChunkPos
  pos : β
  checkBlock : Bool
  emptySectionChange : Option (σ × Bool)
  deriving DecidableEq

namespace LightChange

def Checks (change : LightChange β σ) (chunkPos : ChunkPos) (pos : β) : Prop :=
  change.chunkPos = chunkPos ∧ change.checkBlock = true ∧ change.pos = pos

def Tells (change : LightChange β σ) (chunkPos : ChunkPos) (section_ : σ) (empty : Bool) : Prop :=
  change.chunkPos = chunkPos ∧ change.emptySectionChange = some (section_, empty)

end LightChange

/-- What a task for a chunk holds of some changes. -/
structure Carries (changes : List (LightChange β σ)) (chunkPos : ChunkPos)
    (task : PendingChunkLightUpdates β σ) : Prop where
  positions : ∀ pos, pos ∈ task.changedPositions ↔ ∃ change ∈ changes, change.Checks chunkPos pos
  sections : ∀ section_, section_ ∈ task.changedSections ↔
    ∃ change ∈ changes, ∃ empty, change.Tells chunkPos section_ empty

def Latest (changes : List (LightChange β σ)) (chunkPos : ChunkPos)
    (task : PendingChunkLightUpdates β σ) : Prop :=
  ∀ section_ empty, task.changedSections.lookup section_ = some empty →
    ∃ change ∈ changes, change.Tells chunkPos section_ empty ∧
      ∀ other ∈ changes, ∀ empty', other.Tells chunkPos section_ empty' →
        other.index ≤ change.index

/-- The changes of the first list are newer, where they tell of the same section. -/
def NewerThan (newer older : List (LightChange β σ)) : Prop :=
  ∀ change ∈ newer, ∀ change' ∈ older, ∀ chunkPos section_ empty empty',
    change.Tells chunkPos section_ empty → change'.Tells chunkPos section_ empty' →
    change'.index < change.index

/-- A task that has been drained, with the changes that it brings with it. -/
structure DrainedTask (β σ : Type) where
  chunkPos : ChunkPos
  task : PendingChunkLightUpdates β σ
  changes : List (LightChange β σ)

def DrainedTask.entry (drained : DrainedTask β σ) : ChunkPos × PendingChunkLightUpdates β σ :=
  (drained.chunkPos, drained.task)

/-- The queue, with what has become of all changes so far. -/
structure LightUpdateRun (β σ : Type) where
  pending : PendingLightUpdates β σ
  queued : List (LightChange β σ)
  changes : List (LightChange β σ)
  drained : List (DrainedTask β σ)
  finished : List (LightChange β σ)

namespace LightUpdateRun

def start : LightUpdateRun β σ := ⟨.empty, [], [], [], []⟩

/-- Tasks are put back before older ones of the same chunk, and none after a newer change. -/
def NewestFirst (run : LightUpdateRun β σ) (tasks : List (DrainedTask β σ)) : Prop :=
  (run.changes :: tasks.map DrainedTask.changes).Pairwise NewerThan

/-- A call, or the end of the work on a task. Tasks may be put back if a condition allows it. -/
inductive Step (allowed : LightUpdateRun β σ → List (DrainedTask β σ) → Prop) :
    LightUpdateRun β σ → LightUpdateRun β σ → Prop
  | queue (run : LightUpdateRun β σ) (chunkPos : ChunkPos) (pos : β) (checkBlock : Bool)
      (emptySectionChange : Option (σ × Bool)) :
      Step allowed run
        { run with
          pending := run.pending.queueChange chunkPos pos checkBlock emptySectionChange
          queued := run.queued ++
            [⟨run.queued.length, chunkPos, pos, checkBlock, emptySectionChange⟩]
          changes := run.changes ++
            [⟨run.queued.length, chunkPos, pos, checkBlock, emptySectionChange⟩] }
  | drain (run : LightUpdateRun β σ) :
      Step allowed run
        { run with
          pending := run.pending.drain.2
          changes := run.changes.filter fun change =>
            change.chunkPos ∉ run.pending.drain.1.map Prod.fst
          drained := run.drained ++ run.pending.drain.1.map fun entry =>
            ⟨entry.1, entry.2, run.changes.filter fun change => change.chunkPos = entry.1⟩ }
  | drainCenter (run : LightUpdateRun β σ) (chunkPos : ChunkPos)
      (task : PendingChunkLightUpdates β σ)
      (htask : (run.pending.drainCenter chunkPos).1 = some task) :
      Step allowed run
        { run with
          pending := (run.pending.drainCenter chunkPos).2
          changes := run.changes.filter fun change => change.chunkPos ≠ chunkPos
          drained := run.drained ++
            [⟨chunkPos, task, run.changes.filter fun change => change.chunkPos = chunkPos⟩] }
  | prepend (run : LightUpdateRun β σ) (tasks rest : List (DrainedTask β σ))
      (hdrained : run.drained.Perm (tasks ++ rest)) (hallowed : allowed run tasks) :
      Step allowed run
        { run with
          pending := run.pending.prependDrained (tasks.map DrainedTask.entry)
          changes := run.changes ++ tasks.flatMap DrainedTask.changes
          drained := rest }
  | finish (run : LightUpdateRun β σ) (task : DrainedTask β σ) (rest : List (DrainedTask β σ))
      (hdrained : run.drained.Perm (task :: rest)) :
      Step allowed run
        { run with
          drained := rest
          finished := run.finished ++ task.changes }

inductive Reachable (allowed : LightUpdateRun β σ → List (DrainedTask β σ) → Prop) :
    LightUpdateRun β σ → Prop
  | start : Reachable allowed start
  | step {run run' : LightUpdateRun β σ} (h : Reachable allowed run)
      (hstep : Step allowed run run') : Reachable allowed run'

end LightUpdateRun

section Tasks

variable {changes changes' : List (LightChange β σ)} {chunkPos : ChunkPos}
  {task task' : PendingChunkLightUpdates β σ}

omit [DecidableEq β] [DecidableEq σ] in
theorem carries_default : Carries ([] : List (LightChange β σ)) chunkPos .default := by
  constructor
  · intro pos
    simp [PendingChunkLightUpdates.default]
  · intro section_
    simp [PendingChunkLightUpdates.default]

theorem exists_mem_append_iff {α : Type} {l l' : List α} {p : α → Prop} :
    (∃ a ∈ l ++ l', p a) ↔ (∃ a ∈ l, p a) ∨ ∃ a ∈ l', p a := by
  simp [or_and_right, exists_or]

theorem Carries.mergeOlder (h : Carries changes chunkPos task)
    (h' : Carries changes' chunkPos task') :
    Carries (changes ++ changes') chunkPos (task.mergeOlder task') := by
  constructor
  · intro pos
    rw [PendingChunkLightUpdates.mergeOlder, Finset.mem_union, h.positions, h'.positions,
      exists_mem_append_iff]
  · intro section_
    rw [PendingChunkLightUpdates.mergeOlder, mem_union, h.sections, h'.sections,
      exists_mem_append_iff]

/-- The value of the newer task is kept. -/
theorem Latest.mergeOlder (hcarries : Carries changes chunkPos task)
    (h : Latest changes chunkPos task)
    (h' : Latest changes' chunkPos task') (hnewer : NewerThan changes changes') :
    Latest (changes ++ changes') chunkPos (task.mergeOlder task') := by
  intro section_ empty hlookup
  by_cases hmem : section_ ∈ task.changedSections
  · rw [PendingChunkLightUpdates.mergeOlder, lookup_union_left hmem] at hlookup
    obtain ⟨change, hchange, htells, hlast⟩ := h section_ empty hlookup
    refine ⟨change, mem_append_left _ hchange, htells, fun other hother empty' htells' => ?_⟩
    rcases mem_append.1 hother with hother | hother
    · exact hlast other hother empty' htells'
    · exact (hnewer change hchange other hother chunkPos section_ empty empty' htells htells').le
  · rw [PendingChunkLightUpdates.mergeOlder, lookup_union_right hmem] at hlookup
    obtain ⟨change, hchange, htells, hlast⟩ := h' section_ empty hlookup
    refine ⟨change, mem_append_right _ hchange, htells, fun other hother empty' htells' => ?_⟩
    rcases mem_append.1 hother with hother | hother
    · exact absurd ((hcarries.sections section_).2 ⟨other, hother, empty', htells'⟩) hmem
    · exact hlast other hother empty' htells'

omit [DecidableEq β] [DecidableEq σ] in
/-- Only the changes for the chunk matter. -/
theorem Carries.congr (h : Carries changes chunkPos task)
    (hiff : ∀ change, change.chunkPos = chunkPos → (change ∈ changes' ↔ change ∈ changes)) :
    Carries changes' chunkPos task := by
  constructor
  · intro pos
    rw [h.positions]
    exact exists_congr fun change => and_congr_left fun hchecks => (hiff change hchecks.1).symm
  · intro section_
    rw [h.sections]
    refine exists_congr fun change => and_congr_left ?_
    rintro ⟨empty, htells⟩
    exact (hiff change htells.1).symm

omit [DecidableEq β] in
theorem Latest.congr (h : Latest changes chunkPos task)
    (hiff : ∀ change, change.chunkPos = chunkPos → (change ∈ changes' ↔ change ∈ changes)) :
    Latest changes' chunkPos task := by
  intro section_ empty hlookup
  obtain ⟨change, hchange, htells, hlast⟩ := h section_ empty hlookup
  refine ⟨change, (hiff change htells.1).2 hchange, htells, fun other hother empty' htells' => ?_⟩
  exact hlast other ((hiff other htells'.1).1 hother) empty' htells'

/-- A change for a chunk is recorded in its task. -/
theorem Carries.record (h : Carries changes chunkPos task) (index : ℕ) (pos : β) (checkBlock : Bool)
    (emptySectionChange : Option (σ × Bool)) :
    Carries (changes ++ [⟨index, chunkPos, pos, checkBlock, emptySectionChange⟩]) chunkPos
      (task.record pos checkBlock emptySectionChange) := by
  constructor
  · intro pos'
    rw [exists_mem_append_iff, ← h.positions]
    simp only [PendingChunkLightUpdates.record, mem_singleton, exists_eq_left,
      LightChange.Checks, true_and]
    cases checkBlock with
    | true =>
      rw [if_pos rfl, Finset.mem_insert, or_comm, and_iff_right rfl, eq_comm]
    | false =>
      exact (or_iff_left fun hchecks => Bool.false_ne_true hchecks.1).symm
  · intro section_
    rw [exists_mem_append_iff, ← h.sections]
    simp only [PendingChunkLightUpdates.record, mem_singleton, exists_eq_left,
      LightChange.Tells, true_and]
    cases emptySectionChange with
    | none => simp
    | some entry =>
      obtain ⟨section', empty⟩ := entry
      simp only [mem_insert, Option.some_inj, Prod.mk.injEq, exists_eq_right']
      rw [or_comm, eq_comm (a := section_)]

theorem Latest.record (h : Latest changes chunkPos task) {index : ℕ}
    (hindex : ∀ change ∈ changes, change.index < index) (pos : β) (checkBlock : Bool)
    (emptySectionChange : Option (σ × Bool)) :
    Latest (changes ++ [⟨index, chunkPos, pos, checkBlock, emptySectionChange⟩]) chunkPos
      (task.record pos checkBlock emptySectionChange) := by
  intro section_ empty hlookup
  by_cases hsection : ∃ empty', emptySectionChange = some (section_, empty')
  · obtain ⟨empty', rfl⟩ := hsection
    simp only [PendingChunkLightUpdates.record, lookup_insert, Option.some_inj] at hlookup
    subst hlookup
    refine ⟨_, mem_append_right _ (mem_singleton_self _), ⟨rfl, rfl⟩, ?_⟩
    intro other hother _ _
    rcases mem_append.1 hother with hother | hother
    · exact (hindex other hother).le
    · rw [mem_singleton.1 hother]
  · have hsame : (task.record pos checkBlock emptySectionChange).changedSections.lookup section_ =
        task.changedSections.lookup section_ := by
      cases emptySectionChange with
      | none => rfl
      | some entry =>
        refine lookup_insert_ne fun heq => hsection ⟨entry.2, ?_⟩
        rw [heq]
    rw [hsame] at hlookup
    obtain ⟨change, hchange, htells, hlast⟩ := h section_ empty hlookup
    refine ⟨change, mem_append_left _ hchange, htells, fun other hother empty' htells' => ?_⟩
    rcases mem_append.1 hother with hother | hother
    · exact hlast other hother empty' htells'
    · rw [mem_singleton.1 hother] at htells'
      exact absurd ⟨empty', htells'.2⟩ hsection

end Tasks

/-- A drained task whose changes are all its own. -/
structure DrainedTask.Own (drained : DrainedTask β σ) : Prop where
  carries : Carries drained.changes drained.chunkPos drained.task
  chunkPos : ∀ change ∈ drained.changes, change.chunkPos = drained.chunkPos

namespace LightUpdateRun

variable {run run' : LightUpdateRun β σ}
  {allowed : LightUpdateRun β σ → List (DrainedTask β σ) → Prop}

variable {changes : List (LightChange β σ)} {chunkPos : ChunkPos} {change : LightChange β σ}

omit [DecidableEq β] [DecidableEq σ] in
theorem mem_filter_of_eq
    (h : change.chunkPos = chunkPos) :
    change ∈ changes.filter (fun change => change.chunkPos = chunkPos) ↔ change ∈ changes := by
  rw [mem_filter, decide_eq_true_eq, and_iff_left h]

section PutBack

variable {changes : List (LightChange β σ)} {chunkPos : ChunkPos}
  {pending : PendingLightUpdates β σ} {drained : DrainedTask β σ}

omit [DecidableEq β] [DecidableEq σ] in
theorem mem_append_iff_of_own (h : drained.Own) (hne : chunkPos ≠ drained.chunkPos)
    (change : LightChange β σ) (hchange : change.chunkPos = chunkPos) :
    change ∈ changes ++ drained.changes ↔ change ∈ changes := by
  rw [mem_append]
  exact or_iff_left fun hmem => hne (hchange.symm.trans (h.chunkPos change hmem))

theorem carries_putBack (h : Carries changes chunkPos (pending.task chunkPos))
    (hdrained : drained.Own) :
    Carries (changes ++ drained.changes) chunkPos
      ((pending.putBack drained.entry).task chunkPos) := by
  rw [task_putBack]
  split_ifs with heq
  · exact h.mergeOlder (heq ▸ hdrained.carries)
  · exact h.congr (mem_append_iff_of_own hdrained heq)

theorem latest_putBack (hcarries : Carries changes chunkPos (pending.task chunkPos))
    (h : Latest changes chunkPos (pending.task chunkPos)) (hdrained : drained.Own)
    (hlatest : Latest drained.changes drained.chunkPos drained.task)
    (hnewer : NewerThan changes drained.changes) :
    Latest (changes ++ drained.changes) chunkPos
      ((pending.putBack drained.entry).task chunkPos) := by
  rw [task_putBack]
  split_ifs with heq
  · exact Latest.mergeOlder hcarries h (heq ▸ hlatest) hnewer
  · exact h.congr (mem_append_iff_of_own hdrained heq)

section

variable {tasks : List (DrainedTask β σ)} (htasks : ∀ drained ∈ tasks, drained.Own)

include htasks

theorem carries_foldl_putBack (h : Carries changes chunkPos (pending.task chunkPos)) :
    Carries (changes ++ tasks.flatMap DrainedTask.changes) chunkPos
      (((tasks.map DrainedTask.entry).foldl PendingLightUpdates.putBack pending).task
        chunkPos) := by
  induction tasks generalizing changes pending with
  | nil => rwa [flatMap_nil, append_nil]
  | cons first tasks ih =>
    obtain ⟨hfirst, hrest⟩ := forall_mem_cons.1 htasks
    rw [flatMap_cons, ← append_assoc]
    exact ih hrest (carries_putBack h hfirst)

theorem latest_foldl_putBack
    (hlatest : ∀ drained ∈ tasks, Latest drained.changes drained.chunkPos drained.task)
    (hcarries : Carries changes chunkPos (pending.task chunkPos))
    (h : Latest changes chunkPos (pending.task chunkPos))
    (hnewer : (changes :: tasks.map DrainedTask.changes).Pairwise NewerThan) :
    Latest (changes ++ tasks.flatMap DrainedTask.changes) chunkPos
      (((tasks.map DrainedTask.entry).foldl PendingLightUpdates.putBack pending).task
        chunkPos) := by
  induction tasks generalizing changes pending with
  | nil => rwa [flatMap_nil, append_nil]
  | cons first tasks ih =>
    obtain ⟨hfirst, hrest⟩ := forall_mem_cons.1 htasks
    obtain ⟨hlatest', hlatest⟩ := forall_mem_cons.1 hlatest
    rw [map_cons, pairwise_cons, forall_mem_cons, pairwise_cons] at hnewer
    obtain ⟨⟨hhead, hchanges⟩, hfirst', htail⟩ := hnewer
    rw [flatMap_cons, ← append_assoc]
    refine ih hrest hlatest (carries_putBack hcarries hfirst)
      (latest_putBack hcarries h hfirst hlatest' hhead) (pairwise_cons.2 ⟨?_, htail⟩)
    intro older holder change hchange
    rcases mem_append.1 hchange with hchange | hchange
    · exact hchanges older holder change hchange
    · exact hfirst' older holder change hchange

end

end PutBack

/-- Every change that was queued is pending, drained or finished, and each task holds its own. -/
structure Accounted (run : LightUpdateRun β σ) : Prop where
  listed : run.pending.Listed
  carries : ∀ chunkPos, Carries run.changes chunkPos (run.pending.task chunkPos)
  drained : ∀ drained ∈ run.drained, drained.Own
  perm : run.queued.Perm
    (run.changes ++ run.drained.flatMap DrainedTask.changes ++ run.finished)
  numbered : run.queued.map LightChange.index = List.range run.queued.length

/-- The values of all tasks are those that were queued last. -/
structure LatestKept (run : LightUpdateRun β σ) : Prop where
  pending : ∀ chunkPos, Latest run.changes chunkPos (run.pending.task chunkPos)
  drained : ∀ drained ∈ run.drained, Latest drained.changes drained.chunkPos drained.task

omit [DecidableEq β] [DecidableEq σ] in
theorem Accounted.index_lt (h : run.Accounted)
    (hchange : change ∈ run.changes) : change.index < run.queued.length := by
  rw [← mem_range, ← h.numbered]
  exact mem_map_of_mem (h.perm.mem_iff.2 (mem_append_left _ (mem_append_left _ hchange)))

omit [DecidableEq β] [DecidableEq σ] in
theorem mem_append_singleton_iff
    (hne : chunkPos ≠ change.chunkPos) (other : LightChange β σ)
    (hother : other.chunkPos = chunkPos) : other ∈ changes ++ [change] ↔ other ∈ changes := by
  rw [mem_append, mem_singleton]
  exact or_iff_left fun heq => hne (heq ▸ hother.symm)

omit [DecidableEq β] [DecidableEq σ] in
/-- The changes for some chunks are moved to their tasks. -/
theorem perm_filter_append_flatMap (changes : List (LightChange β σ)) {chunks : List ChunkPos}
    (h : chunks.Nodup) :
    (changes.filter (fun change => change.chunkPos ∉ chunks) ++ chunks.flatMap fun chunkPos =>
      changes.filter fun change => change.chunkPos = chunkPos).Perm changes := by
  induction chunks with
  | nil => simp
  | cons first chunks ih =>
    obtain ⟨hfirst, hchunks⟩ := nodup_cons.1 h
    refine List.Perm.trans ?_ (ih hchunks)
    rw [flatMap_cons, ← append_assoc]
    refine append_right _ ?_
    have hsplit := filter_append_perm (fun change => decide (change.chunkPos ≠ first))
      (changes.filter fun change => change.chunkPos ∉ chunks)
    refine List.Perm.trans (.of_eq ?_) hsplit
    rw [filter_filter, filter_filter]
    congr 1
    · refine filter_congr fun change _ => ?_
      simp [mem_cons, not_or]
    · refine filter_congr fun change _ => ?_
      by_cases heq : change.chunkPos = first
      · simp [heq, hfirst]
      · simp [heq]

omit [DecidableEq β] [DecidableEq σ] in
theorem own_of_carries
    {task : PendingChunkLightUpdates β σ} (h : Carries changes chunkPos task) :
    DrainedTask.Own ⟨chunkPos, task, changes.filter fun change => change.chunkPos = chunkPos⟩ := by
  constructor
  · exact h.congr fun change => mem_filter_of_eq
  · exact fun change hchange => of_decide_eq_true (mem_filter.1 hchange).2

omit [DecidableEq β] [DecidableEq σ] in
/-- What draining makes of the pending tasks. -/
theorem drained_eq (h : run.pending.Listed) :
    run.pending.drain.1.map Prod.fst = run.pending.queuedChunks ∧
    (run.pending.drain.1.map fun entry => (⟨entry.1, entry.2,
        run.changes.filter fun change => change.chunkPos = entry.1⟩ : DrainedTask β σ)) =
      run.pending.queuedChunks.map fun chunkPos => ⟨chunkPos, run.pending.task chunkPos,
        run.changes.filter fun change => change.chunkPos = chunkPos⟩ := by
  rw [h.drain_eq, map_map, map_map]
  exact ⟨map_id _, rfl⟩

theorem Step.accounted (hstep : Step allowed run run') (h : run.Accounted) : run'.Accounted := by
  cases hstep with
  | queue chunkPos pos checkBlock emptySectionChange =>
    constructor
    · exact h.listed.queueChange chunkPos pos checkBlock emptySectionChange
    · intro other
      rw [task_queueChange]
      split_ifs with heq
      · subst heq
        exact (h.carries other).record _ pos checkBlock emptySectionChange
      · exact (h.carries other).congr (mem_append_singleton_iff heq)
    · exact h.drained
    · refine (h.perm.append_right _).trans ?_
      simp only [append_assoc]
      refine append_left _ ?_
      rw [← append_assoc]
      exact perm_append_comm
    · rw [map_append, h.numbered, length_append, length_singleton, range_succ]
      rfl
  | drain =>
    obtain ⟨hkeys, htasks⟩ := drained_eq h.listed
    rw [hkeys, htasks]
    constructor
    · exact ⟨nodup_nil, fun _ => iff_of_false not_mem_nil (notMem_empty _)⟩
    · intro chunkPos
      by_cases hmem : chunkPos ∈ run.pending.queuedChunks
      · refine carries_default.congr fun change hchange => ?_
        simp [hchange, hmem]
      · have hcarries := h.carries chunkPos
        rw [task_of_notMem (mt (h.listed.mem_iff chunkPos).2 hmem)] at hcarries
        refine hcarries.congr fun change hchange => ?_
        simp [hchange, hmem]
    · exact forall_mem_append.2 ⟨h.drained, forall_mem_map.2 fun chunkPos _ =>
        own_of_carries (h.carries chunkPos)⟩
    · refine h.perm.trans (append_right _ ?_)
      rw [flatMap_append, flatMap_map]
      refine ((perm_filter_append_flatMap run.changes h.listed.nodup).symm.append_right _).trans ?_
      rw [append_assoc]
      exact append_left _ perm_append_comm
    · exact h.numbered
  | drainCenter chunkPos task htask =>
    obtain ⟨rfl, hlisted, htasks⟩ := h.listed.drainCenter htask
    constructor
    · exact hlisted
    · intro other
      rw [htasks]
      split_ifs with heq
      · refine carries_default.congr fun change hchange => ?_
        simp [hchange, heq]
      · refine (h.carries other).congr fun change hchange => ?_
        simp [hchange, heq]
    · exact forall_mem_append.2 ⟨h.drained, forall_mem_singleton.2
        (own_of_carries (h.carries chunkPos))⟩
    · refine h.perm.trans (append_right _ ?_)
      have hsplit := perm_filter_append_flatMap run.changes (nodup_singleton chunkPos)
      simp only [mem_singleton, flatMap_cons, flatMap_nil, append_nil] at hsplit
      rw [flatMap_append, flatMap_cons, flatMap_nil, append_nil]
      refine (hsplit.symm.append_right _).trans ?_
      rw [append_assoc]
      exact append_left _ perm_append_comm
    · exact h.numbered
  | prepend tasks rest hdrained hallowed =>
    have hown := fun drained hd => h.drained drained (hdrained.mem_iff.2 hd)
    constructor
    · exact h.listed.prependDrained _
    · intro chunkPos
      exact carries_foldl_putBack (fun drained hd => hown drained (mem_append_left _ hd))
        (h.carries chunkPos)
    · exact fun drained hd => hown drained (mem_append_right _ hd)
    · refine h.perm.trans (append_right _ ?_)
      rw [append_assoc, ← flatMap_append]
      exact append_left _ (hdrained.flatMap_right _)
    · exact h.numbered
  | finish task rest hdrained =>
    constructor
    · exact h.listed
    · exact h.carries
    · exact fun drained hd => h.drained drained (hdrained.mem_iff.2 (mem_cons_of_mem _ hd))
    · have hchanges : (run.drained.flatMap DrainedTask.changes).Perm
          (task.changes ++ rest.flatMap DrainedTask.changes) := hdrained.flatMap_right _
      refine h.perm.trans (((hchanges.append_left _).append_right _).trans ?_)
      simp only [append_assoc]
      refine append_left _ ?_
      rw [← append_assoc (rest.flatMap DrainedTask.changes)]
      exact perm_append_comm
    · exact h.numbered

omit [DecidableEq β] in
theorem latest_default (changes : List (LightChange β σ)) (chunkPos : ChunkPos) :
    Latest changes chunkPos (.default : PendingChunkLightUpdates β σ) := by
  intro section_ empty hlookup
  cases hlookup

theorem Step.latestKept (hstep : Step NewestFirst run run') (ha : run.Accounted)
    (h : run.LatestKept) : run'.LatestKept := by
  cases hstep with
  | queue chunkPos pos checkBlock emptySectionChange =>
    constructor
    · intro other
      rw [task_queueChange]
      split_ifs with heq
      · subst heq
        exact (h.pending other).record (fun _ => ha.index_lt) pos checkBlock emptySectionChange
      · exact (h.pending other).congr (mem_append_singleton_iff heq)
    · exact h.drained
  | drain =>
    rw [(drained_eq ha.listed).2]
    constructor
    · exact fun chunkPos => latest_default _ chunkPos
    · exact forall_mem_append.2 ⟨h.drained, forall_mem_map.2 fun chunkPos _ =>
        (h.pending chunkPos).congr fun change => mem_filter_of_eq⟩
  | drainCenter chunkPos task htask =>
    obtain ⟨rfl, -, htasks⟩ := ha.listed.drainCenter htask
    constructor
    · intro other
      rw [htasks]
      split_ifs with heq
      · exact latest_default _ other
      · refine (h.pending other).congr fun change hchange => ?_
        simp [hchange, heq]
    · exact forall_mem_append.2 ⟨h.drained, forall_mem_singleton.2
        ((h.pending chunkPos).congr fun change => mem_filter_of_eq)⟩
  | prepend tasks rest hdrained hallowed =>
    constructor
    · intro chunkPos
      exact latest_foldl_putBack
        (fun drained hd => ha.drained drained (hdrained.mem_iff.2 (mem_append_left _ hd)))
        (fun drained hd => h.drained drained (hdrained.mem_iff.2 (mem_append_left _ hd)))
        (ha.carries chunkPos) (h.pending chunkPos) hallowed
    · exact fun drained hd => h.drained drained (hdrained.mem_iff.2 (mem_append_right _ hd))
  | finish task rest hdrained =>
    constructor
    · exact h.pending
    · exact fun drained hd => h.drained drained (hdrained.mem_iff.2 (mem_cons_of_mem _ hd))

omit [DecidableEq β] [DecidableEq σ] in
theorem accounted_start : (start : LightUpdateRun β σ).Accounted := by
  constructor
  · exact ⟨nodup_nil, fun _ => iff_of_false not_mem_nil (notMem_empty _)⟩
  · exact fun _ => carries_default
  · exact fun _ hdrained => absurd hdrained not_mem_nil
  · exact .nil
  · rfl

theorem Reachable.accounted (h : Reachable allowed run) : run.Accounted := by
  induction h with
  | start => exact accounted_start
  | step h hstep ih => exact hstep.accounted ih

theorem Reachable.latestKept (h : Reachable NewestFirst run) : run.LatestKept := by
  induction h with
  | start =>
    constructor
    · exact fun chunkPos => latest_default _ chunkPos
    · exact fun _ hdrained => absurd hdrained not_mem_nil
  | step h hstep ih => exact hstep.latestKept h.accounted ih

omit [DecidableEq β] [DecidableEq σ] in
theorem Accounted.nodup (h : run.Accounted) : run.queued.Nodup :=
  .of_map _ (h.numbered ▸ nodup_range)

omit [DecidableEq β] [DecidableEq σ] in
/-- A change is with a task, pending or drained, as long as it is not finished. -/
theorem Accounted.unfinished_iff (h : run.Accounted) (change : LightChange β σ) :
    (change ∈ run.changes ∨ ∃ drained ∈ run.drained, change ∈ drained.changes) ↔
      change ∈ run.queued ∧ change ∉ run.finished := by
  rw [← mem_flatMap, ← mem_append]
  have hnodup := h.perm.nodup_iff.1 h.nodup
  constructor
  · intro hmem
    exact ⟨h.perm.mem_iff.2 (mem_append_left _ hmem), disjoint_of_nodup_append hnodup hmem⟩
  · rintro ⟨hqueued, hfinished⟩
    exact (mem_append.1 (h.perm.mem_iff.1 hqueued)).resolve_right hfinished

omit [DecidableEq β] [DecidableEq σ] in
/-- What the tasks hold together is what the unfinished changes ask for. -/
theorem Accounted.holds_iff (h : run.Accounted) {P : PendingChunkLightUpdates β σ → Prop}
    {asks : LightChange β σ → Prop}
    (hasks : ∀ change, asks change → change.chunkPos = chunkPos)
    (hP : ∀ changes task, Carries changes chunkPos task →
      (P task ↔ ∃ change ∈ changes, asks change)) :
    (P (run.pending.task chunkPos) ∨
      ∃ drained ∈ run.drained, drained.chunkPos = chunkPos ∧ P drained.task) ↔
    ∃ change ∈ run.queued, change ∉ run.finished ∧ asks change := by
  constructor
  · rintro (hpending | ⟨drained, hdrained, rfl, htask⟩)
    · obtain ⟨change, hmem, hchange⟩ := (hP _ _ (h.carries chunkPos)).1 hpending
      obtain ⟨hqueued, hfinished⟩ := (h.unfinished_iff change).1 (.inl hmem)
      exact ⟨change, hqueued, hfinished, hchange⟩
    · obtain ⟨change, hmem, hchange⟩ := (hP _ _ (h.drained drained hdrained).carries).1 htask
      obtain ⟨hqueued, hfinished⟩ := (h.unfinished_iff change).1 (.inr ⟨drained, hdrained, hmem⟩)
      exact ⟨change, hqueued, hfinished, hchange⟩
  · rintro ⟨change, hqueued, hfinished, hchange⟩
    rcases (h.unfinished_iff change).2 ⟨hqueued, hfinished⟩ with hmem | ⟨drained, hdrained, hmem⟩
    · exact .inl ((hP _ _ (h.carries chunkPos)).2 ⟨change, hmem, hchange⟩)
    · have hchunk : drained.chunkPos = chunkPos :=
        ((h.drained drained hdrained).chunkPos change hmem).symm.trans (hasks change hchange)
      subst hchunk
      exact .inr ⟨drained, hdrained, rfl,
        (hP _ _ (h.drained drained hdrained).carries).2 ⟨change, hmem, hchange⟩⟩

/-- In every run the queue lists the chunks with tasks once, and puts those first whose tasks are
put back. Pending and drained tasks hold exactly what the unfinished changes ask for. A next centre
is found if there is one. If tasks are put back newest first, then every task has the emptiness of
a section that was queued last among its changes. -/
theorem Reachable.conserves (hrun : Reachable (fun _ _ => True) run) : run.pending.Listed ∧
    (∀ chunkPos pos, (pos ∈ (run.pending.task chunkPos).changedPositions ∨
        ∃ drained ∈ run.drained, drained.chunkPos = chunkPos ∧
          pos ∈ drained.task.changedPositions) ↔
      ∃ change ∈ run.queued, change ∉ run.finished ∧ change.Checks chunkPos pos) ∧
    (∀ chunkPos section_, (section_ ∈ (run.pending.task chunkPos).changedSections ∨
        ∃ drained ∈ run.drained, drained.chunkPos = chunkPos ∧
          section_ ∈ drained.task.changedSections) ↔
      ∃ change ∈ run.queued, change ∉ run.finished ∧
        ∃ empty, change.Tells chunkPos section_ empty) ∧
    (∀ tasks, ∃ front : List ChunkPos, (run.pending.prependDrained tasks).queuedChunks =
        front ++ run.pending.queuedChunks.filter (· ∉ front) ∧
      ∀ chunkPos, chunkPos ∈ front ↔
        ∃ entry ∈ tasks, entry.1 = chunkPos ∧ entry.2.isEmpty = false) ∧
    (run.pending.nextCenter = none → ∀ chunkPos, chunkPos ∉ run.pending.chunks) ∧
    (∀ chunkPos, run.pending.nextCenterTouchingChunk chunkPos = none →
      ∀ center ∈ run.pending.chunks, lightUpdateWindowContains center chunkPos = false) ∧
    (Reachable NewestFirst run → run.LatestKept) := by
  have h := hrun.accounted
  refine ⟨h.listed, ?_, ?_, fun tasks => exists_prependDrained_eq tasks,
    ?_, ?_, fun hnewest => hnewest.latestKept⟩
  · intro chunkPos pos
    exact h.holds_iff (P := fun task => pos ∈ task.changedPositions)
      (fun _ hchecks => hchecks.1) fun _ _ hcarries => hcarries.positions pos
  · intro chunkPos section_
    exact h.holds_iff (P := fun task => section_ ∈ task.changedSections)
      (fun _ htells => htells.choose_spec.1) fun _ _ hcarries => hcarries.sections section_
  · intro hnone chunkPos hmem
    have hqueued := List.find?_eq_none.1 hnone chunkPos ((h.listed.mem_iff chunkPos).2 hmem)
    exact hqueued (decide_eq_true hmem)
  · exact fun chunkPos hnone => h.listed.find_eq_none.1 hnone

/-- Changes of two chunks are queued, and their tasks are drained. -/
def twoDrained : LightUpdateRun ℕ ℕ :=
  let near : LightChange ℕ ℕ := ⟨0, ⟨0, 0⟩, 0, true, some (0, true)⟩
  let far : LightChange ℕ ℕ := ⟨1, ⟨9, 0⟩, 1, true, none⟩
  ⟨.empty, [near, far], [],
    [⟨⟨0, 0⟩, PendingChunkLightUpdates.default.record 0 true (some (0, true)), [near]⟩,
      ⟨⟨9, 0⟩, PendingChunkLightUpdates.default.record 1 true none, [far]⟩], []⟩

theorem reachable_twoDrained {allowed : LightUpdateRun ℕ ℕ → List (DrainedTask ℕ ℕ) → Prop} :
    Reachable allowed twoDrained :=
  ((Reachable.start.step (.queue _ ⟨0, 0⟩ 0 true (some (0, true)))).step
    (.queue _ ⟨9, 0⟩ 1 true none)).step (.drain _)

theorem Reachable.conserves_twoDrained :
    let run := twoDrained
    run.pending.Listed ∧
    (1 ∈ (run.pending.task ⟨9, 0⟩).changedPositions ∨
      ∃ drained ∈ run.drained, drained.chunkPos = ⟨9, 0⟩ ∧ 1 ∈ drained.task.changedPositions) ∧
    (0 ∈ (run.pending.task ⟨0, 0⟩).changedSections ∨
      ∃ drained ∈ run.drained, drained.chunkPos = ⟨0, 0⟩ ∧ 0 ∈ drained.task.changedSections) ∧
    (∃ front, (run.pending.prependDrained (run.drained.map DrainedTask.entry)).queuedChunks =
        front ++ run.pending.queuedChunks.filter (· ∉ front)) ∧
    (∀ chunkPos, chunkPos ∉ run.pending.chunks) ∧ run.LatestKept := by
  intro run
  obtain ⟨hlisted, hpositions, hsections, hprepended, hnone, -, hlatest⟩ :=
    @Reachable.conserves _ _ _ _ run reachable_twoDrained
  refine ⟨hlisted, (hpositions _ _).2 ?_, (hsections _ _).2 ?_, (hprepended _).imp fun _ h => h.1,
    hnone rfl, hlatest reachable_twoDrained⟩
  · exact ⟨_, mem_cons_of_mem _ mem_cons_self, not_mem_nil, rfl, rfl, rfl⟩
  · exact ⟨_, mem_cons_self, not_mem_nil, true, rfl, rfl⟩

/-- A section is queued as empty, drained, queued as not empty and drained again, and the tasks are
put back in this order. -/
def putBackOldestFirst : LightUpdateRun ℕ ℕ :=
  let empty : DrainedTask ℕ ℕ :=
    ⟨⟨0, 0⟩, PendingChunkLightUpdates.default.record 0 true (some (0, true)),
      [⟨0, ⟨0, 0⟩, 0, true, some (0, true)⟩]⟩
  let filled : DrainedTask ℕ ℕ :=
    ⟨⟨0, 0⟩, PendingChunkLightUpdates.default.record 0 true (some (0, false)),
      [⟨1, ⟨0, 0⟩, 0, true, some (0, false)⟩]⟩
  ⟨PendingLightUpdates.empty.prependDrained [empty.entry, filled.entry],
    empty.changes ++ filled.changes, empty.changes ++ filled.changes, [], []⟩

theorem reachable_putBackOldestFirst : Reachable (fun _ _ => True) putBackOldestFirst := by
  have h := ((((Reachable.start : Reachable (fun (_ : LightUpdateRun ℕ ℕ) _ => True) _).step
    (.queue _ ⟨0, 0⟩ 0 true (some (0, true)))).step (.drain _)).step
    (.queue _ ⟨0, 0⟩ 0 true (some (0, false)))).step (.drain _)
  exact h.step (.prepend _ _ [] (by rw [append_nil]) trivial)

theorem reachable_not_latestKept :
    ¬ ∀ run : LightUpdateRun ℕ ℕ, Reachable (fun _ _ => True) run → run.LatestKept := by
  intro hlatest
  have hkept := (hlatest _ reachable_putBackOldestFirst).pending ⟨0, 0⟩ 0 true (by decide)
  obtain ⟨change, hchange, htells, hlast⟩ := hkept
  have hindex := hlast ⟨1, ⟨0, 0⟩, 0, true, some (0, false)⟩
    (mem_cons_of_mem _ mem_cons_self) false ⟨rfl, rfl⟩
  rcases mem_cons.1 hchange with rfl | hchange
  · exact absurd hindex (by decide)
  · rw [mem_singleton.1 hchange] at htells
    exact absurd htells.2 (by decide)

end LightUpdateRun

end Steel
