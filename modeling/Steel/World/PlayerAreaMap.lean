import Steel.Chunk.PlayerChunkView
import Steel.Lib.Run

/-! # The area index of players

The index maps chunks to the players whose view contains them. Its operations consist of operations
on single keys of two concurrent maps, and those of different players interleave.
-/

namespace Steel

open PlayerChunkView Set

open Function (update_of_ne update)
open List (map_cons replicate mem_cons foldl_cons foldl_nil)

structure PlayerAreaMap where
  chunks : ChunkCoords → Option (Finset ℤ)
  playerChunks : ℤ → Option (Finset ChunkCoords)

namespace PlayerAreaMap

def new : PlayerAreaMap := ⟨fun _ => none, fun _ => none⟩

variable (map : PlayerAreaMap)

def getTrackingPlayers (chunk : ChunkCoords) : Finset ℤ :=
  (map.chunks chunk).getD ∅

/-- An order in which a set may be iterated. -/
structure SetIteration where
  order : Finset ChunkCoords → List ChunkCoords
  nodup : ∀ set, (order set).Nodup
  mem_order : ∀ set chunk, chunk ∈ order set ↔ chunk ∈ set

/-- An operation on one key of one of the maps. -/
inductive MapOperation where
  /-- The update of `add_to_chunk` -/
  | addUpdate (chunk : ChunkCoords)
  /-- Its insertion, which does nothing when the key is taken. -/
  | addInsert (chunk : ChunkCoords)
  /-- The update of `remove_from_chunk` -/
  | removeUpdate (chunk : ChunkCoords)
  | removeIfEmpty (chunk : ChunkCoords)
  | insertPlayer (set : Finset ChunkCoords)
  | updatePlayer (added removed : List ChunkCoords)
  /-- Takes the set of a player out, whose chunks come in some order. -/
  | removePlayer (iteration : SetIteration)

/-- The maps after an operation of a player, and the operations that follow from it. -/
def apply (entityId : ℤ) : MapOperation → PlayerAreaMap × List MapOperation
  | .addUpdate chunk =>
    match map.chunks chunk with
    | some set =>
      ({ map with chunks := update map.chunks chunk (some (insert entityId set)) }, [])
    | none => (map, [.addInsert chunk])
  | .addInsert chunk =>
    match map.chunks chunk with
    | some _ => (map, [])
    | none => ({ map with chunks := update map.chunks chunk (some {entityId}) }, [])
  | .removeUpdate chunk =>
    match map.chunks chunk with
    | some set =>
      let set := set.erase entityId
      ({ map with chunks := update map.chunks chunk (some set) },
        if set = ∅ then [.removeIfEmpty chunk] else [])
    | none => (map, [])
  | .removeIfEmpty chunk =>
    if map.chunks chunk = some ∅ then
      ({ map with chunks := update map.chunks chunk none }, [])
    else (map, [])
  | .insertPlayer set =>
    match map.playerChunks entityId with
    | some _ => (map, [])
    | none =>
      ({ map with playerChunks := update map.playerChunks entityId (some set) }, [])
  | .updatePlayer added removed =>
    ({ map with
      playerChunks := update map.playerChunks entityId
        ((map.playerChunks entityId).map fun set =>
          added.foldl (fun set chunk => insert chunk set) (removed.foldl Finset.erase set)) }, [])
  | .removePlayer iteration =>
    match map.playerChunks entityId with
    | some set =>
      ({ map with playerChunks := update map.playerChunks entityId none },
        (iteration.order set).map .removeUpdate)
    | none => (map, [])

def onPlayerJoin (view : PlayerChunkView) : List MapOperation :=
  view.chunks.map .addUpdate ++ [.insertPlayer view.chunks.toFinset]

def onPlayerViewChange (addedChunks removedChunks : List ChunkCoords) : List MapOperation :=
  if addedChunks.isEmpty && removedChunks.isEmpty then []
  else
    removedChunks.map .removeUpdate ++ addedChunks.map .addUpdate ++
      [.updatePlayer addedChunks removedChunks]

def removeByEntityId (iteration : SetIteration) : List MapOperation := [.removePlayer iteration]

/-- The maps, what is left of the operation of each player, and the views of the players that have
joined. -/
structure Concurrent where
  map : PlayerAreaMap
  pending : ℤ → List MapOperation
  views : ℤ → Option PlayerChunkView

namespace Concurrent

def initial : Concurrent := ⟨.new, fun _ => [], fun _ => none⟩

inductive Action where
  | join (entityId : ℤ) (view : PlayerChunkView)
  | changeView (entityId : ℤ) (view : PlayerChunkView)
  | remove (entityId : ℤ) (iteration : SetIteration)
  /-- The next operation on a map. -/
  | run (entityId : ℤ)

def start (state : Concurrent) (entityId : ℤ) (operations : List MapOperation)
    (view : Option PlayerChunkView) : Concurrent :=
  { state with
    pending := update state.pending entityId operations
    views := update state.views entityId view }

def step (state : Concurrent) : Action → Concurrent
  | .join entityId view => state.start entityId (onPlayerJoin view) (some view)
  | .changeView entityId view =>
    match state.views entityId with
    | some old =>
      let (added, removed) := difference old view
      state.start entityId (onPlayerViewChange added removed) (some view)
    | none => state
  | .remove entityId iteration => state.start entityId (removeByEntityId iteration) none
  | .run entityId =>
    match state.pending entityId with
    | [] => state
    | operation :: operations =>
      let (map, next) := state.map.apply entityId operation
      { state with
        map := map
        pending := update state.pending entityId (next ++ operations) }

/-- The operations of one player follow one another, and a player joins once. -/
def Allowed (state : Concurrent) : Action → Prop
  | .join entityId _ => state.pending entityId = [] ∧ state.views entityId = none
  | .changeView entityId _ => state.pending entityId = []
  | .remove entityId _ => state.pending entityId = []
  | .run _ => True

/-- The insertion of an addition finds its key free: nobody else has inserted it since the update
has not found it. -/
def FindsFree (state : Concurrent) : Action → Prop
  | .run entityId => ∀ chunk operations,
    state.pending entityId = .addInsert chunk :: operations → state.map.chunks chunk = none
  | _ => True

instance (state : Concurrent) (action : Action) : Decidable (state.Allowed action) :=
  match action with
  | .join entityId _ =>
    decidable_of_iff ((state.pending entityId).isEmpty ∧ state.views entityId = none)
      (by simp [Allowed])
  | .changeView entityId _ =>
    decidable_of_iff (state.pending entityId).isEmpty (by simp [Allowed])
  | .remove entityId _ => decidable_of_iff (state.pending entityId).isEmpty (by simp [Allowed])
  | .run _ => .isTrue trivial

def nextInsert : List MapOperation → Option ChunkCoords
  | .addInsert chunk :: _ => some chunk
  | _ => none

variable {chunk : ChunkCoords} {operations : List MapOperation}

theorem nextInsert_eq_some :
    nextInsert operations = some chunk ↔ ∃ rest, operations = .addInsert chunk :: rest := by
  constructor
  · intro h
    rcases operations with _ | ⟨_ | _ | _ | _ | _ | _ | _, rest⟩ <;> cases h
    exact ⟨rest, rfl⟩
  · rintro ⟨rest, rfl⟩
    rfl

instance (state : Concurrent) (action : Action) : Decidable (state.FindsFree action) :=
  match action with
  | .run entityId =>
    decidable_of_iff (∀ chunk ∈ nextInsert (state.pending entityId), state.map.chunks chunk = none)
      (by simp only [Option.mem_def, nextInsert_eq_some, forall_exists_index, FindsFree])
  | .join _ _ | .changeView _ _ | .remove _ _ => .isTrue trivial

/-- The chunks of a player as the index has them, by chunk and by player. -/
structure Entry where
  chunks : Set ChunkCoords
  playerChunks : Option (Finset ChunkCoords)

@[ext] theorem Entry.ext {entry entry' : Entry}
    (hchunks : ∀ chunk, chunk ∈ entry.chunks ↔ chunk ∈ entry'.chunks)
    (hplayer : entry.playerChunks = entry'.playerChunks) : entry = entry' := by
  obtain ⟨chunks, playerChunks⟩ := entry
  obtain ⟨chunks', playerChunks'⟩ := entry'
  obtain rfl : chunks = chunks' := Set.ext hchunks
  obtain rfl : playerChunks = playerChunks' := hplayer
  rfl

def entry (entityId : ℤ) : Entry where
  chunks := {chunk | entityId ∈ map.getTrackingPlayers chunk}
  playerChunks := map.playerChunks entityId

/-- The effect of an operation on the entry of its player when nobody interferes. -/
def effect (entry : Entry) : MapOperation → Entry
  | .addUpdate chunk | .addInsert chunk => { entry with chunks := insert chunk entry.chunks }
  | .removeUpdate chunk => { entry with chunks := entry.chunks \ {chunk} }
  | .removeIfEmpty _ => entry
  | .insertPlayer set => { entry with playerChunks := some (entry.playerChunks.getD set) }
  | .updatePlayer added removed =>
    { entry with
      playerChunks := entry.playerChunks.map fun set =>
        added.foldl (fun set chunk => insert chunk set) (removed.foldl Finset.erase set) }
  | .removePlayer _ =>
    { chunks := entry.chunks \ {chunk | ∃ set, entry.playerChunks = some set ∧ chunk ∈ set}
      playerChunks := none }

def effects (entry : Entry) (operations : List MapOperation) : Entry :=
  operations.foldl effect entry

def expected : Option PlayerChunkView → Entry
  | none => ⟨∅, none⟩
  | some view => ⟨{chunk | view.contains chunk}, some view.chunks.toFinset⟩

theorem effects_append (entry : Entry) (operations operations' : List MapOperation) :
    effects entry (operations ++ operations') = effects (effects entry operations) operations' :=
  List.foldl_append

theorem effects_removes (entry : Entry) (chunks : List ChunkCoords) :
    effects entry (chunks.map .removeUpdate) =
      { entry with chunks := entry.chunks \ {chunk | chunk ∈ chunks} } := by
  induction chunks generalizing entry with
  | nil => simp [effects]
  | cons chunk chunks ih =>
    rw [map_cons, effects, foldl_cons, ← effects, ih]
    ext other
    · simp only [effect, mem_sdiff, mem_singleton_iff, mem_ofPred_eq, mem_cons]
      tauto
    · rfl

theorem effects_adds (entry : Entry) (chunks : List ChunkCoords) :
    effects entry (chunks.map .addUpdate) =
      { entry with chunks := entry.chunks ∪ {chunk | chunk ∈ chunks} } := by
  induction chunks generalizing entry with
  | nil => simp [effects]
  | cons chunk chunks ih =>
    rw [map_cons, effects, foldl_cons, ← effects, ih]
    ext other
    · simp only [effect, mem_union, mem_insert_iff, mem_ofPred_eq, mem_cons]
      tauto
    · rfl

variable {map : PlayerAreaMap}

theorem mem_entry_update {entityId : ℤ} {chunk chunk' : ChunkCoords} {set : Option (Finset ℤ)} :
    chunk' ∈ (entry { map with chunks := update map.chunks chunk set } entityId).chunks ↔
      (chunk' = chunk ∧ entityId ∈ set.getD ∅) ∨
        (chunk' ≠ chunk ∧ chunk' ∈ (entry map entityId).chunks) := by
  change entityId ∈ (update map.chunks chunk set chunk').getD ∅ ↔ _
  by_cases h : chunk' = chunk
  · subst h
    simp
  · simp only [update_of_ne h, h, false_and, false_or, ne_eq, not_false_eq_true, true_and]
    rfl

theorem mem_entry {entityId : ℤ} :
    chunk ∈ (entry map entityId).chunks ↔ entityId ∈ (map.chunks chunk).getD ∅ := Iff.rfl

theorem entry_apply_of_ne {entityId entityId' : ℤ} (hne : entityId' ≠ entityId)
    (operation : MapOperation) :
    entry (map.apply entityId operation).1 entityId' = entry map entityId' := by
  cases operation with
  | addUpdate chunk =>
    rw [apply]
    cases hset : map.chunks chunk with
    | none => rfl
    | some set =>
      ext chunk' : 1
      · rw [mem_entry_update]
        by_cases h : chunk' = chunk
        · subst h
          simp [mem_entry, hset, hne]
        · simp [h]
      · rfl
  | addInsert chunk =>
    rw [apply]
    cases hset : map.chunks chunk with
    | none =>
      ext chunk' : 1
      · rw [mem_entry_update]
        by_cases h : chunk' = chunk
        · subst h
          simp [mem_entry, hset, hne]
        · simp [h]
      · rfl
    | some set => rfl
  | removeUpdate chunk =>
    rw [apply]
    cases hset : map.chunks chunk with
    | none => rfl
    | some set =>
      ext chunk' : 1
      · rw [mem_entry_update]
        by_cases h : chunk' = chunk
        · subst h
          simp [mem_entry, hset, hne]
        · simp [h]
      · rfl
  | removeIfEmpty chunk =>
    rw [apply]
    split_ifs with hset
    · ext chunk' : 1
      · rw [mem_entry_update]
        by_cases h : chunk' = chunk
        · subst h
          simp [mem_entry, hset]
        · simp [h]
      · rfl
    · rfl
  | insertPlayer set =>
    rw [apply]
    cases map.playerChunks entityId with
    | none =>
      ext chunk : 1
      · rfl
      · exact update_of_ne hne _ _
    | some set => rfl
  | updatePlayer added removed =>
    ext chunk : 1
    · rfl
    · exact update_of_ne hne _ _
  | removePlayer iteration =>
    rw [apply]
    cases map.playerChunks entityId with
    | none => rfl
    | some set =>
      ext chunk : 1
      · rfl
      · exact update_of_ne hne _ _

/-- An operation has its effect, together with the operations that follow from it. -/
theorem effects_apply {entityId : ℤ} (operation : MapOperation)
    (hfree : ∀ chunk, operation = .addInsert chunk → map.chunks chunk = none) :
    effects (entry (map.apply entityId operation).1 entityId) (map.apply entityId operation).2 =
      effect (entry map entityId) operation := by
  cases operation with
  | addUpdate chunk =>
    rw [apply]
    cases hset : map.chunks chunk with
    | none => rfl
    | some set =>
      ext chunk' : 1
      · simp only [effects, foldl_nil, effect, mem_insert_iff]
        rw [mem_entry_update]
        by_cases h : chunk' = chunk
        · simp [h]
        · simp [h]
      · rfl
  | addInsert chunk =>
    rw [apply, hfree chunk rfl]
    ext chunk' : 1
    · simp only [effects, foldl_nil, effect, mem_insert_iff]
      rw [mem_entry_update]
      by_cases h : chunk' = chunk
      · simp [h]
      · simp [h]
    · rfl
  | removeUpdate chunk =>
    rw [apply]
    cases hset : map.chunks chunk with
    | none =>
      ext chunk' : 1
      · simp only [effects, foldl_nil, effect, mem_sdiff, mem_singleton_iff]
        constructor
        · intro h
          refine ⟨h, ?_⟩
          rintro rfl
          simp [mem_entry, hset] at h
        · exact fun h => h.1
      · rfl
    | some set =>
      have heffects : ∀ entry : Entry, effects entry
          (if set.erase entityId = ∅ then [.removeIfEmpty chunk] else []) = entry := by
        intro entry
        split_ifs <;> rfl
      simp only [heffects]
      ext chunk' : 1
      · simp only [effect, mem_sdiff, mem_singleton_iff]
        rw [mem_entry_update]
        by_cases h : chunk' = chunk
        · simp [h]
        · simp [h]
      · rfl
  | removeIfEmpty chunk =>
    rw [apply]
    split_ifs with hset
    · ext chunk' : 1
      · simp only [effects, foldl_nil, effect]
        rw [mem_entry_update]
        by_cases h : chunk' = chunk
        · subst h
          simp [mem_entry, hset]
        · simp [h]
      · rfl
    · rfl
  | insertPlayer set =>
    rw [apply]
    cases hset : map.playerChunks entityId with
    | none =>
      ext chunk : 1
      · rfl
      · simp [effects, effect, entry, hset]
    | some set' =>
      ext chunk : 1
      · rfl
      · simp [effects, effect, entry, hset]
  | updatePlayer added removed =>
    ext chunk : 1
    · rfl
    · simp [apply, effects, effect, entry]
  | removePlayer iteration =>
    rw [apply]
    cases hset : map.playerChunks entityId with
    | none =>
      ext chunk : 1
      · simp [effects, effect, entry, hset]
      · simpa [effects, effect, entry] using hset
    | some set =>
      simp only [effects_removes]
      ext chunk : 1
      · simp only [effect, entry, hset, Option.some.injEq, exists_eq_left', iteration.mem_order,
          mem_sdiff, mem_ofPred_eq]
        rfl
      · simp [effect, entry]

theorem eq_empty_of_apply {entityId : ℤ} {operation : MapOperation}
    (h : (map.apply entityId operation).1.chunks chunk = some ∅) :
    (map.chunks chunk = some ∅ ∧ operation ≠ .removeIfEmpty chunk) ∨
      (map.apply entityId operation).2 = [.removeIfEmpty chunk] := by
  have hupdate : ∀ {chunk' : ChunkCoords} {set : Option (Finset ℤ)},
      update map.chunks chunk' set chunk = some ∅ →
        (chunk = chunk' ∧ set = some ∅) ∨ (chunk ≠ chunk' ∧ map.chunks chunk = some ∅) := by
    intro chunk' set hset
    by_cases heq : chunk = chunk'
    · subst heq
      exact Or.inl ⟨rfl, by simpa using hset⟩
    · exact Or.inr ⟨heq, by simpa [heq] using hset⟩
  cases operation with
  | addUpdate chunk' =>
    rw [apply] at h
    cases hset : map.chunks chunk' with
    | none =>
      rw [hset] at h
      exact Or.inl ⟨h, by rintro ⟨⟩⟩
    | some set =>
      rw [hset] at h
      rcases hupdate h with ⟨-, hinsert⟩ | ⟨-, h⟩
      · simp at hinsert
      · exact Or.inl ⟨h, by rintro ⟨⟩⟩
  | addInsert chunk' =>
    rw [apply] at h
    cases hset : map.chunks chunk' with
    | none =>
      rw [hset] at h
      rcases hupdate h with ⟨-, hinsert⟩ | ⟨-, h⟩
      · simp at hinsert
      · exact Or.inl ⟨h, by rintro ⟨⟩⟩
    | some set =>
      rw [hset] at h
      exact Or.inl ⟨h, by rintro ⟨⟩⟩
  | removeUpdate chunk' =>
    rw [apply] at h ⊢
    cases hset : map.chunks chunk' with
    | none =>
      rw [hset] at h
      exact Or.inl ⟨h, by rintro ⟨⟩⟩
    | some set =>
      rw [hset] at h
      rcases hupdate h with ⟨rfl, herase⟩ | ⟨-, h⟩
      · exact Or.inr (if_pos (Option.some.inj herase))
      · exact Or.inl ⟨h, by rintro ⟨⟩⟩
  | removeIfEmpty chunk' =>
    rw [apply] at h
    split_ifs at h with hset
    · rcases hupdate h with ⟨-, hnone⟩ | ⟨hne, h⟩
      · cases hnone
      · exact Or.inl ⟨h, by rintro ⟨⟩; exact hne rfl⟩
    · exact Or.inl ⟨h, by rintro ⟨⟩; exact hset h⟩
  | insertPlayer set =>
    rw [apply] at h
    cases hset : map.playerChunks entityId <;> rw [hset] at h <;> exact Or.inl ⟨h, by rintro ⟨⟩⟩
  | updatePlayer added removed => exact Or.inl ⟨h, by rintro ⟨⟩⟩
  | removePlayer iteration =>
    rw [apply] at h
    cases hset : map.playerChunks entityId <;> rw [hset] at h <;> exact Or.inl ⟨h, by rintro ⟨⟩⟩

theorem effects_onPlayerJoin (view : PlayerChunkView) :
    effects (expected none) (onPlayerJoin view) = expected (some view) := by
  rw [onPlayerJoin, effects_append, effects_adds]
  ext chunk : 1
  · simp [effects, expected, effect, mem_chunks]
  · rfl

theorem mem_foldl_insert (added : List ChunkCoords) :
    ∀ set : Finset ChunkCoords,
      chunk ∈ added.foldl (fun set chunk => insert chunk set) set ↔
        chunk ∈ added ∨ chunk ∈ set := by
  induction added with
  | nil => simp
  | cons first added ih =>
    intro set
    rw [foldl_cons, ih, Finset.mem_insert, mem_cons]
    tauto

theorem mem_foldl_erase (removed : List ChunkCoords) :
    ∀ set : Finset ChunkCoords,
      chunk ∈ removed.foldl Finset.erase set ↔ chunk ∉ removed ∧ chunk ∈ set := by
  induction removed with
  | nil => simp
  | cons first removed ih =>
    intro set
    rw [foldl_cons, ih, Finset.mem_erase, mem_cons]
    tauto

theorem effects_onPlayerViewChange (old view : PlayerChunkView) :
    effects (expected (some old)) (onPlayerViewChange (difference old view).1
      (difference old view).2) = expected (some view) := by
  have hadded := fun pos => (@PlayerChunkView.mem_difference pos old view).1
  have hremoved := fun pos => (@PlayerChunkView.mem_difference pos old view).2
  generalize (difference old view).1 = added at hadded ⊢
  generalize (difference old view).2 = removed at hremoved ⊢
  have hview : ∀ pos, view.contains pos ↔ pos ∈ added ∨ (pos ∉ removed ∧ old.contains pos) := by
    intro pos
    rw [hadded, hremoved]
    tauto
  unfold onPlayerViewChange
  split_ifs with hempty
  · simp only [Bool.and_eq_true, List.isEmpty_iff] at hempty
    have hsame : ∀ pos, view.contains pos ↔ old.contains pos := by
      simp [hview, hempty]
    ext pos : 1
    · exact (hsame pos).symm
    · simp only [effects, foldl_nil, expected, Option.some.injEq]
      ext pos
      simp [mem_chunks, hsame]
  · rw [effects_append, effects_append, effects_removes, effects_adds]
    ext pos : 1
    · simp only [effects, effect, expected, foldl_cons, foldl_nil, mem_union, mem_sdiff,
        mem_ofPred_eq, hview]
      tauto
    · simp only [effects, effect, expected, foldl_cons, foldl_nil, Option.map_some,
        Option.some.injEq]
      ext pos
      simp [mem_foldl_insert, mem_foldl_erase, mem_chunks, hview]

theorem effects_removeByEntityId (view : Option PlayerChunkView) (iteration : SetIteration) :
    effects (expected view) (removeByEntityId iteration) = expected none := by
  cases view with
  | none =>
    ext chunk : 1
    · simp [removeByEntityId, effects, effect, expected]
    · rfl
  | some view =>
    ext chunk : 1
    · simp [removeByEntityId, effects, effect, expected, mem_chunks]
    · rfl

/-- The index and what is left to do are the views, and empty sets are about to be removed. -/
structure Invariant (state : Concurrent) : Prop where
  entries : ∀ entityId,
    effects (entry state.map entityId) (state.pending entityId) = expected (state.views entityId)
  emptied : ∀ chunk, state.map.chunks chunk = some ∅ → ∃ entityId operations,
    state.pending entityId = .removeIfEmpty chunk :: operations

theorem initial_invariant : Invariant initial where
  entries entityId := by
    ext chunk : 1
    · simp [initial, entry, effects, expected, getTrackingPlayers, new]
    · rfl
  emptied := by
    rintro chunk ⟨⟩

section

variable {state : Concurrent} (hi : Invariant state)

include hi

theorem Invariant.start {entityId : ℤ}
    {view : Option PlayerChunkView} (hidle : state.pending entityId = [])
    (heffects : effects (expected (state.views entityId)) operations = expected view) :
    Invariant (state.start entityId operations view) where
  entries := by
    intro entityId'
    by_cases h : entityId' = entityId
    · subst h
      have hentry := hi.entries entityId'
      rw [hidle] at hentry
      simp only [Concurrent.start, Function.update_self]
      rw [← heffects, ← hentry]
      rfl
    · simp only [Concurrent.start, update_of_ne h]
      exact hi.entries entityId'
  emptied := by
    intro chunk hempty
    obtain ⟨entityId', operations', hpending⟩ := hi.emptied chunk hempty
    have hne : entityId' ≠ entityId := by
      rintro rfl
      rw [hidle] at hpending
      cases hpending
    exact ⟨entityId', operations', (update_of_ne hne _ _).trans hpending⟩

theorem Invariant.run {entityId : ℤ} (hfree : state.FindsFree (.run entityId)) :
    Invariant (state.step (.run entityId)) := by
  rw [step]
  cases hpending : state.pending entityId with
  | nil => exact hi
  | cons operation operations =>
    constructor
    · intro entityId'
      by_cases h : entityId' = entityId
      · subst h
        have hentry := hi.entries entityId'
        have happly := @effects_apply state.map entityId' operation fun chunk hinsert =>
          hfree chunk operations (hinsert ▸ hpending)
        rw [hpending, effects, foldl_cons, ← happly, ← effects] at hentry
        rw [← hentry]
        simp [effects]
      · simp only [update_of_ne h]
        rw [entry_apply_of_ne h]
        exact hi.entries entityId'
    · intro chunk hempty
      rcases eq_empty_of_apply hempty with ⟨hempty, hne⟩ | hnext
      · obtain ⟨entityId', operations', hpending'⟩ := hi.emptied chunk hempty
        have hother : entityId' ≠ entityId := by
          rintro rfl
          rw [hpending] at hpending'
          exact hne (List.cons.inj hpending').1
        exact ⟨entityId', operations', (update_of_ne hother _ _).trans hpending'⟩
      · refine ⟨entityId, operations, ?_⟩
        simp [hnext]

theorem Invariant.step {action : Action} (hallowed : state.Allowed action)
    (hfree : state.FindsFree action) :
    Invariant (state.step action) := by
  cases action with
  | join entityId view =>
    refine hi.start hallowed.1 ?_
    rw [hallowed.2]
    exact effects_onPlayerJoin view
  | changeView entityId view =>
    rw [Concurrent.step]
    cases hview : state.views entityId with
    | none => exact hi
    | some old =>
      refine hi.start hallowed ?_
      rw [hview]
      exact effects_onPlayerViewChange old view
  | remove entityId iteration =>
    exact hi.start hallowed (effects_removeByEntityId _ iteration)
  | run entityId => exact hi.run hfree

end

/-- When every insertion finds its key free, the index is exactly the views as soon as nothing is
left to do, and holds no empty set. -/
theorem run_getTrackingPlayers {actions : List Action}
    (h : Guarded step (fun state action => state.Allowed action ∧ state.FindsFree action) initial
      actions) (hidle : ∀ entityId, (runSteps step initial actions).pending entityId = []) :
    (∀ chunk entityId, entityId ∈ (runSteps step initial actions).map.getTrackingPlayers chunk ↔
        ∃ view, (runSteps step initial actions).views entityId = some view ∧ view.contains chunk) ∧
      ∀ chunk, (runSteps step initial actions).map.chunks chunk ≠ some ∅ := by
  have hi : Invariant (runSteps step initial actions) :=
    h.invariant (fun state action hi hguard => hi.step hguard.1 hguard.2) initial_invariant
  generalize runSteps step initial actions = state at hi hidle ⊢
  constructor
  · intro chunk entityId
    have hentry := congrArg (fun entry => chunk ∈ entry.chunks) (hi.entries entityId)
    rw [hidle] at hentry
    cases hview : state.views entityId with
    | none => simpa [effects, expected, hview, entry] using hentry
    | some view => simpa [effects, expected, hview, entry] using hentry
  · intro chunk hempty
    obtain ⟨entityId, operations, hpending⟩ := hi.emptied chunk hempty
    rw [hidle] at hpending
    cases hpending

def Action.entityId : Action → ℤ
  | .join entityId _ | .changeView entityId _ | .remove entityId _ | .run entityId => entityId

theorem pending_step_of_ne (state : Concurrent) {action : Action} {entityId : ℤ}
    (h : action.entityId ≠ entityId) :
    (state.step action).pending entityId = state.pending entityId := by
  cases action with
  | join entityId' view => exact update_of_ne h.symm _ _
  | changeView entityId' view =>
    rw [step]
    cases state.views entityId' with
    | none => rfl
    | some old => exact update_of_ne h.symm _ _
  | remove entityId' iteration => exact update_of_ne h.symm _ _
  | run entityId' =>
    rw [step]
    cases state.pending entityId' with
    | nil => rfl
    | cons operation operations => exact update_of_ne h.symm _ _

theorem pending_runSteps_of_ne {actions : List Action} {entityId : ℤ}
    (h : ∀ action ∈ actions, action.entityId ≠ entityId) (state : Concurrent) :
    (runSteps step state actions).pending entityId = state.pending entityId := by
  induction actions generalizing state with
  | nil => rfl
  | cons action actions ih =>
    rw [runSteps_cons, ih fun other hother => h other (List.mem_cons_of_mem _ hother)]
    exact state.pending_step_of_ne (h action List.mem_cons_self)

def sampleView : PlayerChunkView := ⟨(0, 0), 1⟩

/-- Neither of two players finds the first chunk, and then both insert it. -/
def collision : List Action :=
  [.join 1 sampleView, .join 2 sampleView, .run 1, .run 2, .run 1, .run 2] ++
    replicate 49 (.run 1) ++ replicate 25 (.run 2)

theorem idle_of_two {actions : List Action}
    (h : ∀ action ∈ actions, action.entityId = 1 ∨ action.entityId = 2)
    (h₁ : ((runSteps step initial actions).pending 1).isEmpty)
    (h₂ : ((runSteps step initial actions).pending 2).isEmpty) (entityId : ℤ) :
    (runSteps step initial actions).pending entityId = [] := by
  by_cases hfirst : entityId = 1
  · subst hfirst
    exact List.isEmpty_iff.1 h₁
  · by_cases hsecond : entityId = 2
    · subst hsecond
      exact List.isEmpty_iff.1 h₂
    · refine pending_runSteps_of_ne (fun action haction => ?_) initial
      have hactor := h action haction
      omega

/-- The second player has joined, but the first chunk of its view does not have it. -/
theorem collision_loses : Guarded step Allowed initial collision ∧
      (∀ entityId, (runSteps step initial collision).pending entityId = []) ∧
      (runSteps step initial collision).views 2 = some sampleView ∧
      sampleView.contains (-2, -2) ∧
      2 ∉ (runSteps step initial collision).map.getTrackingPlayers (-2, -2) :=
  ⟨by decide +kernel, idle_of_two (by decide +kernel) (by decide +kernel) (by decide +kernel),
    by decide +kernel, by decide, by decide +kernel⟩

/-- The second player starts when the first one has inserted its first chunk. -/
def interleaved : List Action :=
  [.join 1 sampleView, .join 2 sampleView, .run 1, .run 1, .run 2] ++
    replicate 60 (.run 1) ++ replicate 60 (.run 2)

theorem interleaved_getTrackingPlayers :
    (∀ chunk entityId,
      entityId ∈ (runSteps step initial interleaved).map.getTrackingPlayers chunk ↔
      ∃ view, (runSteps step initial interleaved).views entityId = some view ∧
        view.contains chunk) ∧
      ∀ chunk, (runSteps step initial interleaved).map.chunks chunk ≠ some ∅ :=
  run_getTrackingPlayers (by decide +kernel)
    (idle_of_two (by decide +kernel) (by decide +kernel) (by decide +kernel))

end Concurrent

end PlayerAreaMap

end Steel
