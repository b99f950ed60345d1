import Steel.World.TickScheduler

/-! # The deadline index

Each deadline set consists of the heads of the active chunks. Every change of
a single record and of the sets together keeps this, so that the assertions on
the sets hold.
-/

namespace Steel

open Function SortedSet Option List

theorem deadline_inj {t t' : ℤ} {pos pos' : ChunkPos} :
    deadline t pos = deadline t' pos' ↔ t = t' ∧ pos = pos' := by
  constructor
  · intro h
    have hpair : (t, pos.asRaw) = (t', pos'.asRaw) := toLex.injective h
    exact ⟨congrArg Prod.fst hpair, ChunkPos.asRaw_injective (congrArg Prod.snd hpair)⟩
  · rintro ⟨rfl, rfl⟩
    rfl

def headEntry (active : Bool) (pos : ChunkPos) (head : Option ℤ) : Option (ℤ ×ₗ ℤ) :=
  if active then head.map fun t => deadline t pos else none

variable {head : Option ℤ} {e : ℤ ×ₗ ℤ}

theorem headEntry_eq_some {active : Bool} {pos : ChunkPos} :
    headEntry active pos head = some e ↔
      active = true ∧ ∃ t, head = some t ∧ e = deadline t pos := by
  unfold headEntry
  cases active with
  | false => simp
  | true => simp [eq_comm]

/-- Whether the chunk belongs to the current active snapshot. -/
def RegisteredChunkTicks.isActive (registered : RegisteredChunkTicks) (generation : ℕ) : Bool :=
  (registered.activeRank generation).isSome

def indexEntry (generation : ℕ) (kind : TickKind) (pos : ChunkPos) :
    Option RegisteredChunkTicks → Option (ℤ ×ₗ ℤ)
  | none => none
  | some registered => headEntry (registered.isActive generation) pos (registered.heads kind)

theorem indexEntry_pos {generation : ℕ} {kind : TickKind} {pos pos' : ChunkPos}
    {o o' : Option RegisteredChunkTicks} (h : indexEntry generation kind pos o = some e)
    (h' : indexEntry generation kind pos' o' = some e) : pos = pos' := by
  cases o with
  | none => cases h
  | some r =>
    cases o' with
    | none => cases h'
    | some r' =>
      obtain ⟨-, t, -, rfl⟩ := headEntry_eq_some.mp h
      obtain ⟨-, t', -, ht⟩ := headEntry_eq_some.mp h'
      exact (deadline_inj.mp ht).2

def IndexedBy (generation : ℕ) (kind : TickKind) (chunks : ChunkPos → Option RegisteredChunkTicks)
    (deadlines : Deadlines) : Prop :=
  ∀ e, e ∈ deadlines ↔ ∃ pos, indexEntry generation kind pos (chunks pos) = some e

def WorldTickSchedulerState.Indexed (st : WorldTickSchedulerState) : Prop :=
  ∀ kind, IndexedBy st.activeGeneration kind st.chunks (st.activeDeadlines kind)

section Update

variable {generation : ℕ} {kind : TickKind} {chunks : ChunkPos → Option RegisteredChunkTicks}
variable {deadlines deadlines' : Deadlines} {pos : ChunkPos} {o : Option RegisteredChunkTicks}

theorem IndexedBy.update (h : IndexedBy generation kind chunks deadlines)
    (hmem : ∀ e, e ∈ deadlines' ↔
      (e ∈ deadlines ∧ indexEntry generation kind pos (chunks pos) ≠ some e) ∨
        indexEntry generation kind pos o = some e) :
    IndexedBy generation kind (Function.update chunks pos o) deadlines' := by
  intro e
  rw [hmem]
  constructor
  · rintro (⟨he, hne⟩ | he)
    · obtain ⟨p, hp⟩ := (h e).mp he
      refine ⟨p, ?_⟩
      rw [update_of_ne]
      · exact hp
      · rintro rfl
        exact hne hp
    · exact ⟨pos, by rwa [update_self]⟩
  · rintro ⟨p, hp⟩
    by_cases hpos : p = pos
    · subst hpos
      rw [update_self] at hp
      exact Or.inr hp
    · rw [update_of_ne hpos] at hp
      refine Or.inl ⟨(h e).mpr ⟨p, hp⟩, ?_⟩
      intro hpos'
      exact hpos (indexEntry_pos hp hpos')

/-- A record without deadline may be exchanged for another one without deadline. -/
theorem IndexedBy.update_of_none (h : IndexedBy generation kind chunks deadlines)
    (hold : indexEntry generation kind pos (chunks pos) = none)
    (hnew : indexEntry generation kind pos o = none) :
    IndexedBy generation kind (Function.update chunks pos o) deadlines := by
  apply h.update
  simp [hold, hnew]

variable {active : Bool} {head : Option ℤ}

theorem removeHead_spec (h : ∀ e, headEntry active pos head = some e → e ∈ deadlines) :
    ∃ deadlines', deadlines.removeHead active pos head = some deadlines' ∧
      ∀ e, e ∈ deadlines' ↔ e ∈ deadlines ∧ headEntry active pos head ≠ some e := by
  cases head with
  | none => exact ⟨deadlines, rfl, by simp [headEntry]⟩
  | some t =>
    cases active with
    | false => exact ⟨deadlines, rfl, by simp [headEntry]⟩
    | true =>
      have hmem : deadline t pos ∈ deadlines := h _ rfl
      refine ⟨deadlines.erase (deadline t pos), by simp [Deadlines.removeHead, hmem], ?_⟩
      intro e
      rw [mem_erase, and_comm]
      simp [headEntry, eq_comm]

theorem insertHead_spec (h : ∀ e, headEntry active pos head = some e → ¬ e ∈ deadlines) :
    ∃ deadlines', deadlines.insertHead active pos head = some deadlines' ∧
      ∀ e, e ∈ deadlines' ↔ e ∈ deadlines ∨ headEntry active pos head = some e := by
  cases head with
  | none => exact ⟨deadlines, rfl, by simp [headEntry]⟩
  | some t =>
    cases active with
    | false => exact ⟨deadlines, rfl, by simp [headEntry]⟩
    | true =>
      have hmem : ¬ deadline t pos ∈ deadlines := h _ rfl
      refine ⟨deadlines.insert (deadline t pos), by simp [Deadlines.insertHead, hmem], ?_⟩
      intro e
      rw [mem_insert, or_comm]
      simp [headEntry, eq_comm]

end Update

namespace RegisteredChunkTicks

variable (r : RegisteredChunkTicks) (kind : TickKind) (head : Option ℤ)

@[simp] theorem setHead_heads_self : (r.setHead kind head).heads kind = head := by simp [setHead]

theorem setHead_heads_of_ne {kind' : TickKind} (h : kind' ≠ kind) :
    (r.setHead kind head).heads kind' = r.heads kind' := by simp [setHead, h]

@[simp] theorem setHead_container : (r.setHead kind head).container = r.container := rfl

@[simp] theorem setHead_active : (r.setHead kind head).active = r.active := rfl

@[simp] theorem activeRank_setHead (generation : ℕ) :
    (r.setHead kind head).activeRank generation = r.activeRank generation := rfl

theorem setHead_self : r.setHead kind (r.heads kind) = r := by
  simp [setHead]

end RegisteredChunkTicks

open RegisteredChunkTicks (isActive activeRank)

namespace WorldTickSchedulerState

variable {st : WorldTickSchedulerState} {pos : ChunkPos} {r : RegisteredChunkTicks}

theorem indexEntry_setHead_of_ne {generation : ℕ} {kind kind' : TickKind} (h : kind' ≠ kind) :
    indexEntry generation kind' pos (some (r.setHead kind head)) =
      indexEntry generation kind' pos (some r) := by
  simp only [indexEntry, r.setHead_heads_of_ne kind head h]
  rfl

theorem Indexed.replaceHead (h : st.Indexed) (hr : st.chunks pos = some r) {kind : TickKind}
    {deadlines : Deadlines} (hmem : ∀ e, e ∈ deadlines ↔ (e ∈ st.activeDeadlines kind ∧
        headEntry (r.isActive st.activeGeneration) pos (r.heads kind) ≠ some e) ∨
      headEntry (r.isActive st.activeGeneration) pos head = some e) :
    Indexed { st with
      chunks := Function.update st.chunks pos (some (r.setHead kind head))
      activeDeadlines := Function.update st.activeDeadlines kind deadlines } := by
  intro kind'
  by_cases hkind : kind' = kind
  · subst hkind
    simp only [update_self]
    apply (h kind').update
    intro e
    rw [hmem, hr]
    simp [indexEntry, isActive]
  · simp only [update_of_ne hkind]
    apply (h kind').update
    intro e
    rw [indexEntry_setHead_of_ne hkind, hr]
    constructor
    · intro he
      by_cases heq : indexEntry st.activeGeneration kind' pos (some r) = some e
      · exact Or.inr heq
      · exact Or.inl ⟨he, heq⟩
    · rintro (⟨he, -⟩ | he)
      · exact he
      · exact (h kind' e).mpr ⟨pos, by rwa [hr]⟩

theorem Indexed.setHead (h : st.Indexed) (hr : st.chunks pos = some r) (kind : TickKind)
    (head : Option ℤ) :
    ∃ st', st.setHead pos kind head = some (.ok (), st') ∧ st'.Indexed ∧
      st'.activeGeneration = st.activeGeneration ∧
      st'.chunks = Function.update st.chunks pos (some (r.setHead kind head)) := by
  by_cases heq : r.heads kind = head
  · subst heq
    refine ⟨st, by simp [WorldTickSchedulerState.setHead, hr], h, rfl, ?_⟩
    rw [r.setHead_self, ← hr, update_eq_self]
  · have hold : ∀ e, headEntry (r.isActive st.activeGeneration) pos (r.heads kind) = some e →
        e ∈ st.activeDeadlines kind := by
      intro e he
      exact (h kind e).mpr ⟨pos, by rw [hr]; exact he⟩
    obtain ⟨deadlines₁, hremove, hmem₁⟩ := removeHead_spec hold
    have hnew : ∀ e, headEntry (r.isActive st.activeGeneration) pos head = some e →
        ¬ e ∈ deadlines₁ := by
      intro e he hmem
      obtain ⟨hmem, hne⟩ := (hmem₁ e).mp hmem
      obtain ⟨p, hp⟩ := (h kind e).mp hmem
      have hnew' : indexEntry st.activeGeneration kind pos (some (r.setHead kind head)) =
          some e := by
        simpa [indexEntry, isActive] using he
      obtain rfl := indexEntry_pos hp hnew'
      rw [hr] at hp
      exact hne hp
    obtain ⟨deadlines₂, hinsert, hmem₂⟩ := insertHead_spec hnew
    have hmem : ∀ e, e ∈ deadlines₂ ↔ (e ∈ st.activeDeadlines kind ∧
        headEntry (r.isActive st.activeGeneration) pos (r.heads kind) ≠ some e) ∨
        headEntry (r.isActive st.activeGeneration) pos head = some e := by
      intro e
      rw [hmem₂, hmem₁]
    refine ⟨_, ?_, h.replaceHead hr hmem, rfl, rfl⟩
    simp only [isActive] at hremove hinsert
    simp [WorldTickSchedulerState.setHead, hr, if_neg heq, hremove, hinsert]

def IsDue (st : WorldTickSchedulerState) (kind : TickKind) (now : ℤ) (a : ActiveTickContainer) :
    Prop :=
  ∃ r t, st.chunks a.pos = some r ∧ r.activeRank st.activeGeneration = some a.rank ∧
    r.container = a.container ∧ r.heads kind = some t ∧ t ≤ now

def clearHeads (chunks : ChunkPos → Option RegisteredChunkTicks) (kind : TickKind)
    (positions : List ChunkPos) : ChunkPos → Option RegisteredChunkTicks :=
  fun pos => if pos ∈ positions then (chunks pos).map fun r => r.setHead kind none else chunks pos

variable {kind : TickKind} {now : ℤ}

theorem IsDue.mem_deadlines (h : st.Indexed) {a : ActiveTickContainer} (ha : IsDue st kind now a) :
    ∃ t ≤ now, deadline t a.pos ∈ st.activeDeadlines kind := by
  obtain ⟨r, t, hr, hrank, -, ht, hle⟩ := ha
  refine ⟨t, hle, (h kind _).mpr ⟨a.pos, ?_⟩⟩
  rw [hr, indexEntry, headEntry_eq_some]
  exact ⟨by simp [isActive, hrank], t, ht, rfl⟩

theorem Indexed.exists_of_first (h : st.Indexed) (he : (st.activeDeadlines kind).first = some e) :
    ∃ pos r t rank, st.chunks pos = some r ∧ r.activeRank st.activeGeneration = some rank ∧
      r.heads kind = some t ∧ e = deadline t pos := by
  obtain ⟨pos, hpos⟩ := (h kind e).mp (mem_of_first he)
  cases hr : st.chunks pos with
  | none => rw [hr] at hpos; cases hpos
  | some r =>
    rw [hr] at hpos
    obtain ⟨hactive, t, ht, rfl⟩ := headEntry_eq_some.mp hpos
    obtain ⟨rank, hrank⟩ := isSome_iff_exists.mp hactive
    exact ⟨pos, r, t, rank, hr, hrank, ht, rfl⟩

theorem Indexed.popFirst (h : st.Indexed) {t : ℤ} (hr : st.chunks pos = some r)
    (hactive : r.isActive st.activeGeneration = true) (ht : r.heads kind = some t)
    (hfirst : (st.activeDeadlines kind).first = some (deadline t pos)) :
    Indexed { st with
      chunks := Function.update st.chunks pos (some (r.setHead kind none))
      activeDeadlines := Function.update st.activeDeadlines kind
        (st.activeDeadlines kind).popFirst } := by
  apply h.replaceHead hr
  intro e
  rw [mem_popFirst hfirst, hactive, ht]
  simp only [headEntry, if_true, map_some, map_none, ne_eq, Option.some.injEq,
    reduceCtorEq, or_false]
  constructor
  · rintro ⟨hne, he⟩
    exact ⟨he, fun heq => hne heq.symm⟩
  · rintro ⟨he, hne⟩
    exact ⟨fun heq => hne heq.symm, he⟩

/-- What `take_due` returns and leaves behind. -/
structure TakesDue (st : WorldTickSchedulerState) (kind : TickKind) (now : ℤ)
    (due : List ActiveTickContainer) (st' : WorldTickSchedulerState) : Prop where
  indexed : st'.Indexed
  generation : st'.activeGeneration = st.activeGeneration
  mem_iff : ∀ a, a ∈ due ↔ IsDue st kind now a
  nodup : (due.map ActiveTickContainer.pos).Nodup
  chunks : st'.chunks = clearHeads st.chunks kind (due.map ActiveTickContainer.pos)

theorem takesDue_nil (h : st.Indexed) (hnone : ∀ a, ¬ IsDue st kind now a) :
    TakesDue st kind now [] st where
  indexed := h
  generation := rfl
  mem_iff a := by simp [hnone a]
  nodup := nodup_nil
  chunks := by
    funext pos
    simp [clearHeads]

theorem TakesDue.cons {due : List ActiveTickContainer} {st₁ st' : WorldTickSchedulerState} {t : ℤ}
    {rank : ℕ} (hr : st.chunks pos = some r)
    (hrank : r.activeRank st.activeGeneration = some rank) (ht : r.heads kind = some t)
    (hle : t ≤ now) (h : TakesDue st₁ kind now due st')
    (hst₁ : st₁.chunks = Function.update st.chunks pos (some (r.setHead kind none)))
    (hgen : st₁.activeGeneration = st.activeGeneration) :
    TakesDue st kind now (⟨pos, rank, r.container⟩ :: due) st' := by
  have hother : ∀ a, a.pos ≠ pos → (IsDue st₁ kind now a ↔ IsDue st kind now a) := by
    intro a ha
    rw [IsDue, IsDue, hst₁, hgen, update_of_ne ha]
  have hself : ∀ a, IsDue st₁ kind now a → a.pos ≠ pos := by
    rintro a ⟨r', t', hr', -, -, ht', -⟩ rfl
    rw [hst₁, update_self] at hr'
    obtain rfl := Option.some.inj hr'
    simp at ht'
  have hnot : pos ∉ due.map ActiveTickContainer.pos := by
    intro hmem
    obtain ⟨a, ha, hpos⟩ := List.mem_map.mp hmem
    exact hself a ((h.mem_iff a).mp ha) hpos
  refine ⟨h.indexed, h.generation.trans hgen, ?_, ?_, ?_⟩
  · intro a
    rw [mem_cons, h.mem_iff]
    constructor
    · rintro (rfl | ha)
      · exact ⟨r, t, hr, hrank, rfl, ht, hle⟩
      · exact (hother a (hself a ha)).mp ha
    · intro ha
      by_cases hpos : a.pos = pos
      · left
        obtain ⟨r', t', hr', hrank', hc, -, -⟩ := ha
        obtain ⟨apos, arank, ac⟩ := a
        obtain rfl : apos = pos := hpos
        obtain rfl := Option.some.inj (hr.symm.trans hr')
        obtain rfl := Option.some.inj (hrank.symm.trans hrank')
        obtain rfl : r.container = ac := hc
        rfl
      · exact Or.inr ((hother a hpos).mpr ha)
  · rw [map_cons, nodup_cons]
    exact ⟨hnot, h.nodup⟩
  · rw [h.chunks, hst₁]
    funext p
    simp only [clearHeads, map_cons, mem_cons]
    by_cases hp : p = pos
    · subst hp
      simp [hnot, hr]
    · simp [hp]

theorem takeDueLoop_spec (h : st.Indexed) {n : ℕ}
    (hn : (st.activeDeadlines kind).items.length ≤ n) :
    ∃ due st', takeDueLoop kind now n st = some (due, st') ∧ TakesDue st kind now due st' := by
  induction n generalizing st with
  | zero =>
    refine ⟨[], st, rfl, takesDue_nil h ?_⟩
    intro a ha
    obtain ⟨t, -, hmem⟩ := ha.mem_deadlines h
    have hpos := length_pos_of_mem hmem
    omega
  | succ n ih =>
    cases hfirst : (st.activeDeadlines kind).first with
    | none =>
      refine ⟨[], st, by simp only [takeDueLoop, hfirst], takesDue_nil h ?_⟩
      intro a ha
      obtain ⟨t, -, hmem⟩ := ha.mem_deadlines h
      exact first_eq_none.mp hfirst _ hmem
    | some e =>
      obtain ⟨pos, r, t, rank, hr, hrank, ht, rfl⟩ := h.exists_of_first hfirst
      have hsplit : ofLex (deadline t pos) = (t, pos.asRaw) := rfl
      by_cases hlt : now < t
      · refine ⟨[], st, ?_, takesDue_nil h ?_⟩
        · simp only [takeDueLoop, hfirst, hsplit, if_pos hlt]
        · intro a ha
          obtain ⟨t', hle, hmem⟩ := ha.mem_deadlines h
          rcases Prod.Lex.toLex_le_toLex.mp (le_of_first hfirst hmem) with hlt' | ⟨heq, -⟩
          · exact absurd (hlt'.trans_le hle) (not_lt.mpr hlt.le)
          · have heq' : t = t' := heq
            exact absurd hle (not_le.mpr (heq' ▸ hlt))
      · have hactive : r.isActive st.activeGeneration = true := by
          simp [isActive, hrank]
        have h₁ := h.popFirst hr hactive ht hfirst
        obtain ⟨due, st', hloop, hdue⟩ := ih h₁ (by
          have hlen := congrArg List.length (items_of_first hfirst)
          rw [length_cons] at hlen
          simp only [update_self]
          omega)
        refine ⟨⟨pos, rank, r.container⟩ :: due, st', ?_,
          .cons hr hrank ht (not_lt.mp hlt) hdue rfl rfl⟩
        simp [takeDueLoop, hfirst, hsplit, if_neg hlt, ChunkPos.fromRaw_asRaw, hr, ht, hrank, hloop]

theorem takeDue_spec (h : st.Indexed) :
    ∃ due st', st.takeDue kind now = some (due, st') ∧ TakesDue st kind now due st' :=
  takeDueLoop_spec h le_rfl

def setHeads (chunks : ChunkPos → Option RegisteredChunkTicks) (kind : TickKind)
    (positions : List ChunkPos) (head : ChunkPos → Option ℤ) :
    ChunkPos → Option RegisteredChunkTicks :=
  fun pos =>
    if pos ∈ positions then (chunks pos).map fun r => r.setHead kind (head pos) else chunks pos

variable {head : ChunkPos → Option ℤ}

/-- Updates that agree with one value for each position can be applied in any order. -/
theorem applyHeadUpdates_spec (h : st.Indexed) {updates : List TickHeadUpdate}
    (hreg : ∀ u ∈ updates, (st.chunks u.pos).isSome = true)
    (hhead : ∀ u ∈ updates, u.triggerTick = head u.pos) :
    ∃ st', applyHeadUpdates kind updates st = some st' ∧ st'.Indexed ∧
      st'.activeGeneration = st.activeGeneration ∧
      st'.chunks = setHeads st.chunks kind (updates.map TickHeadUpdate.pos) head := by
  induction updates generalizing st with
  | nil =>
    refine ⟨st, rfl, h, rfl, ?_⟩
    funext pos
    simp [setHeads]
  | cons u updates ih =>
    obtain ⟨r, hr⟩ := isSome_iff_exists.mp (hreg u mem_cons_self)
    obtain ⟨st₁, hset, h₁, hgen₁, hchunks₁⟩ := h.setHead hr kind u.triggerTick
    have hreg₁ : ∀ v ∈ updates, (st₁.chunks v.pos).isSome = true := by
      intro v hv
      rw [hchunks₁]
      by_cases hpos : v.pos = u.pos
      · simp [hpos]
      · rw [update_of_ne hpos]
        exact hreg v (mem_cons_of_mem u hv)
    obtain ⟨st₂, happly, h₂, hgen₂, hchunks₂⟩ :=
      ih h₁ hreg₁ fun v hv => hhead v (mem_cons_of_mem u hv)
    refine ⟨st₂, by simp only [applyHeadUpdates, hset, happly], h₂, hgen₂.trans hgen₁, ?_⟩
    rw [hchunks₂]
    funext pos
    simp only [setHeads, map_cons, mem_cons, hchunks₁, hhead u mem_cons_self]
    by_cases hpos : pos = u.pos
    · subst hpos
      simp [hr, RegisteredChunkTicks.setHead]
    · simp [hpos]

theorem setHeads_clearHeads {chunks : ChunkPos → Option RegisteredChunkTicks}
    {positions positions' : List ChunkPos} (h : ∀ pos, pos ∈ positions' ↔ pos ∈ positions) :
    setHeads (clearHeads chunks kind positions) kind positions' head =
      setHeads chunks kind positions head := by
  funext pos
  simp only [setHeads, clearHeads, h]
  split
  · rw [Option.map_map]
    congr 1
    funext r
    simp [RegisteredChunkTicks.setHead]
  · rfl

/-- The chunks become active with the ranks of their positions in the list. -/
def activate (chunks : ChunkPos → Option RegisteredChunkTicks) (generation rank : ℕ)
    (positions : List ChunkPos) : ChunkPos → Option RegisteredChunkTicks :=
  fun pos =>
    if pos ∈ positions then
      (chunks pos).map fun r => { r with active := some ⟨generation, rank + positions.idxOf pos⟩ }
    else chunks pos

theorem activeRank_new (r : RegisteredChunkTicks) (generation rank : ℕ) :
    ({ r with active := some ⟨generation, rank⟩ } : RegisteredChunkTicks).activeRank generation =
      some rank := by
  simp [activeRank]

theorem Indexed.activate (h : st.Indexed) (hr : st.chunks pos = some r) (rank : ℕ)
    (hinactive : r.activeRank st.activeGeneration = none) (kind : TickKind) :
    ∃ deadlines, (st.activeDeadlines kind).insertHead true pos (r.heads kind) = some deadlines ∧
      IndexedBy st.activeGeneration kind (Function.update st.chunks pos
        (some { r with active := some ⟨st.activeGeneration, rank⟩ })) deadlines := by
  have hold : indexEntry st.activeGeneration kind pos (st.chunks pos) = none := by
    simp [hr, indexEntry, headEntry, isActive, hinactive]
  have hnew : indexEntry st.activeGeneration kind pos
      (some { r with active := some ⟨st.activeGeneration, rank⟩ }) =
      headEntry true pos (r.heads kind) := by
    simp [indexEntry, isActive, activeRank_new]
  have hnot : ∀ e, headEntry true pos (r.heads kind) = some e →
      ¬ e ∈ st.activeDeadlines kind := by
    intro e he hmem
    obtain ⟨p, hp⟩ := (h kind e).mp hmem
    obtain rfl := indexEntry_pos hp (hnew.trans he)
    rw [hold] at hp
    cases hp
  obtain ⟨deadlines, hinsert, hmem⟩ := insertHead_spec hnot
  refine ⟨deadlines, hinsert, (h kind).update ?_⟩
  intro e
  rw [hmem, hold, hnew]
  simp

theorem reconcileFrom_spec (h : st.Indexed) {positions : List ChunkPos} (rank : ℕ)
    (hnodup : positions.Nodup) (hreg : ∀ p ∈ positions, ∃ r, st.chunks p = some r ∧
      r.activeRank st.activeGeneration = none) :
    ∃ st', reconcileFrom st.activeGeneration rank positions st = some (.ok (), st') ∧
      st'.Indexed ∧ st'.activeGeneration = st.activeGeneration ∧
      st'.chunks = activate st.chunks st.activeGeneration rank positions := by
  induction positions generalizing st rank with
  | nil =>
    refine ⟨st, rfl, h, rfl, ?_⟩
    funext pos
    simp [WorldTickSchedulerState.activate]
  | cons p positions ih =>
    obtain ⟨hp, hnodup⟩ := nodup_cons.mp hnodup
    obtain ⟨r, hr, hinactive⟩ := hreg p mem_cons_self
    obtain ⟨block, hblock, hindexed⟩ := h.activate hr rank hinactive .block
    obtain ⟨fluid, hfluid, hindexed'⟩ := h.activate hr rank hinactive .fluid
    have h₁ : Indexed { st with
        chunks := Function.update st.chunks p
          (some { r with active := some ⟨st.activeGeneration, rank⟩ })
        activeDeadlines := fun kind => kind.casesOn block fluid } := by
      rintro (_ | _)
      · exact hindexed
      · exact hindexed'
    have hreg₁ : ∀ q ∈ positions, ∃ r', Function.update st.chunks p
        (some { r with active := some ⟨st.activeGeneration, rank⟩ }) q = some r' ∧
          r'.activeRank st.activeGeneration = none := by
      intro q hq
      have hne : q ≠ p := by
        rintro rfl
        exact hp hq
      rw [update_of_ne hne]
      exact hreg q (mem_cons_of_mem p hq)
    obtain ⟨st', hrec, hst', hgen, hchunks⟩ := ih h₁ (rank + 1) hnodup hreg₁
    refine ⟨st', ?_, hst', hgen, ?_⟩
    · simp only [reconcileFrom, hr, hinactive, isSome_none, Bool.false_eq_true, if_false,
        hblock, hfluid, bind_eq_bind, bind_some]
      rw [← hrec]
      congr 2
      funext kind
      cases kind <;> rfl
    · rw [hchunks]
      funext pos
      simp only [WorldTickSchedulerState.activate, mem_cons]
      by_cases hpos : pos = p
      · subst hpos
        simp [hp, hr]
      · have hidx : (p :: positions).idxOf pos = positions.idxOf pos + 1 :=
          idxOf_cons_ne positions (Ne.symm hpos)
        simp only [hpos, false_or, update_of_ne hpos, hidx]
        congr 3
        funext r
        congr 3
        omega

def Bounded (st : WorldTickSchedulerState) : Prop :=
  ∀ pos r a, st.chunks pos = some r → r.active = some a → a.generation ≤ st.activeGeneration

def content (r : RegisteredChunkTicks) : ContainerId × (TickKind → Option ℤ) :=
  (r.container, r.heads)

theorem advanceActiveGeneration_spec (h : st.Bounded) :
    (∀ pos r, st.advanceActiveGeneration.chunks pos = some r →
      r.activeRank st.advanceActiveGeneration.activeGeneration = none) ∧
    st.advanceActiveGeneration.Bounded ∧
    (∀ pos, (st.advanceActiveGeneration.chunks pos).map content = (st.chunks pos).map content) ∧
    st.advanceActiveGeneration.activeDeadlines = st.activeDeadlines := by
  unfold advanceActiveGeneration
  split
  · refine ⟨?_, ?_, fun pos => rfl, rfl⟩
    · intro pos r hr
      unfold activeRank
      split
      case h_1 a ha =>
        have hle := h pos r a hr ha
        exact if_neg (by simp only; omega)
      case h_2 => rfl
    · intro pos r a hr ha
      exact (h pos r a hr ha).trans (Nat.le_succ _)
  · refine ⟨?_, ?_, ?_, rfl⟩
    · intro pos r hr
      obtain ⟨r', -, rfl⟩ := map_eq_some_iff.mp hr
      rfl
    · intro pos r a hr ha
      obtain ⟨r', -, rfl⟩ := map_eq_some_iff.mp hr
      cases ha
    · intro pos
      simp only [Option.map_map]
      rfl

/-- The index is rebuilt from the heads; active chunks are those of the list, in its order. -/
theorem reconcile_spec (h : st.Bounded) {positions : List ChunkPos} (hnodup : positions.Nodup)
    (hreg : ∀ p ∈ positions, (st.chunks p).isSome = true) :
    ∃ st', { st with activeDeadlines := fun _ => .empty }.advanceActiveGeneration.reconcileFrom
        { st with activeDeadlines := fun _ => .empty }.advanceActiveGeneration.activeGeneration
        0 positions = some (.ok (), st') ∧
      st'.Indexed ∧ st'.Bounded ∧
      (∀ pos, (st'.chunks pos).map content = (st.chunks pos).map content) ∧
      ∀ pos r rank, st'.chunks pos = some r → r.activeRank st'.activeGeneration = some rank →
        positions[rank]? = some pos := by
  have hcleared : Bounded { st with activeDeadlines := fun _ => .empty } := h
  obtain ⟨hnone, hbound, hcontent, hdead⟩ := advanceActiveGeneration_spec hcleared
  generalize
    { st with activeDeadlines := fun _ => SortedSet.empty }.advanceActiveGeneration = st₁ at *
  have hindexed : st₁.Indexed := by
    intro kind e
    rw [hdead]
    constructor
    · intro he
      exact absurd he not_mem_empty
    · rintro ⟨pos, hpos⟩
      cases hr : st₁.chunks pos with
      | none => rw [hr] at hpos; cases hpos
      | some r =>
        rw [hr] at hpos
        obtain ⟨hactive, -⟩ := headEntry_eq_some.mp hpos
        simp [isActive, hnone pos r hr] at hactive
  have hreg₁ : ∀ p ∈ positions, ∃ r, st₁.chunks p = some r ∧
      r.activeRank st₁.activeGeneration = none := by
    intro p hp
    have hsome := congrArg Option.isSome (hcontent p)
    rw [isSome_map, isSome_map, hreg p hp] at hsome
    obtain ⟨r, hr⟩ := isSome_iff_exists.mp hsome
    exact ⟨r, hr, hnone p r hr⟩
  obtain ⟨st', hrec, hst', hgen, hchunks⟩ := reconcileFrom_spec hindexed 0 hnodup hreg₁
  refine ⟨st', hrec, hst', ?_, ?_, ?_⟩
  · intro pos r a hr ha
    rw [hchunks] at hr
    rw [hgen]
    by_cases hpos : pos ∈ positions
    · rw [WorldTickSchedulerState.activate, if_pos hpos] at hr
      obtain ⟨r', -, rfl⟩ := map_eq_some_iff.mp hr
      obtain rfl := Option.some.inj ha
      exact le_rfl
    · rw [WorldTickSchedulerState.activate, if_neg hpos] at hr
      exact hbound pos r a hr ha
  · intro pos
    rw [hchunks, ← hcontent pos, WorldTickSchedulerState.activate]
    split
    · simp only [Option.map_map]
      rfl
    · rfl
  · intro pos r rank hr hrank
    rw [hchunks] at hr
    rw [hgen] at hrank
    by_cases hpos : pos ∈ positions
    · rw [WorldTickSchedulerState.activate, if_pos hpos] at hr
      obtain ⟨r', -, rfl⟩ := map_eq_some_iff.mp hr
      rw [activeRank_new, Nat.zero_add] at hrank
      obtain rfl := Option.some.inj hrank
      exact List.getElem?_idxOf hpos
    · rw [WorldTickSchedulerState.activate, if_neg hpos] at hr
      rw [hnone pos r hr] at hrank
      cases hrank

end WorldTickSchedulerState

end Steel
