import Mathlib.Order.Bounds.Basic
import Steel.World.TickCollection
import Steel.World.TickIndex

/-! # Runs of the tick scheduler

The heads of the registered chunks are cached in their records and in the deadline sets.
-/

namespace Steel

open GreedyMerge Function Option RegisteredChunkTicks List WorldTickSchedulerState TickList

variable {T : TickKind → Type}

namespace WorldTickScheduler

@[simp] theorem setContainer_self (s : WorldTickScheduler T) (id : ContainerId)
    (container : ChunkTickContainer T) : (s.setContainer id container).containers id = container :=
  update_self ..

theorem setContainer_of_ne (s : WorldTickScheduler T) {id id' : ContainerId}
    (container : ChunkTickContainer T) (h : id' ≠ id) :
    (s.setContainer id container).containers id' = s.containers id' := update_of_ne h ..

/-- Records and containers describe each other, heads and deadlines are those of the queues, and
ranks are positions in the last active snapshot. -/
structure Inv (s : WorldTickScheduler T) : Prop where
  pos : ∀ pos r, s.state.chunks pos = some r → (s.containers r.container).pos = pos
  lifecycle : ∀ pos r, s.state.chunks pos = some r →
    (s.containers r.container).lifecycle = .registered
  heads : ∀ pos r kind, s.state.chunks pos = some r →
    r.heads kind = ((s.containers r.container).lists kind).head
  owned : ∀ id, (s.containers id).lifecycle = .registered →
    ∃ r, s.state.chunks (s.containers id).pos = some r ∧ r.container = id
  indexed : s.state.Indexed
  bounded : s.state.Bounded
  ranks : ∃ positions : List ChunkPos, ∀ pos r rank, s.state.chunks pos = some r →
    r.activeRank s.state.activeGeneration = some rank → positions[rank]? = some pos

namespace Inv

variable {s s' : WorldTickScheduler T} {pos : ChunkPos} {r : RegisteredChunkTicks}

theorem container_inj (h : Inv s) {pos' : ChunkPos} {r' : RegisteredChunkTicks}
    (hr : s.state.chunks pos = some r) (hr' : s.state.chunks pos' = some r')
    (hid : r.container = r'.container) : pos = pos' := by
  rw [← h.pos pos r hr, ← h.pos pos' r' hr', hid]

variable {id : ContainerId}

/-- A chunk whose container is not the registered one at its position has no record. -/
theorem container_ne (h : Inv s)
    (hid : ∀ r, s.state.chunks (s.containers id).pos = some r → r.container ≠ id)
    (hr : s.state.chunks pos = some r) : r.container ≠ id := by
  rintro rfl
  rw [h.pos pos r hr] at hid
  exact hid r hr rfl

theorem container_ne_of_lifecycle (h : Inv s) (hid : (s.containers id).lifecycle ≠ .registered)
    (hr : s.state.chunks pos = some r) : r.container ≠ id := by
  rintro rfl
  exact hid (h.lifecycle pos r hr)

def owner (r : RegisteredChunkTicks) : ContainerId × Option ActiveChunkRank :=
  (r.container, r.active)

theorem of_same_owner (h : Inv s) (hpos : ∀ id, (s'.containers id).pos = (s.containers id).pos)
    (hlife : ∀ id, (s'.containers id).lifecycle = (s.containers id).lifecycle)
    (howner : ∀ pos, (s'.state.chunks pos).map owner = (s.state.chunks pos).map owner)
    (hgen : s'.state.activeGeneration = s.state.activeGeneration)
    (hheads : ∀ pos r kind, s'.state.chunks pos = some r →
      r.heads kind = ((s'.containers r.container).lists kind).head)
    (hindexed : s'.state.Indexed) : Inv s' := by
  have hold : ∀ pos r, s'.state.chunks pos = some r →
      ∃ r₀, s.state.chunks pos = some r₀ ∧ r₀.container = r.container ∧ r₀.active = r.active := by
    intro pos r hr
    have hmap := howner pos
    rw [hr, map_some, eq_comm, map_eq_some_iff] at hmap
    obtain ⟨r₀, hr₀, heq⟩ := hmap
    exact ⟨r₀, hr₀, congrArg Prod.fst heq, congrArg Prod.snd heq⟩
  constructor
  case pos =>
    intro pos r hr
    obtain ⟨r₀, hr₀, hc, -⟩ := hold pos r hr
    rw [hpos, ← hc]
    exact h.pos pos r₀ hr₀
  case lifecycle =>
    intro pos r hr
    obtain ⟨r₀, hr₀, hc, -⟩ := hold pos r hr
    rw [hlife, ← hc]
    exact h.lifecycle pos r₀ hr₀
  case heads => exact hheads
  case owned =>
    intro id hid
    obtain ⟨r₀, hr₀, hc⟩ := h.owned id ((hlife id).symm.trans hid)
    have hmap := howner (s.containers id).pos
    rw [hr₀, map_some, map_eq_some_iff] at hmap
    obtain ⟨r, hr, heq⟩ := hmap
    refine ⟨r, by rw [hpos, hr], ?_⟩
    rw [← hc]
    exact congrArg Prod.fst heq
  case indexed => exact hindexed
  case bounded =>
    intro pos r a hr ha
    obtain ⟨r₀, hr₀, -, hactive⟩ := hold pos r hr
    rw [hgen]
    exact h.bounded pos r₀ a hr₀ (hactive.trans ha)
  case ranks =>
    obtain ⟨positions, hranks⟩ := h.ranks
    refine ⟨positions, ?_⟩
    intro pos r rank hr hrank
    obtain ⟨r₀, hr₀, -, hactive⟩ := hold pos r hr
    apply hranks pos r₀ rank hr₀
    rw [← hrank, hgen, RegisteredChunkTicks.activeRank, RegisteredChunkTicks.activeRank, hactive]

/-- Replacing the queue of an unrecorded container changes nothing for the scheduler. -/
theorem setList (h : Inv s) {kind : TickKind} {list : TickList (T kind)}
    (hid : ∀ pos r, s.state.chunks pos = some r → r.container = id →
      list.head = ((s.containers id).lists kind).head) :
    Inv (s.setContainer id ((s.containers id).setList kind list)) := by
  apply h.of_same_owner
  · intro id'
    by_cases hne : id' = id
    · subst hne
      simp [setContainer]
    · simp [setContainer, hne]
  · intro id'
    by_cases hne : id' = id
    · subst hne
      simp [setContainer]
    · simp [setContainer, hne]
  · intro pos
    rfl
  · rfl
  · intro pos r kind' hr
    have hold := h.heads pos r kind' hr
    by_cases hne : r.container = id
    · subst hne
      simp only [setContainer, update_self]
      by_cases hkind : kind' = kind
      · subst hkind
        rw [ChunkTickContainer.setList_lists_self, hid pos r hr rfl, hold]
      · rw [ChunkTickContainer.setList_lists_of_ne _ _ hkind, hold]
    · simp only [setContainer, update_of_ne hne, hold]
  · exact h.indexed

theorem registerChunk (h : Inv s) (id : ContainerId) : Inv (s.registerChunk id).2 := by
  unfold WorldTickScheduler.registerChunk
  simp only
  split
  · exact h
  split
  · exact h
  rename_i hlife hfree
  have hlife' : (s.containers id).lifecycle = .prePublication := not_not.mp hlife
  have hnone : s.state.chunks (s.containers id).pos = none := by simpa using hfree
  have hne : ∀ {pos r}, s.state.chunks pos = some r → r.container ≠ id := by
    intro pos r hr
    apply h.container_ne_of_lifecycle _ hr
    simp [hlife']
  have hcases : ∀ {pos r}, Function.update s.state.chunks (s.containers id).pos
      (some ⟨id, fun kind => ((s.containers id).lists kind).head, none⟩) pos = some r →
      (pos = (s.containers id).pos ∧
        r = ⟨id, fun kind => ((s.containers id).lists kind).head, none⟩) ∨
      s.state.chunks pos = some r := by
    intro pos r hr
    by_cases hpos : pos = (s.containers id).pos
    · subst hpos
      rw [update_self] at hr
      exact Or.inl ⟨rfl, (Option.some.inj hr).symm⟩
    · rw [update_of_ne hpos] at hr
      exact Or.inr hr
  constructor
  case pos =>
    intro pos r hr
    rcases hcases hr with ⟨rfl, rfl⟩ | hr
    · simp [setContainer]
    · simp only [setContainer, update_of_ne (hne hr)]
      exact h.pos pos r hr
  case lifecycle =>
    intro pos r hr
    rcases hcases hr with ⟨rfl, rfl⟩ | hr
    · simp [setContainer]
    · simp only [setContainer, update_of_ne (hne hr)]
      exact h.lifecycle pos r hr
  case heads =>
    intro pos r kind hr
    rcases hcases hr with ⟨rfl, rfl⟩ | hr
    · simp [setContainer]
    · simp only [setContainer, update_of_ne (hne hr)]
      exact h.heads pos r kind hr
  case owned =>
    intro id' hid'
    by_cases hid : id' = id
    · subst hid
      exact ⟨⟨id', fun kind => ((s.containers id').lists kind).head, none⟩,
        by simp [setContainer], rfl⟩
    · simp only [setContainer, update_of_ne hid] at hid' ⊢
      obtain ⟨r, hr, hc⟩ := h.owned id' hid'
      refine ⟨r, ?_, hc⟩
      rw [update_of_ne]
      · exact hr
      · intro hpos
        rw [hpos, hnone] at hr
        cases hr
  case indexed =>
    intro kind
    apply (h.indexed kind).update_of_none
    · rw [hnone]
      rfl
    · rfl
  case bounded =>
    intro pos r a hr ha
    rcases hcases hr with ⟨rfl, rfl⟩ | hr
    · cases ha
    · exact h.bounded pos r a hr ha
  case ranks =>
    obtain ⟨positions, hranks⟩ := h.ranks
    refine ⟨positions, ?_⟩
    intro pos r rank hr hrank
    rcases hcases hr with ⟨rfl, rfl⟩ | hr
    · cases hrank
    · exact hranks pos r rank hr hrank

theorem map_owner_update {chunks : ChunkPos → Option RegisteredChunkTicks} {kind : TickKind}
    {head : Option ℤ} (hr : chunks pos = some r) (p : ChunkPos) :
    (Function.update chunks pos (some (r.setHead kind head)) p).map owner =
      (chunks p).map owner := by
  by_cases hp : p = pos
  · subst hp
    simp [hr, owner]
  · rw [update_of_ne hp]

theorem setListHead (h : Inv s) (hr : s.state.chunks pos = some r) (kind : TickKind)
    (list : TickList (T kind)) :
    ∃ state, s.state.setHead pos kind list.head = some (.ok (), state) ∧
      state.chunks pos = some (r.setHead kind list.head) ∧
      Inv ⟨Function.update s.containers r.container
        ((s.containers r.container).setList kind list), state⟩ := by
  obtain ⟨state, hset, hindexed, hgen, hchunks⟩ := h.indexed.setHead hr kind list.head
  refine ⟨state, hset, by rw [hchunks, update_self],
    h.of_same_owner ?_ ?_ ?_ hgen ?_ hindexed⟩
  · intro id
    by_cases hid : id = r.container
    · subst hid
      simp
    · simp [hid]
  · intro id
    by_cases hid : id = r.container
    · subst hid
      simp
    · simp [hid]
  · intro p
    simp only [hchunks]
    exact map_owner_update hr p
  · intro p r' kind' hr'
    simp only [hchunks] at hr' ⊢
    by_cases hp : p = pos
    · subst hp
      rw [update_self] at hr'
      obtain rfl := Option.some.inj hr'
      rw [setHead_container, update_self]
      by_cases hkind : kind' = kind
      · subst hkind
        simp
      · rw [setHead_heads_of_ne _ _ _ hkind, ChunkTickContainer.setList_lists_of_ne _ _ hkind]
        exact h.heads p r kind' hr
    · rw [update_of_ne hp] at hr'
      rw [update_of_ne]
      · exact h.heads p r' kind' hr'
      · intro hid
        exact hp (h.container_inj hr' hr hid)

theorem scheduleTick [∀ kind, TickKey (T kind)] (h : Inv s) (kind : TickKind) (id : ContainerId)
    (tickType : T kind)
    (pos : BlockPos) (triggerTick : ℤ) (priority : TickPriority) (subTickOrder : ℤ) :
    ∃ result s', s.scheduleTick kind id tickType pos triggerTick priority subTickOrder =
      some (result, s') ∧ Inv s' := by
  unfold WorldTickScheduler.scheduleTick
  simp only
  generalize ((s.containers id).lists kind).schedule tickType pos triggerTick priority
    subTickOrder = scheduled
  obtain ⟨added, list⟩ := scheduled
  by_cases hpre : (s.containers id).lifecycle = .prePublication
  · rw [if_pos hpre]
    refine ⟨_, _, rfl, h.setList ?_⟩
    intro p r hr hid
    exact absurd hid (h.container_ne_of_lifecycle (by simp [hpre]) hr)
  rw [if_neg hpre]
  split
  · exact ⟨_, _, rfl, h⟩
  split
  · exact ⟨_, _, rfl, h⟩
  split
  case isTrue hhead =>
    refine ⟨_, _, rfl, h.setList ?_⟩
    intro p r hr hid
    exact hhead
  case isFalse hhead =>
    cases hr : s.state.chunks (s.containers id).pos with
    | none =>
      refine ⟨_, _, rfl, h.setList ?_⟩
      intro p r hr' hid
      refine absurd hid (h.container_ne ?_ hr')
      simp [hr]
    | some r =>
      simp only
      split
      case isTrue hne =>
        refine ⟨_, _, rfl, h.setList ?_⟩
        intro p r' hr' hid
        refine absurd hid (h.container_ne ?_ hr')
        intro r'' hr''
        obtain rfl := Option.some.inj (hr.symm.trans hr'')
        exact hne
      case isFalse heq =>
        obtain rfl := not_not.mp heq
        obtain ⟨state, hset, -, hinv⟩ := h.setListHead hr kind list
        exact ⟨.ok true, _, by rw [hset]; rfl, hinv⟩

theorem unpackChunk (h : Inv s) (pos : ChunkPos) (currentTick : ℤ) :
    ∃ result s', s.unpackChunk pos currentTick = some (result, s') ∧ Inv s' := by
  unfold WorldTickScheduler.unpackChunk
  cases hr : s.state.chunks pos with
  | none => exact ⟨_, _, rfl, h⟩
  | some r =>
    have hlife := h.lifecycle pos r hr
    obtain ⟨state₁, hblock, hr₁, h₁⟩ :=
      h.setListHead hr .block (((s.containers r.container).lists .block).unpack currentTick)
    obtain ⟨state₂, hfluid, -, h₂⟩ :=
      h₁.setListHead hr₁ .fluid (((s.containers r.container).lists .fluid).unpack currentTick)
    simp only [hlife, ne_eq, not_true_eq_false, if_false, hblock, hfluid, setContainer,
      bind_eq_bind, bind_some]
    refine ⟨_, _, rfl, ?_⟩
    convert h₂ using 2
    rw [setHead_container, update_idem]
    congr 1
    simp only [update_self, ChunkTickContainer.setList, hlife,
      ChunkTickContainer.mk.injEq, true_and]
    funext kind
    cases kind <;> simp

theorem unregisterChunk (h : Inv s) (pos : ChunkPos) :
    ∃ s', s.unregisterChunk pos = some s' ∧ Inv s' := by
  unfold WorldTickScheduler.unregisterChunk
  cases hr : s.state.chunks pos with
  | none => exact ⟨s, rfl, h⟩
  | some r =>
    have hentry : ∀ kind e, headEntry (r.isActive s.state.activeGeneration) pos (r.heads kind) =
        some e → e ∈ s.state.activeDeadlines kind := by
      intro kind e he
      exact (h.indexed kind e).mpr ⟨pos, by rw [hr]; exact he⟩
    obtain ⟨block, hblock, hmem⟩ := removeHead_spec (hentry .block)
    obtain ⟨fluid, hfluid, hmem'⟩ := removeHead_spec (hentry .fluid)
    simp only [RegisteredChunkTicks.isActive] at hblock hfluid
    simp only [hblock, hfluid, bind_eq_bind, bind_some]
    refine ⟨_, rfl, ?_⟩
    have hold : ∀ {p r'}, Function.update s.state.chunks pos none p = some r' →
        s.state.chunks p = some r' ∧ r'.container ≠ r.container := by
      intro p r' hr'
      by_cases hp : p = pos
      · subst hp
        rw [update_self] at hr'
        cases hr'
      · rw [update_of_ne hp] at hr'
        exact ⟨hr', fun hid => hp (h.container_inj hr' hr hid)⟩
    constructor
    case pos =>
      intro p r' hr'
      obtain ⟨hr', hne⟩ := hold hr'
      simp only [setContainer, update_of_ne hne]
      exact h.pos p r' hr'
    case lifecycle =>
      intro p r' hr'
      obtain ⟨hr', hne⟩ := hold hr'
      simp only [setContainer, update_of_ne hne]
      exact h.lifecycle p r' hr'
    case heads =>
      intro p r' kind hr'
      obtain ⟨hr', hne⟩ := hold hr'
      simp only [setContainer, update_of_ne hne]
      exact h.heads p r' kind hr'
    case owned =>
      intro id hid
      by_cases hne : id = r.container
      · subst hne
        simp [setContainer] at hid
      · simp only [setContainer, update_of_ne hne] at hid ⊢
        obtain ⟨r', hr', hc⟩ := h.owned id hid
        refine ⟨r', ?_, hc⟩
        rw [update_of_ne]
        · exact hr'
        · intro hpos
          rw [hpos, hr] at hr'
          obtain rfl := Option.some.inj hr'
          exact hne hc.symm
    case indexed =>
      rintro (_ | _)
      · apply (h.indexed .block).update
        intro e
        rw [hmem, hr]
        simp [indexEntry]
      · apply (h.indexed .fluid).update
        intro e
        rw [hmem', hr]
        simp [indexEntry]
    case bounded =>
      intro p r' a hr' ha
      exact h.bounded p r' a (hold hr').1 ha
    case ranks =>
      obtain ⟨positions, hranks⟩ := h.ranks
      refine ⟨positions, ?_⟩
      intro p r' rank hr' hrank
      exact hranks p r' rank (hold hr').1 hrank

theorem reconcileActiveChunks (h : Inv s) {positions : List ChunkPos} (hnodup : positions.Nodup) :
    ∃ result s', s.reconcileActiveChunks positions = some (result, s') ∧ Inv s' := by
  unfold WorldTickScheduler.reconcileActiveChunks
  cases hfind : positions.find? fun pos => (s.state.chunks pos).isNone with
  | some pos => exact ⟨_, s, rfl, h⟩
  | none =>
    have hreg : ∀ p ∈ positions, (s.state.chunks p).isSome = true := by
      intro p hp
      have hnot := List.find?_eq_none.mp hfind p hp
      simpa [isSome_iff_ne_none] using hnot
    obtain ⟨state, hrec, hindexed, hbounded, hcontent, hranks⟩ :=
      reconcile_spec h.bounded hnodup hreg
    refine ⟨.ok (), { s with state := state }, ?_, ?_⟩
    · simp [hrec]
    have hold : ∀ {pos r}, state.chunks pos = some r → ∃ r₀, s.state.chunks pos = some r₀ ∧
        r₀.container = r.container ∧ r₀.heads = r.heads := by
      intro pos r hr
      have hmap := hcontent pos
      rw [hr, map_some, eq_comm, map_eq_some_iff] at hmap
      obtain ⟨r₀, hr₀, heq⟩ := hmap
      exact ⟨r₀, hr₀, congrArg Prod.fst heq, congrArg Prod.snd heq⟩
    constructor
    case pos =>
      intro pos r hr
      obtain ⟨r₀, hr₀, hc, -⟩ := hold hr
      rw [← hc]
      exact h.pos pos r₀ hr₀
    case lifecycle =>
      intro pos r hr
      obtain ⟨r₀, hr₀, hc, -⟩ := hold hr
      rw [← hc]
      exact h.lifecycle pos r₀ hr₀
    case heads =>
      intro pos r kind hr
      obtain ⟨r₀, hr₀, hc, hheads⟩ := hold hr
      rw [← hc, ← hheads]
      exact h.heads pos r₀ kind hr₀
    case owned =>
      intro id hid
      obtain ⟨r₀, hr₀, hc⟩ := h.owned id hid
      have hmap := hcontent (s.containers id).pos
      rw [hr₀, map_some, map_eq_some_iff] at hmap
      obtain ⟨r, hr, heq⟩ := hmap
      refine ⟨r, hr, ?_⟩
      rw [← hc]
      exact congrArg Prod.fst heq
    case indexed => exact hindexed
    case bounded => exact hbounded
    case ranks => exact ⟨positions, hranks⟩

end Inv

/-- The containers of the active chunks, with their ranks in the active snapshot. -/
structure ActiveRanks (s : WorldTickScheduler T) (active : List ContainerId)
    (rank : ContainerId → ℕ) : Prop where
  mem_iff : ∀ id, id ∈ active ↔ ∃ pos r k, s.state.chunks pos = some r ∧
    r.activeRank s.state.activeGeneration = some k ∧ r.container = id
  rank_eq : ∀ pos r k, s.state.chunks pos = some r →
    r.activeRank s.state.activeGeneration = some k → rank r.container = k

section Collection

variable {s : WorldTickScheduler T} {active : List ContainerId} {rank : ContainerId → ℕ}
variable {kind : TickKind} {now : ℤ} {maxTicks : ℕ}

theorem Inv.exists_activeRanks (h : Inv s) : ∃ active rank, ActiveRanks s active rank := by
  obtain ⟨positions, hranks⟩ := h.ranks
  refine ⟨positions.filterMap fun pos => (s.state.chunks pos).bind fun r =>
      (r.activeRank s.state.activeGeneration).map fun _ => r.container,
    fun id => ((s.state.chunks (s.containers id).pos).bind fun r =>
      r.activeRank s.state.activeGeneration).getD 0, ?_, ?_⟩
  · intro id
    simp only [mem_filterMap, bind_eq_some_iff, map_eq_some_iff]
    constructor
    · rintro ⟨pos, -, r, hr, k, hk, rfl⟩
      exact ⟨pos, r, k, hr, hk, rfl⟩
    · rintro ⟨pos, r, k, hr, hk, rfl⟩
      exact ⟨pos, mem_of_getElem? (hranks pos r k hr hk), r, hr, k, hk, rfl⟩
  · intro pos r k hr hk
    rw [h.pos pos r hr, hr, bind_some, hk, getD_some]

theorem Inv.rank_inj (h : Inv s) (ha : ActiveRanks s active rank) :
    ∀ i ∈ active, ∀ j ∈ active, rank i = rank j → i = j := by
  intro i hi j hj heq
  obtain ⟨positions, hranks⟩ := h.ranks
  obtain ⟨pos, r, k, hr, hk, rfl⟩ := (ha.mem_iff i).mp hi
  obtain ⟨pos', r', k', hr', hk', rfl⟩ := (ha.mem_iff j).mp hj
  rw [ha.rank_eq pos r k hr hk, ha.rank_eq pos' r' k' hr' hk'] at heq
  subst heq
  have hpos := (hranks pos r k hr hk).symm.trans (hranks pos' r' k hr' hk')
  obtain rfl := Option.some.inj hpos
  obtain rfl := Option.some.inj (hr.symm.trans hr')
  rfl

variable {state : WorldTickSchedulerState}

theorem Inv.dueContainers (h : Inv s) (ha : ActiveRanks s active rank)
    {due : List ActiveTickContainer} (hdue : s.state.TakesDue kind now due state) :
    DueContainers kind now active rank s.containers due := by
  have hcontainer : ∀ a ∈ due, (s.containers a.container).pos = a.pos := by
    intro a hmem
    obtain ⟨r, t, hr, -, hc, -, -⟩ := (hdue.mem_iff a).mp hmem
    rw [← hc]
    exact h.pos a.pos r hr
  constructor
  case lifecycle =>
    intro a hmem
    obtain ⟨r, t, hr, -, hc, -, -⟩ := (hdue.mem_iff a).mp hmem
    rw [← hc]
    exact h.lifecycle a.pos r hr
  case pos => exact hcontainer
  case rank =>
    intro a hmem
    obtain ⟨r, t, hr, hk, hc, -, -⟩ := (hdue.mem_iff a).mp hmem
    rw [← hc]
    exact ha.rank_eq a.pos r a.rank hr hk
  case isActive =>
    intro a hmem
    obtain ⟨r, t, hr, hk, hc, -, -⟩ := (hdue.mem_iff a).mp hmem
    exact (ha.mem_iff _).mpr ⟨a.pos, r, a.rank, hr, hk, hc⟩
  case head =>
    intro a hmem
    obtain ⟨r, t, hr, -, hc, ht, hle⟩ := (hdue.mem_iff a).mp hmem
    rw [h.heads a.pos r kind hr, hc, head_eq, map_eq_some_iff] at ht
    obtain ⟨tick, htick, rfl⟩ := ht
    exact ⟨tick, htick, decide_eq_true hle⟩
  case nodup =>
    have hmap : (due.map ActiveTickContainer.container).map (fun id => (s.containers id).pos) =
        due.map ActiveTickContainer.pos := by
      rw [List.map_map]
      exact map_congr_left hcontainer
    exact Nodup.of_map _ (hmap ▸ hdue.nodup)
  case complete =>
    rintro ⟨id, tick⟩ he
    obtain ⟨hid, hhead, htick⟩ := mem_candidates.mp he
    obtain ⟨pos, r, k, hr, hk, rfl⟩ := (ha.mem_iff id).mp hid
    refine List.mem_map.mpr ⟨⟨pos, k, r.container⟩, (hdue.mem_iff _).mpr ?_, rfl⟩
    refine ⟨r, tick.triggerTick, hr, hk, rfl, ?_, of_decide_eq_true htick⟩
    rw [h.heads pos r kind hr, head_eq]
    exact congrArg (Option.map ScheduledTick.triggerTick) hhead

theorem Inv.setHeads (h : Inv s) {containers : ContainerId → ChunkTickContainer T}
    {positions : List ChunkPos} {head : ChunkPos → Option ℤ}
    (hsame : SameButLive kind s.containers containers) (hindexed : state.Indexed)
    (hgen : state.activeGeneration = s.state.activeGeneration)
    (hchunks : state.chunks = WorldTickSchedulerState.setHeads s.state.chunks kind positions head)
    (hhead : ∀ pos r, s.state.chunks pos = some r → pos ∈ positions →
      head pos = ((containers r.container).lists kind).head)
    (hqueue : ∀ pos r, s.state.chunks pos = some r → pos ∉ positions →
      queues kind containers r.container = queues kind s.containers r.container) :
    Inv ⟨containers, state⟩ := by
  apply h.of_same_owner hsame.pos hsame.lifecycle _ hgen _ hindexed
  · intro pos
    simp only [hchunks, WorldTickSchedulerState.setHeads]
    split
    · rw [Option.map_map]
      rfl
    · rfl
  · intro pos r kind' hr
    simp only [hchunks, WorldTickSchedulerState.setHeads] at hr ⊢
    split at hr
    case isTrue hpos =>
      obtain ⟨r₀, hr₀, rfl⟩ := map_eq_some_iff.mp hr
      by_cases hkind : kind' = kind
      · subst hkind
        rw [setHead_heads_self]
        exact hhead pos r₀ hr₀ hpos
      · rw [setHead_heads_of_ne _ _ _ hkind, setHead_container, hsame.other _ _ hkind]
        exact h.heads pos r₀ kind' hr₀
    case isFalse hpos =>
      rw [h.heads pos r kind' hr]
      by_cases hkind : kind' = kind
      · subst hkind
        have hlive : ((containers r.container).lists kind').live =
            ((s.containers r.container).lists kind').live := hqueue pos r hr hpos
        rw [head_eq, head_eq, hlive]
      · rw [hsame.other _ _ hkind]

variable (kind now maxTicks) in
/-- Collection takes the greedy merge of the active queues and keeps the index exact. -/
theorem Inv.collectTicks [∀ kind, TickKey (T kind)] (h : Inv s) (ha : ActiveRanks s active rank) :
    ∃ batch s', s.collectTicks kind now maxTicks = some (batch, s') ∧ Inv s' ∧
      Collects now active rank maxTicks s.containers batch s'.containers := by
  unfold WorldTickScheduler.collectTicks
  by_cases hzero : maxTicks = 0
  · rw [if_pos hzero]
    subst hzero
    exact ⟨_, s, rfl, h, collects_nil rfl⟩
  rw [if_neg hzero]
  obtain ⟨due, state, htake, hdue⟩ : ∃ due state, s.state.takeDue kind now = some (due, state) ∧
    s.state.TakesDue kind now due state := takeDue_spec h.indexed
  have hcontainers := h.dueContainers ha hdue
  simp only [htake, bind_eq_bind, bind_some]
  by_cases hnil : due = []
  · rw [if_pos hnil]
    subst hnil
    have hchunks : state.chunks = s.state.chunks := by
      rw [hdue.chunks]
      funext pos
      simp [WorldTickSchedulerState.clearHeads]
    refine ⟨_, _, rfl, ?_, collects_nil (greedy_of_no_candidates ?_)⟩
    · apply h.of_same_owner
      · exact fun _ => rfl
      · exact fun _ => rfl
      · intro pos
        simp only [hchunks]
      · exact hdue.generation
      · intro pos r kind' hr
        exact h.heads pos r kind' (hchunks ▸ hr)
      · exact hdue.indexed
    · intro e he
      cases hcontainers.complete e he
  rw [if_neg hnil]
  obtain ⟨batch, updates, containers, hcollect, hcollects, hcovered, hexact⟩ :
      ∃ batch updates containers, collectRegisteredTicks kind now s.containers due maxTicks =
        some (batch, updates, containers) ∧ _ :=
    collectRegisteredTicks_spec hcontainers (h.rank_inj ha)
  obtain ⟨head, hhead⟩ : ∃ head : ChunkPos → Option ℤ, ∀ pos r, s.state.chunks pos = some r →
      head pos = ((containers r.container).lists kind).head :=
    ⟨fun pos => (s.state.chunks pos).bind fun r => ((containers r.container).lists kind).head,
      fun pos r hr => by simp [hr]⟩
  have hrecord : ∀ u ∈ updates, u.pos ∈ due.map ActiveTickContainer.pos ∧
      ∃ r, s.state.chunks u.pos = some r ∧ u.triggerTick = head u.pos := by
    intro u hu
    obtain ⟨a, hmem, hpos, htrigger⟩ := hexact u hu
    obtain ⟨r, -, hr, -, hc, -, -⟩ := (hdue.mem_iff a).mp hmem
    rw [hpos] at hr
    refine ⟨hpos ▸ List.mem_map_of_mem hmem, r, hr, ?_⟩
    rw [hhead _ r hr, hc, htrigger]
  have hpositions : ∀ pos, pos ∈ updates.map TickHeadUpdate.pos ↔
      pos ∈ due.map ActiveTickContainer.pos := by
    intro pos
    constructor
    · intro hmem
      obtain ⟨u, hu, rfl⟩ := List.mem_map.mp hmem
      exact (hrecord u hu).1
    · intro hmem
      obtain ⟨a, ha', rfl⟩ := List.mem_map.mp hmem
      exact hcovered a ha'
  obtain ⟨state', happly, hindexed, hgen, hchunks⟩ :
      ∃ state', state.applyHeadUpdates kind updates = some state' ∧ _ := by
    apply applyHeadUpdates_spec hdue.indexed
    · intro u hu
      obtain ⟨-, r, hr, -⟩ := hrecord u hu
      rw [hdue.chunks, WorldTickSchedulerState.clearHeads]
      split <;> simp [hr]
    · intro u hu
      obtain ⟨-, r, -, htrigger⟩ := hrecord u hu
      exact htrigger
  simp only [hcollect, happly, bind_some]
  refine ⟨_, _, rfl, ?_, hcollects⟩
  rw [hdue.chunks, setHeads_clearHeads hpositions] at hchunks
  apply h.setHeads hcollects.same hindexed (hgen.trans hdue.generation) hchunks
  · intro pos r hr _
    exact hhead pos r hr
  · intro pos r hr hpos
    apply hcollects.queue_eq
    intro t ht
    obtain ⟨a, hmem, hid⟩ := List.mem_map.mp (hcontainers.complete _ ht)
    apply hpos
    have hposa := hcontainers.pos a hmem
    rw [hid, h.pos pos r hr] at hposa
    exact hposa ▸ List.mem_map_of_mem hmem

end Collection

/-- Code outside the scheduler creates and changes containers that are not registered. -/
def changeUnregistered (s : WorldTickScheduler T) (id : ContainerId)
    (container : ChunkTickContainer T) : WorldTickScheduler T :=
  if (s.containers id).lifecycle = .registered ∨ container.lifecycle = .registered then s
  else s.setContainer id container

variable {s : WorldTickScheduler T}

theorem Inv.changeUnregistered (h : Inv s) (id : ContainerId) (container : ChunkTickContainer T) :
    Inv (s.changeUnregistered id container) := by
  unfold WorldTickScheduler.changeUnregistered
  split
  · exact h
  case isFalse hlife =>
    obtain ⟨hold, hnew⟩ := not_or.mp hlife
    have hne : ∀ {pos r}, s.state.chunks pos = some r → r.container ≠ id :=
      h.container_ne_of_lifecycle hold
    constructor
    case pos =>
      intro pos r hr
      rw [setContainer_of_ne s container (hne hr)]
      exact h.pos pos r hr
    case lifecycle =>
      intro pos r hr
      rw [setContainer_of_ne s container (hne hr)]
      exact h.lifecycle pos r hr
    case heads =>
      intro pos r kind hr
      rw [setContainer_of_ne s container (hne hr)]
      exact h.heads pos r kind hr
    case owned =>
      intro id' hid'
      by_cases hid : id' = id
      · subst hid
        rw [setContainer_self] at hid'
        exact absurd hid' hnew
      · rw [setContainer_of_ne s container hid] at hid' ⊢
        exact h.owned id' hid'
    case indexed => exact h.indexed
    case bounded => exact h.bounded
    case ranks => exact h.ranks

/-- The operations, with all their arguments. -/
inductive Op (T : TickKind → Type) where
  | register (id : ContainerId)
  | unpack (pos : ChunkPos) (currentTick : ℤ)
  | schedule (kind : TickKind) (id : ContainerId) (tickType : T kind) (pos : BlockPos)
      (triggerTick : ℤ) (priority : TickPriority) (subTickOrder : ℤ)
  | unregister (pos : ChunkPos)
  | reconcile (positions : List ChunkPos)
  | collect (kind : TickKind) (currentTick : ℤ) (maxTicks : ℕ)
  | outside (id : ContainerId) (container : ChunkTickContainer T)

def Op.Distinct : Op T → Prop
  | .reconcile positions => positions.Nodup
  | _ => True

variable [∀ kind, TickKey (T kind)]

/-- The state after an operation, whatever its result; `none` if it panics. -/
def step (s : WorldTickScheduler T) : Op T → Option (WorldTickScheduler T)
  | .register id => some (s.registerChunk id).2
  | .unpack pos currentTick => (s.unpackChunk pos currentTick).map Prod.snd
  | .schedule kind id tickType pos triggerTick priority subTickOrder =>
    (s.scheduleTick kind id tickType pos triggerTick priority subTickOrder).map Prod.snd
  | .unregister pos => s.unregisterChunk pos
  | .reconcile positions => (s.reconcileActiveChunks positions).map Prod.snd
  | .collect kind currentTick maxTicks => (s.collectTicks kind currentTick maxTicks).map Prod.snd
  | .outside id container => some (s.changeUnregistered id container)

def run (s : WorldTickScheduler T) (ops : List (Op T)) : Option (WorldTickScheduler T) :=
  ops.foldlM step s

/-- A new scheduler; no container is registered yet. -/
structure Initial (s : WorldTickScheduler T) : Prop where
  state : s.state = .new
  lifecycle : ∀ id, (s.containers id).lifecycle ≠ .registered

omit [∀ kind, TickKey (T kind)] in
theorem Initial.inv (h : Initial s) : Inv s := by
  have hnone : ∀ pos, s.state.chunks pos = none := by
    intro pos
    rw [h.state]
    rfl
  constructor
  case pos => simp [hnone]
  case lifecycle => simp [hnone]
  case heads => simp [hnone]
  case owned =>
    intro id hid
    exact absurd hid (h.lifecycle id)
  case indexed =>
    intro kind e
    rw [h.state]
    constructor
    · intro he
      exact absurd he SortedSet.not_mem_empty
    · rintro ⟨pos, hpos⟩
      cases hpos
  case bounded =>
    intro pos r a hr
    rw [hnone] at hr
    cases hr
  case ranks => exact ⟨[], by simp [hnone]⟩

theorem Inv.step (h : Inv s) {op : Op T} (hop : op.Distinct) :
    ∃ s', s.step op = some s' ∧ Inv s' := by
  cases op with
  | register id => exact ⟨_, rfl, h.registerChunk id⟩
  | unpack pos currentTick =>
    obtain ⟨result, s', hs', h'⟩ := h.unpackChunk pos currentTick
    exact ⟨s', by simp [WorldTickScheduler.step, hs'], h'⟩
  | schedule kind id tickType pos triggerTick priority subTickOrder =>
    obtain ⟨result, s', hs', h'⟩ :=
      h.scheduleTick kind id tickType pos triggerTick priority subTickOrder
    exact ⟨s', by simp [WorldTickScheduler.step, hs'], h'⟩
  | unregister pos => exact h.unregisterChunk pos
  | reconcile positions =>
    obtain ⟨result, s', hs', h'⟩ := h.reconcileActiveChunks hop
    exact ⟨s', by simp [WorldTickScheduler.step, hs'], h'⟩
  | collect kind currentTick maxTicks =>
    obtain ⟨active, rank, ha⟩ := h.exists_activeRanks
    obtain ⟨batch, s', hs', h', -⟩ := h.collectTicks kind currentTick maxTicks ha
    exact ⟨s', by simp [WorldTickScheduler.step, hs'], h'⟩
  | outside id container => exact ⟨_, rfl, h.changeUnregistered id container⟩

theorem Inv.run (h : Inv s) {ops : List (Op T)} (hops : ∀ op ∈ ops, op.Distinct) :
    ∃ s', s.run ops = some s' ∧ Inv s' := by
  induction ops generalizing s with
  | nil => exact ⟨s, rfl, h⟩
  | cons op ops ih =>
    obtain ⟨s₁, hstep, h₁⟩ := h.step (hops op mem_cons_self)
    obtain ⟨s', hrun, h'⟩ := ih h₁ fun op' hop' => hops op' (mem_cons_of_mem op hop')
    refine ⟨s', ?_, h'⟩
    rw [WorldTickScheduler.run, foldlM_cons, hstep]
    exact hrun

/-- The cached heads are the least deadlines of the live queues, and the deadline sets are those
of the active chunks. -/
structure Exact (s : WorldTickScheduler T) : Prop where
  least : ∀ pos r kind t, s.state.chunks pos = some r →
    (r.heads kind = some t ↔
      IsLeast {d | ∃ tick ∈ queues kind s.containers r.container, tick.triggerTick = d} t)
  empty : ∀ pos r kind, s.state.chunks pos = some r →
    (r.heads kind = none ↔ queues kind s.containers r.container = [])
  deadlines : ∀ kind e, e ∈ s.state.activeDeadlines kind ↔ ∃ pos r t,
    s.state.chunks pos = some r ∧ (r.activeRank s.state.activeGeneration).isSome = true ∧
    r.heads kind = some t ∧ e = deadline t pos

omit [∀ kind, TickKey (T kind)] in
theorem Inv.exact {s : WorldTickScheduler T} (h : Inv s) : Exact s := by
  constructor
  case least =>
    intro pos r kind t hr
    rw [h.heads pos r kind hr]
    have hleast : ∀ {t}, ((s.containers r.container).lists kind).head = some t →
        IsLeast {d | ∃ tick ∈ queues kind s.containers r.container, tick.triggerTick = d} t := by
      intro t ht
      refine ⟨exists_of_head ht, ?_⟩
      rintro _ ⟨tick, htick, rfl⟩
      exact head_le ht htick
    constructor
    · exact hleast
    · intro ht
      cases hhead : ((s.containers r.container).lists kind).head with
      | none =>
        obtain ⟨tick, htick, -⟩ := ht.1
        have hnil : queues kind s.containers r.container = [] := head_eq_none.mp hhead
        rw [hnil] at htick
        cases htick
      | some t' => rw [(hleast hhead).unique ht]
  case empty =>
    intro pos r kind hr
    rw [h.heads pos r kind hr]
    exact head_eq_none
  case deadlines =>
    intro kind e
    rw [h.indexed kind e]
    constructor
    · rintro ⟨pos, hpos⟩
      cases hr : s.state.chunks pos with
      | none =>
        rw [hr] at hpos
        cases hpos
      | some r =>
        rw [hr] at hpos
        obtain ⟨hactive, t, ht, rfl⟩ := headEntry_eq_some.mp hpos
        exact ⟨pos, r, t, hr, hactive, ht, rfl⟩
    · rintro ⟨pos, r, t, hr, hactive, ht, rfl⟩
      refine ⟨pos, ?_⟩
      rw [hr]
      exact headEntry_eq_some.mpr ⟨hactive, t, ht, rfl⟩

/-- In every run the heads and deadlines stay exact, and nothing panics. -/
theorem run_exact {s : WorldTickScheduler T} (h : Initial s) (ops : List (Op T))
    (hops : ∀ op ∈ ops, op.Distinct) : ∃ s', s.run ops = some s' ∧ Exact s' := by
  obtain ⟨s', hrun, h'⟩ := h.inv.run hops
  exact ⟨s', hrun, h'.exact⟩

def twoChunks : WorldTickScheduler fun _ => ℕ where
  containers id := ⟨⟨Int32.ofNat id, 0⟩, if id < 2 then .prePublication else .proto, fun _ => .new⟩
  state := .new

theorem twoChunks_initial : Initial twoChunks where
  state := rfl
  lifecycle id := by
    unfold twoChunks
    simp only
    split <;> simp

/-- Both chunks become active with overdue ticks of the same order. -/
def twoChunkOps : List (Op fun _ => ℕ) :=
  [.register 0, .register 1, .schedule .block 0 7 ⟨0, 0, 0⟩ 3 .normal 0,
    .reconcile [⟨1, 0⟩, ⟨0, 0⟩], .schedule .block 1 7 ⟨16, 0, 0⟩ 2 .normal 0,
    .schedule .block 1 8 ⟨16, 0, 0⟩ 4 .high 1]

theorem twoChunkOps_distinct : ∀ op ∈ twoChunkOps, op.Distinct := by
  simp [twoChunkOps, Op.Distinct]

theorem run_exact_twoChunks : ∃ s', twoChunks.run twoChunkOps = some s' ∧ Exact s' :=
  run_exact twoChunks_initial twoChunkOps twoChunkOps_distinct

/-- In every reachable state a collection is the greedy merge of the active queues. -/
theorem collect_greedy {s s' : WorldTickScheduler T} (h : Initial s) {ops : List (Op T)}
    (hops : ∀ op ∈ ops, op.Distinct) (hrun : s.run ops = some s') (kind : TickKind)
    (now : ℤ) (maxTicks : ℕ) :
    (∃ active rank, ActiveRanks s' active rank) ∧
    ∃ batch s'', s'.collectTicks kind now maxTicks = some (batch, s'') ∧
      ∀ active rank, ActiveRanks s' active rank →
        Collects now active rank maxTicks s'.containers batch s''.containers := by
  obtain ⟨s₁, hrun₁, h₁⟩ := h.inv.run hops
  obtain rfl := Option.some.inj (hrun₁.symm.trans hrun)
  obtain ⟨active, rank, ha⟩ := h₁.exists_activeRanks
  obtain ⟨batch, s'', hcollect, -, -⟩ := h₁.collectTicks kind now maxTicks ha
  refine ⟨⟨active, rank, ha⟩, batch, s'', hcollect, ?_⟩
  intro active' rank' ha'
  obtain ⟨batch', s₂, hcollect', -, hcollects⟩ := h₁.collectTicks kind now maxTicks ha'
  rw [hcollect, Option.some.injEq, Prod.mk.injEq] at hcollect'
  obtain ⟨rfl, rfl⟩ := hcollect'
  exact hcollects

theorem collect_greedy_twoChunks : ∃ s', twoChunks.run twoChunkOps = some s' ∧
    (∃ active rank, ActiveRanks s' active rank) ∧
    ∃ batch s'', s'.collectTicks .block 5 10 = some (batch, s'') ∧
      ∀ active rank, ActiveRanks s' active rank →
        @Collects (fun _ => ℕ) .block 5 active rank 10 s'.containers batch s''.containers := by
  obtain ⟨s', hrun, -⟩ := twoChunks_initial.inv.run twoChunkOps_distinct
  exact ⟨s', hrun, collect_greedy twoChunks_initial twoChunkOps_distinct hrun .block 5 10⟩

end WorldTickScheduler

end Steel
