import Steel.Lib.GreedyMerge
import Steel.World.TickScheduler

/-! # Collection is a greedy merge

The heap of ready containers holds the due heads of all containers except the one in turn.
-/

namespace Steel

open Or (inl inr)

open GreedyMerge Function TickList List PriorityQueue ActiveTickContainer Nat
open ReadyContainer (intraOrder refresh)

variable {T : TickKind → Type} {kind : TickKind} {now : ℤ}

def ScheduledTick.isDue {T : Type} (now : ℤ) (tick : ScheduledTick T) : Bool :=
  decide (tick.triggerTick ≤ now)

open ScheduledTick (isDue)

def queues (kind : TickKind) (containers : ContainerId → ChunkTickContainer T) :
    ContainerId → List (ScheduledTick (T kind)) :=
  fun id => ((containers id).lists kind).live

namespace ChunkTickContainer

variable (container : ChunkTickContainer T) (list : TickList (T kind))

@[simp] theorem setList_pos : (container.setList kind list).pos = container.pos := rfl

@[simp] theorem setList_lifecycle :
    (container.setList kind list).lifecycle = container.lifecycle := rfl

@[simp] theorem setList_lists_self : (container.setList kind list).lists kind = list := by
  simp [setList]

theorem setList_lists_of_ne {kind' : TickKind} (h : kind' ≠ kind) :
    (container.setList kind list).lists kind' = container.lists kind' := by
  simp [setList, h]

end ChunkTickContainer

variable (containers : ContainerId → ChunkTickContainer T)

theorem queues_update (id : ContainerId) (list : TickList (T kind)) :
    queues kind (Function.update containers id ((containers id).setList kind list)) =
      Function.update (queues kind containers) id list.live := by
  funext id'
  by_cases h : id' = id
  · subst h
    simp [queues]
  · simp [queues, h]

section Drain

variable [∀ kind, TickKey (T kind)]

/-- The drained ticks are a due prefix of the queue that ends at the limit, at a tick that is
not due, or at a tick later than the competitor. -/
theorem drain_spec (competitor : Option (ℤ ×ₗ ℤ)) (n : ℕ) (list : TickList (T kind)) :
    ∃ taken list', drain now competitor n list = (taken, list') ∧
      list.live = taken ++ list'.live ∧ list'.pendingTicks = list.pendingTicks ∧
      taken.length ≤ n ∧ (∀ t ∈ taken, t.isDue now = true ∧
        ∀ order ∈ competitor, t.intraOrder ≤ order) ∧
      (taken.length = n ∨ ∀ t, list'.live.head? = some t → t.isDue now = true →
        ∃ order ∈ competitor, order < t.intraOrder) := by
  induction n generalizing list with
  | zero => exact ⟨[], list, rfl, rfl, rfl, le_rfl, by simp, inl rfl⟩
  | succ n ih =>
    cases hready : list.peekReady now with
    | none =>
      refine ⟨[], list, by simp only [drain, hready], rfl, rfl, zero_le _, by simp, inr ?_⟩
      intro t ht hdue
      have hsome := peekReady_eq_some.mpr ⟨ht, of_decide_eq_true hdue⟩
      rw [hready] at hsome
      cases hsome
    | some tick =>
      obtain ⟨hhead, hle⟩ := peekReady_eq_some.mp hready
      by_cases hlate : (competitor.any fun order => order < tick.intraOrder) = true
      · refine ⟨[], list, by simp only [drain, hready, hlate, if_true], rfl, rfl, zero_le _,
          by simp, inr ?_⟩
        intro t ht _
        obtain rfl := Option.some.inj (hhead.symm.trans ht)
        simpa [Option.any_eq_true] using hlate
      · obtain ⟨list₁, hpop, hlive, -, hpending⟩ := popReady_of_ready hready
        obtain ⟨taken, list', hdrain, hlive', hpending', hlen, hall, hstop⟩ := ih list₁
        have hnot : (competitor.any fun order => order < tick.intraOrder) = false := by
          simpa using hlate
        refine ⟨tick :: taken, list', ?_, ?_, hpending'.trans hpending, ?_, ?_, ?_⟩
        · simp [drain, hready, hnot, hpop, hdrain]
        · rw [cons_append, ← hlive', hlive, List.cons_head?_tail hhead]
        · simpa using hlen
        · intro t ht
          rcases mem_cons.mp ht with rfl | ht
          · refine ⟨by simpa [isDue] using hle, ?_⟩
            intro order horder
            rw [Option.mem_def.mp horder] at hnot
            simpa using hnot
          · exact hall t ht
        · rcases hstop with hstop | hstop
          · left
            simpa using hstop
          · exact inr hstop

theorem serve_cases (maxTicks : ℕ) (s : Collecting T kind) (rc : ReadyContainer) (ready : ReadyHeap)
    (tick : ScheduledTick (T kind)) {list list' : TickList (T kind)}
    {taken : List (ScheduledTick (T kind))}
    (hdrain : drain now (ready.peek.map intraOrder)
      (maxTicks - (s.ticks.length + 1)) list = (taken, list')) :
    ∃ ready' updates', serve kind now maxTicks s rc ready tick list =
        ⟨Function.update s.containers rc.container ((s.containers rc.container).setList kind list'),
          ready', s.ticks ++ tick :: taken,
          if rc.dirtyReported then s.changedContainers else s.changedContainers ++ [rc.rank],
          updates'⟩ ∧
      ((∃ next, list'.live.head? = some next ∧ next.isDue now = true ∧
          (s.ticks ++ tick :: taken).length < maxTicks ∧
          ready' = ready.push ({ rc with dirtyReported := true }.refresh next) ∧
          updates' = s.headUpdates) ∨
        ((∀ next, list'.live.head? = some next → next.isDue now = true →
            maxTicks ≤ (s.ticks ++ tick :: taken).length) ∧
          ready' = ready ∧ updates' = s.headUpdates ++ [⟨rc.pos, list'.head⟩])) := by
  unfold serve
  simp only [hdrain, peek_eq]
  cases hhead : list'.live.head? with
  | none =>
    refine ⟨ready, _, rfl, inr ⟨by simp, rfl, ?_⟩⟩
    rw [head_eq, hhead]
    rfl
  | some next =>
    by_cases hcond : (s.ticks ++ tick :: taken).length < maxTicks ∧ next.triggerTick ≤ now
    · simp only [hcond, and_self, if_true]
      exact ⟨_, _, rfl, inl ⟨next, rfl, by simpa [isDue] using hcond.2, trivial,
        rfl, rfl⟩⟩
    · simp only [hcond, if_false]
      refine ⟨_, _, rfl, inr ⟨?_, rfl, ?_⟩⟩
      · intro next' hnext' hdue
        obtain rfl := Option.some.inj hnext'
        by_contra hlt
        exact hcond ⟨not_le.mp hlt, of_decide_eq_true hdue⟩
      · rw [head_eq, hhead]
        rfl

end Drain

/-- Only the live ticks of one kind differ. -/
structure SameButLive (kind : TickKind)
    (containers containers' : ContainerId → ChunkTickContainer T) :
    Prop where
  pos : ∀ id, (containers' id).pos = (containers id).pos
  lifecycle : ∀ id, (containers' id).lifecycle = (containers id).lifecycle
  other : ∀ id kind', kind' ≠ kind → (containers' id).lists kind' = (containers id).lists kind'
  pending : ∀ id, ((containers' id).lists kind).pendingTicks =
    ((containers id).lists kind).pendingTicks

namespace SameButLive

variable {c c' c'' : ContainerId → ChunkTickContainer T}

theorem refl (c : ContainerId → ChunkTickContainer T) : SameButLive kind c c :=
  ⟨fun _ => rfl, fun _ => rfl, fun _ _ _ => rfl, fun _ => rfl⟩

theorem trans (h : SameButLive kind c c') (h' : SameButLive kind c' c'') :
    SameButLive kind c c'' where
  pos id := (h'.pos id).trans (h.pos id)
  lifecycle id := (h'.lifecycle id).trans (h.lifecycle id)
  other id kind' hne := (h'.other id kind' hne).trans (h.other id kind' hne)
  pending id := (h'.pending id).trans (h.pending id)

theorem update (c : ContainerId → ChunkTickContainer T) (id : ContainerId)
    {list : TickList (T kind)} (h : list.pendingTicks = ((c id).lists kind).pendingTicks) :
    SameButLive kind c (Function.update c id ((c id).setList kind list)) := by
  constructor <;> intro id'
  · by_cases hid : id' = id
    · subst hid
      simp
    · simp [hid]
  · by_cases hid : id' = id
    · subst hid
      simp
    · simp [hid]
  · intro kind' hne
    by_cases hid : id' = id
    · subst hid
      simp [ChunkTickContainer.setList_lists_of_ne _ _ hne]
    · simp [hid]
  · by_cases hid : id' = id
    · subst hid
      simpa using h
    · simp [hid]

end SameButLive

section Loop

/-- A heap entry describes a registered container with a due head. -/
structure Ready (rank : ContainerId → ℕ) (now : ℤ)
    (containers : ContainerId → ChunkTickContainer T) (kind : TickKind) (rc : ReadyContainer) :
    Prop where
  lifecycle : (containers rc.container).lifecycle = .registered
  pos : (containers rc.container).pos = rc.pos
  rank : rank rc.container = rc.rank
  head : ∃ t, (queues kind containers rc.container).head? = some t ∧ t.isDue now = true ∧
    t.intraOrder = rc.intraOrder

variable (active due : List ContainerId) (rank : ContainerId → ℕ)

/-- The heap holds the candidates of the merge, a container that lost its turn is behind another
one, ranks are reported once, and every due container that left the heap has its head recorded. -/
structure LoopInv (now : ℤ) (s : Collecting T kind) (current : Option ContainerId) (n : ℕ) :
    Prop where
  ready : ∀ rc ∈ s.ready.items, Ready rank now s.containers kind rc
  nodup : (s.ready.items.map ReadyContainer.container).Nodup
  sub : ∀ rc ∈ s.ready.items, rc.container ∈ due
  complete : 0 < n → ∀ e ∈ candidates active (isDue now) (queues kind s.containers),
    e.1 ∈ s.ready.items.map ReadyContainer.container
  behind : ∀ rc ∈ s.ready.items, current = some rc.container →
    ∃ rc' ∈ s.ready.items, rc'.intraOrder < rc.intraOrder
  dirty : ∀ rc ∈ s.ready.items, rc.dirtyReported = true ↔ rc.rank ∈ s.changedContainers
  changed : s.changedContainers.Nodup
  covered : ∀ id ∈ due, id ∈ s.ready.items.map ReadyContainer.container ∨
    (s.containers id).pos ∈ s.headUpdates.map TickHeadUpdate.pos
  exact : ∀ u ∈ s.headUpdates, ∃ id ∈ due,
    id ∉ s.ready.items.map ReadyContainer.container ∧ (s.containers id).pos = u.pos ∧
    u.triggerTick = ((s.containers id).lists kind).head

variable {active due rank}
variable {s : Collecting T kind} {current : Option ContainerId} {n : ℕ} {rc : ReadyContainer}

variable {e : ContainerId × ScheduledTick (T kind)}

theorem Ready.intraOrder_eq {containers : ContainerId → ChunkTickContainer T}
    (h : Ready rank now containers kind rc)
    (he : e ∈ candidates active (isDue now) (queues kind containers))
    (hid : rc.container = e.1) : rc.intraOrder = e.2.intraOrder := by
  obtain ⟨t, ht, -, horder⟩ := h.head
  obtain ⟨-, hhead, -⟩ := mem_candidates.mp he
  rw [hid, hhead] at ht
  obtain rfl := Option.some.inj ht
  exact horder.symm

variable {rc rc' : ReadyContainer}

theorem ReadyContainer.intraOrder_le (h : rc.order ≤ rc'.order) :
    rc.intraOrder ≤ rc'.intraOrder := by
  rcases Prod.Lex.toLex_le_toLex.mp h with hlt | ⟨heq, -⟩
  · exact hlt.le
  · exact heq.le

namespace LoopInv

section

variable (h : LoopInv active due rank now s current n)

include h

theorem exists_entry (hn : 0 < n)
    (he : e ∈ candidates active (isDue now) (queues kind s.containers)) :
    ∃ rc ∈ s.ready.items, rc.container = e.1 ∧ rc.intraOrder = e.2.intraOrder := by
  obtain ⟨rc, hrc, hid⟩ := mem_map.mp (h.complete hn e he)
  exact ⟨rc, hrc, hid, (h.ready rc hrc).intraOrder_eq he hid⟩

theorem eq_of_container (hrc : rc ∈ s.ready.items)
    (hrc' : rc' ∈ s.ready.items) (hid : rc.container = rc'.container) :
    rc = rc' :=
  inj_on_of_nodup_map h.nodup hrc hrc' hid

theorem eq_of_rank (hrank : ∀ i ∈ due, ∀ j ∈ due, rank i = rank j → i = j)
    (hrc : rc ∈ s.ready.items) (hrc' : rc' ∈ s.ready.items) (heq : rc.rank = rc'.rank) :
    rc = rc' := by
  apply h.eq_of_container hrc hrc'
  apply hrank _ (h.sub rc hrc) _ (h.sub rc' hrc')
  rw [(h.ready rc hrc).rank, (h.ready rc' hrc').rank, heq]

theorem pick_eq (hn : 0 < n) (hdue : ∀ i ∈ due, i ∈ active)
    (hrank : ∀ i ∈ due, ∀ j ∈ due, rank i = rank j → i = j) (hpeek : s.ready.peek = some rc)
    {t : ScheduledTick (T kind)} (ht : (queues kind s.containers rc.container).head? = some t)
    (htdue : t.isDue now = true) :
    pick active rank (isDue now) ScheduledTick.intraOrder
      (queues kind s.containers) current = some (rc.container, t) := by
  have hrc := mem_of_peek hpeek
  have hcand : (rc.container, t) ∈
      candidates active (isDue now) (queues kind s.containers) :=
    mem_candidates.mpr ⟨hdue _ (h.sub rc hrc), ht, htdue⟩
  have htorder : rc.intraOrder = t.intraOrder := (h.ready rc hrc).intraOrder_eq hcand rfl
  apply pick_least hcand
  intro e he hne
  obtain ⟨rc', hrc', hid, horder⟩ := h.exists_entry hn he
  have hle := key_le_of_peek hpeek hrc'
  rw [← horder, ← htorder]
  rcases Prod.Lex.toLex_le_toLex.mp hle with hlt | ⟨heq, hle⟩
  · exact inl hlt
  · refine inr ⟨heq, ?_, ?_⟩
    · rw [(h.ready rc hrc).rank, ← hid, (h.ready rc' hrc').rank]
      apply lt_of_le_of_ne hle
      intro hranks
      apply hne
      rw [← hid, h.eq_of_rank hrank hrc hrc' hranks]
    · intro hcur
      obtain ⟨rc'', hrc'', hlt⟩ := h.behind rc' hrc' (hcur.trans (congrArg some hid.symm))
      have hle' := ReadyContainer.intraOrder_le (key_le_of_peek hpeek hrc'')
      have heq' : rc.intraOrder = rc'.intraOrder := heq
      rw [heq'] at hle'
      exact absurd hlt (not_lt.mpr hle')

/-- What is not later than the best competitor is not later than any other candidate. -/
theorem le_candidates (hn : 0 < n) (hpeek : s.ready.peek = some rc) {order : ℤ ×ₗ ℤ}
    (hle : ∀ o ∈ s.ready.rest.peek.map intraOrder, order ≤ o)
    (he : e ∈ candidates active (isDue now) (queues kind s.containers))
    (hne : e.1 ≠ rc.container) : order ≤ e.2.intraOrder := by
  obtain ⟨rc', hrc', hid, horder⟩ := h.exists_entry hn he
  have hrest : rc' ∈ s.ready.rest.items := by
    rw [items_of_peek hpeek, mem_cons] at hrc'
    rcases hrc' with rfl | hrc'
    · exact absurd hid.symm hne
    · exact hrc'
  cases hbest : s.ready.rest.peek with
  | none =>
    rw [peek_eq_none.mp hbest] at hrest
    cases hrest
  | some best =>
    rw [← horder]
    calc order ≤ best.intraOrder := hle _ (by simp [hbest])
      _ ≤ rc'.intraOrder :=
        ReadyContainer.intraOrder_le (key_le_of_peek hbest hrest)

theorem container_ne_of_mem_rest (hpeek : s.ready.peek = some rc) {rc' : ReadyContainer}
    (hrc' : rc' ∈ s.ready.rest.items) :
    rc'.container ≠ rc.container := by
  have hnodup := h.nodup
  rw [items_of_peek hpeek, map_cons, nodup_cons] at hnodup
  intro hid
  exact hnodup.1 (hid ▸ mem_map_of_mem hrc')

end

theorem mem_of_mem_rest (hpeek : s.ready.peek = some rc) {rc' : ReadyContainer}
    (hrc' : rc' ∈ s.ready.rest.items) : rc' ∈ s.ready.items := by
  rw [items_of_peek hpeek]
  exact mem_cons_of_mem rc hrc'

end LoopInv

/-- The rank of a container is reported when its first tick is taken. -/
def reported (changedContainers : List ℕ) (rc : ReadyContainer) : List ℕ :=
  if rc.dirtyReported then changedContainers else changedContainers ++ [rc.rank]

def replaced (containers : ContainerId → ChunkTickContainer T) (id : ContainerId)
    (list : TickList (T kind)) : ContainerId → ChunkTickContainer T :=
  Function.update containers id ((containers id).setList kind list)

namespace LoopInv

section

variable (h : LoopInv active due rank now s current n)

include h

theorem mem_reported (hrc : rc ∈ s.ready.items) {k : ℕ} :
    k ∈ reported s.changedContainers rc ↔ k ∈ s.changedContainers ∨ k = rc.rank := by
  unfold reported
  split
  case isTrue hdirty =>
    constructor
    · exact inl
    · rintro (hk | rfl)
      · exact hk
      · exact (h.dirty rc hrc).mp hdirty
  case isFalse => simp

theorem reported_nodup (hrc : rc ∈ s.ready.items) : (reported s.changedContainers rc).Nodup := by
  unfold reported
  split
  case isTrue => exact h.changed
  case isFalse hdirty =>
    apply nodup_append.mpr
    refine ⟨h.changed, nodup_singleton _, ?_⟩
    rintro k hk k' hk' rfl
    obtain rfl := mem_singleton.mp hk'
    exact hdirty ((h.dirty rc hrc).mpr hk)

theorem ready_rest (hpeek : s.ready.peek = some rc) (list : TickList (T kind))
    {rc' : ReadyContainer} (hrc' : rc' ∈ s.ready.rest.items) :
    Ready rank now (replaced s.containers rc.container list) kind rc' := by
  have hne := h.container_ne_of_mem_rest hpeek hrc'
  obtain ⟨hlife, hpos, hrank, t, ht, hdue, horder⟩ := h.ready rc' (mem_of_mem_rest hpeek hrc')
  refine ⟨?_, ?_, hrank, t, ?_, hdue, horder⟩
  · rwa [replaced, update_of_ne hne]
  · rwa [replaced, update_of_ne hne]
  · rwa [replaced, queues_update, update_of_ne hne]

theorem dirty_rest (hrank : ∀ i ∈ due, ∀ j ∈ due, rank i = rank j → i = j)
    (hpeek : s.ready.peek = some rc) {rc' : ReadyContainer} (hrc' : rc' ∈ s.ready.rest.items) :
    rc'.dirtyReported = true ↔ rc'.rank ∈ reported s.changedContainers rc := by
  have hrc := mem_of_peek hpeek
  have hmem := mem_of_mem_rest hpeek hrc'
  rw [h.mem_reported hrc, ← h.dirty rc' hmem, or_iff_left]
  intro heq
  exact h.container_ne_of_mem_rest hpeek hrc'
    (congrArg ReadyContainer.container (h.eq_of_rank hrank hmem hrc heq))

theorem complete_rest (hn : 0 < n) (hpeek : s.ready.peek = some rc) (list : TickList (T kind))
    (he : e ∈ candidates active (isDue
      now) (queues kind (replaced s.containers rc.container list))) (hne : e.1 ≠ rc.container) :
    e.1 ∈ s.ready.rest.items.map ReadyContainer.container := by
  rw [replaced, queues_update, mem_candidates_update hne] at he
  have hmem := h.complete hn e he
  rw [items_of_peek hpeek, map_cons, mem_cons] at hmem
  exact hmem.resolve_left hne

theorem exact_replaced (hpeek : s.ready.peek = some rc) (list : TickList (T kind))
    {u : TickHeadUpdate} (hu : u ∈ s.headUpdates) : ∃ id ∈ due, id ≠ rc.container ∧
      id ∉ s.ready.rest.items.map ReadyContainer.container ∧
      (replaced s.containers rc.container list id).pos = u.pos ∧
      u.triggerTick = ((replaced s.containers rc.container list id).lists kind).head := by
  obtain ⟨id, hid, hnot, hpos, hhead⟩ := h.exact u hu
  rw [items_of_peek hpeek, map_cons, mem_cons, not_or] at hnot
  refine ⟨id, hid, hnot.1, hnot.2, ?_, ?_⟩
  · rwa [replaced, update_of_ne hnot.1]
  · rwa [replaced, update_of_ne hnot.1]

end

theorem replaced_pos (i id : ContainerId)
    (list : TickList (T kind)) : (replaced containers i list id).pos = (containers id).pos := by
  unfold replaced
  by_cases h : id = i
  · subst h
    simp
  · simp [h]

section

variable (h : LoopInv active due rank now s current n) (hn : 0 < n)
  (hrank : ∀ i ∈ due, ∀ j ∈ due, rank i = rank j → i = j) (hpeek : s.ready.peek = some rc)

include h hn hrank hpeek

variable {ticks : List (ScheduledTick (T kind))} {list : TickList (T kind)}

theorem leave {m : ℕ} (hlast : 0 < m → ∀ t, list.live.head? = some t → t.isDue now = false) :
    LoopInv active due rank now ⟨replaced s.containers rc.container list, s.ready.rest, ticks,
      reported s.changedContainers rc, s.headUpdates ++ [⟨rc.pos, list.head⟩]⟩
      (some rc.container) m where
  ready rc' hrc' := h.ready_rest hpeek list hrc'
  nodup := by
    have hnodup := h.nodup
    rw [items_of_peek hpeek, map_cons] at hnodup
    exact hnodup.of_cons
  sub rc' hrc' := h.sub rc' (mem_of_mem_rest hpeek hrc')
  complete hm e he := by
    apply h.complete_rest hn hpeek list he
    intro hid
    obtain ⟨-, hhead, hdue⟩ := mem_candidates.mp he
    rw [replaced, queues_update, hid, update_self] at hhead
    rw [hlast hm _ hhead] at hdue
    cases hdue
  behind rc' hrc' hcur :=
    absurd (Option.some.inj hcur).symm (h.container_ne_of_mem_rest hpeek hrc')
  dirty rc' hrc' := h.dirty_rest hrank hpeek hrc'
  changed := h.reported_nodup (mem_of_peek hpeek)
  covered id hid := by
    rw [replaced_pos, map_append, mem_append]
    rcases h.covered id hid with hmem | hmem
    · rw [items_of_peek hpeek, map_cons, mem_cons] at hmem
      rcases hmem with rfl | hmem
      · right; right
        rw [(h.ready rc (mem_of_peek hpeek)).pos]
        exact mem_singleton_self _
      · exact inl hmem
    · exact inr (inl hmem)
  exact u hu := by
    rcases mem_append.mp hu with hu | hu
    · obtain ⟨id, hid, -, hnot, hpos, hhead⟩ := h.exact_replaced hpeek list hu
      exact ⟨id, hid, hnot, hpos, hhead⟩
    · obtain rfl := mem_singleton.mp hu
      have hrc := mem_of_peek hpeek
      refine ⟨rc.container, h.sub rc hrc, ?_, ?_, ?_⟩
      · intro hmem
        obtain ⟨rc', hrc', hid⟩ := mem_map.mp hmem
        exact h.container_ne_of_mem_rest hpeek hrc' hid
      · rw [replaced_pos]
        exact (h.ready rc hrc).pos
      · simp [replaced]

/-- A container goes back into the heap with its new head, behind its competitor. -/
theorem pushBack {m : ℕ} {next : ScheduledTick (T kind)} (hnext : list.live.head? = some next)
    (hdue : next.isDue now = true)
    (hbehind : ∃ order ∈ s.ready.rest.peek.map intraOrder, order < next.intraOrder) :
    LoopInv active due rank now ⟨replaced s.containers rc.container list,
      s.ready.rest.push ({ rc with dirtyReported := true }.refresh next), ticks,
      reported s.changedContainers rc, s.headUpdates⟩ (some rc.container) m := by
  have hrc := mem_of_peek hpeek
  have hperm := (s.ready.rest.items_push_perm
    ({ rc with dirtyReported := true }.refresh next)).map ReadyContainer.container
  have hids : ∀ id, id ∈ (s.ready.rest.push
      ({ rc with dirtyReported := true }.refresh next)).items.map ReadyContainer.container ↔
      id = rc.container ∨ id ∈ s.ready.rest.items.map ReadyContainer.container := by
    intro id
    rw [hperm.mem_iff, map_cons, mem_cons]
    rfl
  have hold : ∀ id, id ∈ s.ready.items.map ReadyContainer.container ↔
      id = rc.container ∨ id ∈ s.ready.rest.items.map ReadyContainer.container := by
    intro id
    rw [items_of_peek hpeek, map_cons, mem_cons]
  constructor
  case ready =>
    intro rc' hrc'
    rcases mem_push.mp hrc' with rfl | hrc'
    · obtain ⟨hlife, hpos, hrank', -⟩ := h.ready rc hrc
      refine ⟨?_, (replaced_pos ..).trans hpos, hrank', next, ?_, hdue, rfl⟩
      · simpa [replaced, refresh] using hlife
      · simpa [replaced, queues_update, refresh] using hnext
    · exact h.ready_rest hpeek list hrc'
  case nodup =>
    have hnodup := h.nodup
    rw [items_of_peek hpeek, map_cons] at hnodup
    exact hperm.nodup_iff.mpr hnodup
  case sub =>
    intro rc' hrc'
    rcases mem_push.mp hrc' with rfl | hrc'
    · exact h.sub rc hrc
    · exact h.sub rc' (mem_of_mem_rest hpeek hrc')
  case complete =>
    intro _ e he
    rw [hids]
    by_cases hid : e.1 = rc.container
    · exact inl hid
    · exact inr (h.complete_rest hn hpeek list he hid)
  case behind =>
    intro rc' hrc' hcur
    rcases mem_push.mp hrc' with rfl | hrc'
    · obtain ⟨order, horder, hlt⟩ := hbehind
      obtain ⟨best, hbest, rfl⟩ := Option.mem_map.mp horder
      exact ⟨best, mem_push.mpr (inr (mem_of_peek hbest)), hlt⟩
    · exact absurd (Option.some.inj hcur).symm (h.container_ne_of_mem_rest hpeek hrc')
  case dirty =>
    intro rc' hrc'
    rcases mem_push.mp hrc' with rfl | hrc'
    · exact iff_of_true rfl ((h.mem_reported hrc).mpr (inr rfl))
    · exact h.dirty_rest hrank hpeek hrc'
  case changed => exact h.reported_nodup hrc
  case covered =>
    intro id hid
    rw [replaced_pos, hids, ← hold]
    exact h.covered id hid
  case exact =>
    intro u hu
    obtain ⟨id, hid, hne, hnot, hpos, hhead⟩ := h.exact_replaced hpeek list hu
    refine ⟨id, hid, ?_, hpos, hhead⟩
    rw [hids, not_or]
    exact ⟨hne, hnot⟩

end

end LoopInv

/-- A part of the merge was carried out. -/
structure Merges (rank : ContainerId → ℕ) (s s' : Collecting T kind)
    (trace : List (ContainerId × ScheduledTick (T kind))) : Prop where
  ticks : s'.ticks = s.ticks ++ trace.map Prod.snd
  rest : queues kind s'.containers = after (queues kind s.containers) trace
  changed : ∀ k, k ∈ s'.changedContainers ↔ k ∈ s.changedContainers ∨ ∃ e ∈ trace, rank e.1 = k
  same : SameButLive kind s.containers s'.containers

namespace Merges

variable {s' s'' : Collecting T kind} {trace trace' : List (ContainerId × ScheduledTick (T kind))}

theorem refl (rank : ContainerId → ℕ) (s : Collecting T kind) : Merges rank s s [] := by
  constructor
  · simp
  · rfl
  · simp
  · exact .refl _

theorem trans (h : Merges rank s s' trace) (h' : Merges rank s' s'' trace') :
    Merges rank s s'' (trace ++ trace') := by
  constructor
  · rw [h'.ticks, h.ticks, map_append, append_assoc]
  · rw [h'.rest, h.rest, after_append]
  · intro k
    rw [h'.changed, h.changed, or_assoc]
    simp [or_and_right, exists_or]
  · exact h.same.trans h'.same

theorem turn (h : LoopInv active due rank now s current n) (hpeek : s.ready.peek = some rc)
    {list : TickList (T kind)} {run : List (ScheduledTick (T kind))} (hrun : run ≠ [])
    (hlive : queues kind s.containers rc.container = run ++ list.live)
    (hpending : list.pendingTicks = ((s.containers rc.container).lists kind).pendingTicks)
    {ready : ReadyHeap} {updates : List TickHeadUpdate} :
    Merges rank s ⟨replaced s.containers rc.container list, ready, s.ticks ++ run,
      reported s.changedContainers rc, updates⟩ (run.map fun t => (rc.container, t)) := by
  have hrc := mem_of_peek hpeek
  constructor
  · rw [map_map]
    simp only [comp_def, map_id']
  · rw [after_run hlive]
    exact queues_update s.containers rc.container list
  · intro k
    obtain ⟨t, run, rfl⟩ := exists_cons_of_ne_nil hrun
    rw [h.mem_reported hrc, ← (h.ready rc hrc).rank]
    constructor
    · rintro (hk | rfl)
      · exact inl hk
      · exact inr ⟨(rc.container, t), mem_cons_self, rfl⟩
    · rintro (hk | ⟨e, he, rfl⟩)
      · exact inl hk
      · obtain ⟨t', -, rfl⟩ := mem_map.mp he
        exact inr rfl
  · exact SameButLive.update s.containers rc.container hpending

end Merges

section

variable (hdue : ∀ i ∈ due, i ∈ active)

include hdue

section

variable (hrank : ∀ i ∈ due, ∀ j ∈ due, rank i = rank j → i = j)

include hrank

theorem greedy_turn {n : ℕ}
    (h : LoopInv active due rank now s current n) (hn : 0 < n) (hpeek : s.ready.peek = some rc)
    {tick : ScheduledTick (T kind)} {taken : List (ScheduledTick (T kind))}
    {list : TickList (T kind)}
    (hlive : queues kind s.containers rc.container = tick :: taken ++ list.live)
    (htick : tick.isDue now = true) (hlen : taken.length + 1 ≤ n)
    (hall : ∀ t ∈ taken, t.isDue now = true ∧
      ∀ order ∈ s.ready.rest.peek.map intraOrder, t.intraOrder ≤ order) :
    greedy active rank (isDue now) ScheduledTick.intraOrder n
        (queues kind s.containers) current =
      (tick :: taken).map (fun t => (rc.container, t)) ++
        greedy active rank (isDue now) ScheduledTick.intraOrder
          (n - (taken.length + 1)) (queues kind (replaced s.containers rc.container list))
          (some rc.container) := by
  have hhead : (queues kind s.containers rc.container).head? = some tick := by
    rw [hlive]
    rfl
  have hpick := h.pick_eq hn hdue hrank hpeek hhead htick
  have hadvance : advance (queues kind s.containers) rc.container =
      Function.update (queues kind s.containers) rc.container (taken ++ list.live) := by
    rw [advance, hlive]
    rfl
  obtain ⟨m, rfl⟩ := Nat.exists_eq_add_of_le' hlen
  have hactive := hdue _ (h.sub rc (mem_of_peek hpeek))
  have hrun : greedy active rank (isDue now) ScheduledTick.intraOrder
      (taken.length + m) _ _ = _ := greedy_run hactive
    (update_self rc.container (taken ++ list.live) (queues kind s.containers))
    (fun t ht => (hall t ht).1) fun t ht e he hne =>
      h.le_candidates hn hpeek (hall t ht).2 ((mem_candidates_update hne).mp he) hne
  have hsum : m + (taken.length + 1) = taken.length + m + 1 := by omega
  rw [update_idem] at hrun
  rw [Nat.add_sub_cancel, hsum, greedy_succ hpick, hadvance, hrun, replaced, queues_update]
  rfl

theorem serve_spec [∀ kind, TickKey (T kind)] {maxTicks : ℕ}
    (h : LoopInv active due rank now s current (maxTicks - s.ticks.length))
    (hlt : s.ticks.length < maxTicks) (hpeek : s.ready.peek = some rc) :
    ∃ tick list s' run, ((s.containers rc.container).lists kind).popReady now = some (tick, list) ∧
      serve kind now maxTicks s rc s.ready.rest tick list = s' ∧ Merges rank s s' run ∧
      s.ticks.length < s'.ticks.length ∧ s'.ready.items.length ≤ s.ready.items.length ∧
      greedy active rank (isDue now) ScheduledTick.intraOrder
          (maxTicks - s.ticks.length) (queues kind s.containers) current =
        run ++ greedy active rank (isDue now) ScheduledTick.intraOrder
          (maxTicks - s'.ticks.length) (queues kind s'.containers) (some rc.container) ∧
      LoopInv active due rank now s' (some rc.container) (maxTicks - s'.ticks.length) := by
  have hn : 0 < maxTicks - s.ticks.length := Nat.sub_pos_of_lt hlt
  obtain ⟨tick, hhead, htdue, -⟩ := (h.ready rc (mem_of_peek hpeek)).head
  obtain ⟨list, hpop, hlive, -, hpending⟩ := popReady_of_ready
    (peekReady_eq_some.mpr ⟨hhead, of_decide_eq_true htdue⟩)
  obtain ⟨taken, list', hdrain, hlive', hpending', hlen, hall, hstop⟩ :
      ∃ taken list', drain now _ _ list = (taken, list') ∧ _ :=
    drain_spec (s.ready.rest.peek.map intraOrder)
      (maxTicks - (s.ticks.length + 1)) list
  have hqueue : queues kind s.containers rc.container = tick :: taken ++ list'.live := by
    rw [cons_append, ← hlive', hlive]
    exact (List.cons_head?_tail hhead).symm
  have hgreedy := greedy_turn hdue hrank h hn hpeek hqueue htdue (by omega) hall
  have hticks : maxTicks - (s.ticks ++ tick :: taken).length =
      maxTicks - s.ticks.length - (taken.length + 1) := by
    rw [length_append, length_cons]
    omega
  obtain ⟨ready', updates', hserve, hend⟩ := serve_cases maxTicks s rc s.ready.rest tick hdrain
  refine ⟨tick, list, _, _, hpop, hserve, Merges.turn h hpeek (cons_ne_nil tick taken) hqueue
    (hpending'.trans hpending), ?_, ?_, ?_, ?_⟩
  · simp
  · have hitems := congrArg List.length (items_of_peek hpeek)
    rw [length_cons] at hitems
    rcases hend with ⟨next, -, -, -, rfl, -⟩ | ⟨-, rfl, -⟩
    · rw [(items_push_perm _ _).length_eq, length_cons, hitems]
    · rw [hitems]
      exact le_succ _
  · simp only [hticks]
    exact hgreedy
  · rcases hend with ⟨next, hnext, hnextdue, hmore, rfl, rfl⟩ | ⟨hlast, rfl, rfl⟩
    · apply h.pushBack hn hrank hpeek hnext hnextdue
      rcases hstop with hfull | hbehind
      · rw [length_append, length_cons] at hmore
        omega
      · exact hbehind next hnext hnextdue
    · apply h.leave hn hrank hpeek
      intro hpos t ht
      rw [← Bool.not_eq_true]
      intro htdue'
      have hle := hlast t ht htdue'
      simp only at hpos
      omega

theorem collectLoop_spec [∀ kind, TickKey (T kind)] {maxTicks fuel : ℕ}
    (h : LoopInv active due rank now s current (maxTicks - s.ticks.length))
    (hfuel : maxTicks - s.ticks.length + s.ready.items.length < fuel) :
    ∃ s' current', collectLoop kind now maxTicks fuel s = some s' ∧
      Merges rank s s' (greedy active rank (isDue now) ScheduledTick.intraOrder
        (maxTicks - s.ticks.length) (queues kind s.containers) current) ∧
      LoopInv active due rank now s' current' (maxTicks - s'.ticks.length) := by
  induction fuel generalizing s current with
  | zero => exact absurd hfuel (not_lt_zero _)
  | succ fuel ih =>
    by_cases hfull : maxTicks ≤ s.ticks.length
    · refine ⟨s, current, by simp only [collectLoop, hfull, if_true], ?_, h⟩
      rw [Nat.sub_eq_zero_of_le hfull]
      exact .refl rank s
    · have hlt := not_le.mp hfull
      cases hpeek : s.ready.peek with
      | none =>
        have hpop : s.ready.pop = none := by rw [PriorityQueue.pop, hpeek, Option.map_none]
        refine ⟨s, current, by simp only [collectLoop, hfull, if_false, hpop], ?_, h⟩
        rw [greedy_of_no_candidates]
        · exact .refl rank s
        · intro e he
          have hmem := h.complete (Nat.sub_pos_of_lt hlt) e he
          rw [peek_eq_none.mp hpeek] at hmem
          cases hmem
      | some rc =>
        obtain ⟨tick, list, s₁, run, hready, hserve, hmerges, hmore, hheap, hgreedy, h₁⟩ :=
          serve_spec hdue hrank h hlt hpeek
        obtain ⟨s', current', hloop, hrest, h'⟩ := ih h₁ (by omega)
        refine ⟨s', current', ?_, ?_, h'⟩
        · have hpop : s.ready.pop = some (rc, s.ready.rest) := by
            rw [PriorityQueue.pop, hpeek, Option.map_some]
          have hlife := (h.ready rc (mem_of_peek hpeek)).lifecycle
          simp [collectLoop, hfull, hpop, hlife, hready, hserve, hloop]
        · rw [hgreedy]
          exact hmerges.trans hrest

end

end

end Loop

theorem prepareReadyContainers_spec {containers : ContainerId → ChunkTickContainer T}
    {due : List ActiveTickContainer} {ready : ReadyHeap} {updates : List TickHeadUpdate}
    (hdue : ∀ a ∈ due, (containers a.container).lifecycle = .registered ∧
      ∃ t, (queues kind containers a.container).head? = some t ∧ t.isDue now = true) :
    ∃ ready', prepareReadyContainers kind now containers due ready updates =
        some (ready', updates) ∧
      (ready'.items.map ReadyContainer.container).Perm
        (due.map container ++ ready.items.map ReadyContainer.container) ∧
      ∀ rc ∈ ready'.items, rc ∈ ready.items ∨ ∃ a ∈ due, ∃ t,
        (queues kind containers a.container).head? = some t ∧ t.isDue now = true ∧
        rc = .new a t false := by
  induction due generalizing ready with
  | nil => exact ⟨ready, rfl, .refl _, fun rc hrc => inl hrc⟩
  | cons a due ih =>
    obtain ⟨hlife, t, ht, htdue⟩ := hdue a mem_cons_self
    obtain ⟨ready', hprep, hperm, hnew⟩ :=
      @ih (ready.push (.new a t false)) fun b hb => hdue b (mem_cons_of_mem a hb)
    have hpeek : ((containers a.container).lists kind).peek = some t := peek_eq.trans ht
    have hle : t.triggerTick ≤ now := of_decide_eq_true htdue
    refine ⟨ready', ?_, ?_, ?_⟩
    · simp [prepareReadyContainers, hlife, hpeek, hle, hprep]
    · have hpush := (ready.items_push_perm (.new a t false)).map ReadyContainer.container
      exact (hperm.trans (hpush.append_left _)).trans perm_middle
    · intro rc hrc
      rcases hnew rc hrc with hrc | ⟨b, hb, t', ht', hdue', rfl⟩
      · rcases mem_push.mp hrc with rfl | hrc
        · exact inr ⟨a, mem_cons_self, t, ht, htdue, rfl⟩
        · exact inl hrc
      · exact inr ⟨b, mem_cons_of_mem a hb, t', ht', hdue', rfl⟩

section Collect

variable (kind now) in
/-- The ticks of the greedy merge of all queues, each with the container it is taken from. -/
def mergedTicks (active : List ContainerId) (rank : ContainerId → ℕ) (maxTicks : ℕ)
    (containers : ContainerId → ChunkTickContainer T) :
    List (ContainerId × ScheduledTick (T kind)) :=
  greedy active rank (isDue now) ScheduledTick.intraOrder maxTicks
    (queues kind containers) none

/-- The batch is the greedy merge, and nothing but its ticks leaves the queues. -/
structure Collects (now : ℤ) (active : List ContainerId) (rank : ContainerId → ℕ) (maxTicks : ℕ)
    (containers : ContainerId → ChunkTickContainer T) (batch : ScheduledTickBatch (T kind))
    (containers' : ContainerId → ChunkTickContainer T) : Prop where
  ticks : batch.ticks = (mergedTicks kind now active rank maxTicks containers).map Prod.snd
  taken : ∀ id, queues kind containers id =
    ((mergedTicks kind now active rank maxTicks containers).filter
      fun e => e.1 = id).map Prod.snd ++
      queues kind containers' id
  same : SameButLive kind containers containers'
  changed_nodup : batch.changedContainers.Nodup
  changed : ∀ k, k ∈ batch.changedContainers ↔
    ∃ e ∈ mergedTicks kind now active rank maxTicks containers, rank e.1 = k

theorem Collects.queue_eq {active : List ContainerId} {rank : ContainerId → ℕ} {maxTicks : ℕ}
    {containers containers' : ContainerId → ChunkTickContainer T}
    {batch : ScheduledTickBatch (T kind)}
    (h : Collects now active rank maxTicks containers batch containers') {id : ContainerId}
    (hid : ∀ t, (id, t) ∉ candidates active (isDue now) (queues kind containers)) :
    queues kind containers' id = queues kind containers id := by
  have hnone : (mergedTicks kind now active rank maxTicks containers).filter
      (fun e => e.1 = id) = [] := by
    rw [filter_eq_nil_iff]
    intro e he heq
    obtain ⟨t, ht⟩ := greedy_mem_head he
    rw [of_decide_eq_true heq] at ht
    exact hid t ht
  rw [h.taken id, hnone, map_nil, nil_append]

theorem collects_nil {active : List ContainerId} {rank : ContainerId → ℕ} {maxTicks : ℕ}
    {containers : ContainerId → ChunkTickContainer T}
    (h : mergedTicks kind now active rank maxTicks containers = []) :
    Collects now active rank maxTicks containers (⟨[], []⟩ : ScheduledTickBatch (T kind))
      containers := by
  constructor
  · rw [h]
    rfl
  · intro id
    rw [h]
    rfl
  · exact .refl _
  · exact nodup_nil
  · simp [h]

/-- The due containers are the containers of the candidates. -/
structure DueContainers (kind : TickKind) (now : ℤ) (active : List ContainerId)
    (rank : ContainerId → ℕ) (containers : ContainerId → ChunkTickContainer T)
    (due : List ActiveTickContainer) : Prop where
  lifecycle : ∀ a ∈ due, (containers a.container).lifecycle = .registered
  pos : ∀ a ∈ due, (containers a.container).pos = a.pos
  rank : ∀ a ∈ due, rank a.container = a.rank
  isActive : ∀ a ∈ due, a.container ∈ active
  head : ∀ a ∈ due, ∃ t, (queues kind containers a.container).head? = some t ∧ t.isDue now = true
  nodup : (due.map container).Nodup
  complete : ∀ e ∈ candidates active (isDue now) (queues kind containers),
    e.1 ∈ due.map container

variable {active : List ContainerId} {rank : ContainerId → ℕ} {maxTicks : ℕ}
variable {containers : ContainerId → ChunkTickContainer T} {due : List ActiveTickContainer}

theorem DueContainers.loopInv (h : DueContainers kind now active rank containers due)
    {ready : ReadyHeap} {n : ℕ}
    (hperm : (ready.items.map ReadyContainer.container).Perm
      (due.map container))
    (hnew : ∀ rc ∈ ready.items, ∃ a ∈ due, ∃ t,
      (queues kind containers a.container).head? = some t ∧ t.isDue now = true ∧
      rc = .new a t false) :
    LoopInv active (due.map container) rank now
      (⟨containers, ready, [], [], []⟩ : Collecting T kind) none n where
  ready rc hrc := by
    obtain ⟨a, ha, t, ht, htdue, rfl⟩ := hnew rc hrc
    exact ⟨h.lifecycle a ha, h.pos a ha, h.rank a ha, t, ht, htdue, rfl⟩
  nodup := hperm.nodup_iff.mpr h.nodup
  sub rc hrc := hperm.mem_iff.mp (mem_map_of_mem hrc)
  complete _ e he := hperm.mem_iff.mpr (h.complete e he)
  behind _ _ hcur := by cases hcur
  dirty rc hrc := by
    obtain ⟨a, -, t, -, -, rfl⟩ := hnew rc hrc
    simp [ReadyContainer.new]
  changed := nodup_nil
  covered id hid := inl (hperm.mem_iff.mpr hid)
  exact _ hu := by cases hu

theorem collectRegisteredTicks_spec [∀ kind, TickKey (T kind)]
    (h : DueContainers kind now active rank containers due)
    (hrank : ∀ i ∈ active, ∀ j ∈ active, rank i = rank j → i = j) :
    ∃ batch updates containers', collectRegisteredTicks kind now containers due maxTicks =
        some (batch, updates, containers') ∧
      Collects now active rank maxTicks containers batch containers' ∧
      (∀ a ∈ due, a.pos ∈ updates.map TickHeadUpdate.pos) ∧
      ∀ u ∈ updates, ∃ a ∈ due, a.pos = u.pos ∧
        u.triggerTick = ((containers' a.container).lists kind).head := by
  obtain ⟨ready, hprep, hperm, hnew⟩ :=
    @prepareReadyContainers_spec T kind now containers due .empty []
      fun a ha => ⟨h.lifecycle a ha, h.head a ha⟩
  rw [items_empty, map_nil, append_nil] at hperm
  have hnew' : ∀ rc ∈ ready.items, ∃ a ∈ due, ∃ t,
      (queues kind containers a.container).head? = some t ∧ t.isDue now = true ∧
      rc = .new a t false := by
    intro rc hrc
    exact (hnew rc hrc).resolve_left not_mem_nil
  have hactive : ∀ i ∈ due.map container, i ∈ active := by
    intro i hi
    obtain ⟨a, ha, rfl⟩ := mem_map.mp hi
    exact h.isActive a ha
  obtain ⟨s', current, hloop, hmerges, h'⟩ : ∃ s' current, collectLoop kind now maxTicks
      (maxTicks + ready.items.length + 1) ⟨containers, ready, [], [], []⟩ = some s' ∧ _ :=
    collectLoop_spec hactive (fun i hi j hj => hrank i (hactive i hi) j (hactive j hj))
      (h.loopInv hperm hnew') (lt_succ_self _)
  refine ⟨⟨s'.ticks, s'.changedContainers⟩, s'.headUpdates ++ s'.ready.items.map fun rc =>
    ⟨rc.pos, ((s'.containers rc.container).lists kind).head⟩, s'.containers, ?_, ?_, ?_, ?_⟩
  · simp [collectRegisteredTicks, hprep, hloop]
  · constructor
    · exact hmerges.ticks
    · intro id
      rw [hmerges.rest]
      exact queue_eq_taken_append id
    · exact hmerges.same
    · exact h'.changed
    · intro k
      rw [hmerges.changed]
      simp [mergedTicks]
  · intro a ha
    have hpos : (s'.containers a.container).pos = a.pos :=
      (hmerges.same.pos _).trans (h.pos a ha)
    rw [map_append, mem_append]
    rcases h'.covered a.container (mem_map_of_mem ha) with hmem | hmem
    · right
      obtain ⟨rc, hrc, hid⟩ := mem_map.mp hmem
      refine mem_map.mpr ⟨_, mem_map_of_mem hrc, ?_⟩
      rw [← hpos, ← hid]
      exact (h'.ready rc hrc).pos.symm
    · exact inl (hpos ▸ hmem)
  · intro u hu
    have hfrom : ∃ id ∈ due.map container, (s'.containers id).pos = u.pos ∧
        u.triggerTick = ((s'.containers id).lists kind).head := by
      rcases mem_append.mp hu with hu | hu
      · obtain ⟨id, hid, -, hpos, hhead⟩ := h'.exact u hu
        exact ⟨id, hid, hpos, hhead⟩
      · obtain ⟨rc, hrc, rfl⟩ := mem_map.mp hu
        exact ⟨rc.container, h'.sub rc hrc, (h'.ready rc hrc).pos, rfl⟩
    obtain ⟨id, hid, hpos, hhead⟩ := hfrom
    obtain ⟨a, ha, rfl⟩ := mem_map.mp hid
    exact ⟨a, ha, (h.pos a ha).symm.trans ((hmerges.same.pos _).symm.trans hpos), hhead⟩

end Collect

end Steel
