import Mathlib.Data.Nat.SuccPred
import Mathlib.Order.Lattice.Nat
import Steel.Chunk.ChunkTicketManager
import Steel.Lib.Run

/-! # Propagated levels

A propagation enters one candidate level for every chunk in the square around every source and keeps
the least one.
-/

namespace Steel

open List Multiset Function ChunkTicket Option Nat

namespace ChunkTicketLevel

variable {level l : ChunkTicketLevel} {distance : ℕ}

theorem withDistance_eq_some : level.withDistance distance = some l ↔
    l.raw = level.raw + distance := by
  have hmax := maxLevelRaw_eq
  have hl := l.le_max
  unfold withDistance ChunkTicketLevel.new
  split
  case isTrue h =>
    rw [Option.some.injEq]
    constructor
    · rintro rfl
      simp only
      omega
    · intro heq
      apply raw_injective
      simp only
      omega
  case isFalse h =>
    constructor
    · intro hnone
      cases hnone
    · intro heq
      omega

end ChunkTicketLevel

namespace ChunkTicketManager

open ChunkTicketLevel

theorem mem_offsets {radius : ℕ} {d : ℤ} : d ∈ offsets radius ↔ d.natAbs ≤ radius := by
  simp only [offsets, List.mem_map, List.mem_range]
  constructor
  · rintro ⟨i, hi, rfl⟩
    omega
  · intro hd
    exact ⟨(d + radius).toNat, by omega, by omega⟩

def shift (source : ChunkPos) (dx dy : ℤ) : ChunkPos :=
  ⟨source.x + Int32.ofInt dx, source.z + Int32.ofInt dy⟩

def painted (source : ChunkPos) (level : ChunkTicketLevel) (radius : ℕ) :
    List (ChunkPos × ChunkTicketLevel) :=
  (offsets radius).flatMap fun dy => (offsets radius).filterMap fun dx =>
    (level.withDistance (max dx.natAbs dy.natAbs % 256)).map fun l => (shift source dx dy, l)

theorem paint_eq (source : ChunkPos) (level : ChunkTicketLevel) (radius : ℕ) (levels : Levels) :
    paint source level radius levels =
      (painted source level radius).foldl (fun m e => insertLeast m e.1 e.2) levels := by
  rw [paint, painted, foldl_flatMap]
  congr 1
  funext levels dy
  rw [foldl_filterMap]
  congr 1
  funext levels dx
  simp only [paintAt]
  cases level.withDistance (max dx.natAbs dy.natAbs % 256) <;> rfl

variable {source p : ChunkPos} {level l : ChunkTicketLevel} {radius : ℕ}

theorem mem_painted (hradius : radius < 256) :
    (p, l) ∈ painted source level radius ↔ ∃ dx dy : ℤ, dx.natAbs ≤ radius ∧ dy.natAbs ≤ radius ∧
      p = shift source dx dy ∧ l.raw = level.raw + max dx.natAbs dy.natAbs := by
  simp only [painted, mem_flatMap, List.mem_filterMap, map_eq_some_iff, mem_offsets,
    withDistance_eq_some, Prod.mk.injEq]
  constructor
  · rintro ⟨dy, hdy, dx, hdx, l', hl', rfl, rfl⟩
    rw [mod_eq_of_lt (by omega)] at hl'
    exact ⟨dx, dy, hdx, hdy, rfl, hl'⟩
  · rintro ⟨dx, dy, hdx, hdy, rfl, hl⟩
    refine ⟨dy, hdy, dx, hdx, l, ?_, rfl, rfl⟩
    rw [mod_eq_of_lt (by omega)]
    exact hl

def chebyshev (p q : ChunkPos) : ℕ :=
  max (p.x.toInt - q.x.toInt).natAbs (p.z.toInt - q.z.toInt).natAbs

/-- Far enough from the limits of the coordinates for every ticket. -/
def Inland (pos : ChunkPos) : Prop :=
  (-2 ^ 31 + maxLevelRaw ≤ pos.x.toInt ∧ pos.x.toInt + maxLevelRaw < 2 ^ 31) ∧
    (-2 ^ 31 + maxLevelRaw ≤ pos.z.toInt ∧ pos.z.toInt + maxLevelRaw < 2 ^ 31)

theorem toInt_add_ofInt {a : Int32} {d : ℤ} (hmin : -2 ^ 31 ≤ a.toInt + d)
    (hmax : a.toInt + d < 2 ^ 31) (hd : d.natAbs < 256) :
    (a + Int32.ofInt d).toInt = a.toInt + d := by
  rw [Int32.toInt_add, Int32.toInt_ofInt_of_le (by omega) (by omega)]
  exact Int.bmod_eq_of_le (by omega) (by omega)

theorem eq_add_ofInt_iff {a b : Int32} {d : ℤ} (hmin : -2 ^ 31 ≤ a.toInt + d)
    (hmax : a.toInt + d < 2 ^ 31) (hd : d.natAbs < 256) :
    b = a + Int32.ofInt d ↔ b.toInt - a.toInt = d := by
  rw [← Int32.toInt_inj, toInt_add_ofInt hmin hmax hd]
  omega

theorem mem_painted_of_inland (hsource : Inland source) (hradius : radius ≤ maxLevelRaw) :
    (p, l) ∈ painted source level radius ↔
      chebyshev p source ≤ radius ∧ l.raw = level.raw + chebyshev p source := by
  have hmax := maxLevelRaw_eq
  obtain ⟨⟨hx, hx'⟩, hz, hz'⟩ := hsource
  rw [mem_painted (by omega)]
  constructor
  · rintro ⟨dx, dy, hdx, hdy, rfl, hl⟩
    have hxd : (shift source dx dy).x.toInt - source.x.toInt = dx :=
      (eq_add_ofInt_iff (by omega) (by omega) (by omega)).mp rfl
    have hzd : (shift source dx dy).z.toInt - source.z.toInt = dy :=
      (eq_add_ofInt_iff (by omega) (by omega) (by omega)).mp rfl
    rw [chebyshev, hxd, hzd]
    exact ⟨by omega, hl⟩
  · rintro ⟨hdistance, hl⟩
    have hdx : (p.x.toInt - source.x.toInt).natAbs ≤ radius := (le_max_left ..).trans hdistance
    have hdz : (p.z.toInt - source.z.toInt).natAbs ≤ radius := (le_max_right ..).trans hdistance
    refine ⟨p.x.toInt - source.x.toInt, p.z.toInt - source.z.toInt, hdx, hdz, ?_, hl⟩
    rw [shift, ChunkPos.mk.injEq]
    exact ⟨(eq_add_ofInt_iff (by omega) (by omega) (by omega)).mpr rfl,
      (eq_add_ofInt_iff (by omega) (by omega) (by omega)).mpr rfl⟩

def loadCandidates (source : ChunkPos) (tickets : List ChunkTicket) :
    List (ChunkPos × ChunkTicketLevel) :=
  match (tickets.map loadLevel).min? with
  | none => []
  | some level => painted source level level.distanceToMax

def simulationCandidates (source : ChunkPos) (tickets : List ChunkTicket) :
    List (ChunkPos × ChunkTicketLevel) :=
  match (tickets.filterMap simulationLevel).min? with
  | none => []
  | some level => painted source level level.distanceToBlockTicking

theorem propagate_eq (source : ChunkPos) (tickets : List ChunkTicket) (levels : Levels × Levels) :
    propagate source tickets levels =
      ((loadCandidates source tickets).foldl (fun m e => insertLeast m e.1 e.2) levels.1,
        (simulationCandidates source tickets).foldl (fun m e => insertLeast m e.1 e.2)
          levels.2) := by
  unfold propagate loadCandidates simulationCandidates
  cases hload : (tickets.map loadLevel).min? with
  | none =>
    obtain rfl := map_eq_nil_iff.mp (List.min?_eq_none_iff.mp hload)
    rfl
  | some level =>
    cases (tickets.filterMap simulationLevel).min? with
    | none => simp only [paint_eq, foldl_nil]
    | some level' => simp only [paint_eq]

variable {m : ChunkTicketManager} {order : Iteration ChunkPos}

def ticketsAt (m : ChunkTicketManager) (pos : ChunkPos) : List ChunkTicket :=
  (m.tickets.lookup pos).getD []

theorem foldl_propagate (f : ChunkPos → List ChunkTicket) (sources : List ChunkPos)
    (levels : Levels × Levels) :
    sources.foldl (fun levels pos => propagate pos (f pos) levels) levels =
      ((sources.flatMap fun pos => loadCandidates pos (f pos)).foldl
          (fun m e => insertLeast m e.1 e.2) levels.1,
        (sources.flatMap fun pos => simulationCandidates pos (f pos)).foldl
          (fun m e => insertLeast m e.1 e.2) levels.2) := by
  induction sources generalizing levels with
  | nil => rfl
  | cons source sources ih =>
    rw [List.foldl_cons, ih, propagate_eq, flatMap_cons, flatMap_cons, foldl_append, foldl_append]

theorem mem_keys_of_mem {source : ChunkPos} {t : ChunkTicket} (h : t ∈ m.ticketsAt source) :
    source ∈ order.keys m.tickets := by
  rw [Iteration.mem_keys]
  unfold ticketsAt at h
  cases hlookup : m.tickets.lookup source with
  | none =>
    rw [hlookup] at h
    cases h
  | some tickets => rfl

variable (order) in
theorem mem_flatMap_keys {f : ChunkPos → List ChunkTicket → List (ChunkPos × ChunkTicketLevel)}
    (hf : ∀ source, f source [] = []) {e : ChunkPos × ChunkTicketLevel} :
    (e ∈ (order.keys m.tickets).flatMap fun pos => f pos (m.ticketsAt pos)) ↔
      ∃ source, e ∈ f source (m.ticketsAt source) := by
  rw [mem_flatMap]
  constructor
  · rintro ⟨source, -, he⟩
    exact ⟨source, he⟩
  · rintro ⟨source, he⟩
    refine ⟨source, ?_, he⟩
    cases htickets : m.ticketsAt source with
    | nil =>
      rw [htickets, hf] at he
      cases he
    | cons t ts => exact mem_keys_of_mem (htickets ▸ List.mem_cons_self)

theorem propagateAll_load (p : ChunkPos) : IsLeastOf ((m.propagateAll order).1.lookup p)
      {l | ∃ source, (p, l) ∈ loadCandidates source (m.ticketsAt source)} := by
  simp only [← mem_flatMap_keys order (f := loadCandidates) fun _ => rfl]
  rw [propagateAll, foldl_propagate]
  exact foldl_insertLeast_empty _ p

theorem propagateAll_simulation (p : ChunkPos) : IsLeastOf ((m.propagateAll order).2.lookup p)
      {l | ∃ source, (p, l) ∈ simulationCandidates source (m.ticketsAt source)} := by
  simp only [← mem_flatMap_keys order (f := simulationCandidates) fun _ => rfl]
  rw [propagateAll, foldl_propagate]
  exact foldl_insertLeast_empty _ p

abbrev Held := ChunkPos → Multiset ChunkTicket

/-- The levels that the held tickets give to a chunk, however weak. -/
def loadLevels (held : Held) (p : ChunkPos) : Set ℕ :=
  {n | ∃ q, ∃ t ∈ held q, n = t.loadLevel.raw + chebyshev p q}

def simulatedLevels (held : Held) (p : ChunkPos) : Set ℕ :=
  {n | ∃ q, ∃ t ∈ held q, ∃ s, t.simulationLevel = some s ∧ n = s.raw + chebyshev p q}

def Holds (m : ChunkTicketManager) (held : Held) : Prop :=
  ∀ pos, (m.ticketsAt pos : Multiset ChunkTicket) = held pos

variable {held : Held}

variable {tickets : List ChunkTicket} {pos : ChunkPos}

theorem Holds.mem_iff (h : m.Holds held) {t : ChunkTicket} :
    t ∈ m.ticketsAt pos ↔ t ∈ held pos := by
  rw [← h pos, mem_coe]

theorem mem_loadCandidates (hsource : Inland source) : (p, l) ∈ loadCandidates source tickets ↔
      ∃ level, IsLeastOf (some level) {a | ∃ t ∈ tickets, t.loadLevel = a} ∧
        l.raw = level.raw + chebyshev p source := by
  have hmin := isLeastOf_min? (tickets.map loadLevel)
  simp only [List.mem_map] at hmin
  unfold loadCandidates
  cases hlevel : (tickets.map loadLevel).min? with
  | none =>
    rw [hlevel] at hmin
    constructor
    · intro h
      cases h
    · rintro ⟨level, hleast, -⟩
      exact absurd hleast.1 (hmin level)
  | some level =>
    rw [hlevel] at hmin
    have hmax := l.le_max
    simp only [mem_painted_of_inland hsource (sub_le ..), distanceToMax]
    constructor
    · rintro ⟨-, hl⟩
      exact ⟨level, hmin, hl⟩
    · rintro ⟨level', hleast, hl⟩
      obtain rfl := Option.some.inj (hmin.unique hleast)
      exact ⟨by omega, hl⟩

theorem mem_simulationCandidates (hsource : Inland source) :
    (p, l) ∈ simulationCandidates source tickets ↔
      ∃ level, IsLeastOf (some level) {a | ∃ t ∈ tickets, t.simulationLevel = some a} ∧
        chebyshev p source ≤ level.distanceToBlockTicking ∧
        l.raw = level.raw + chebyshev p source := by
  have hmin := isLeastOf_min? (tickets.filterMap simulationLevel)
  simp only [List.mem_filterMap] at hmin
  unfold simulationCandidates
  cases hlevel : (tickets.filterMap simulationLevel).min? with
  | none =>
    rw [hlevel] at hmin
    constructor
    · intro h
      cases h
    · rintro ⟨level, hleast, -⟩
      exact absurd hleast.1 (hmin level)
  | some level =>
    rw [hlevel] at hmin
    have hradius : level.distanceToBlockTicking ≤ maxLevelRaw :=
      (sub_le ..).trans blockTickingChunk.le_max
    simp only [mem_painted_of_inland hsource hradius]
    constructor
    · rintro ⟨hdistance, hl⟩
      exact ⟨level, hmin, hdistance, hl⟩
    · rintro ⟨level', hleast, hdistance, hl⟩
      obtain rfl := Option.some.inj (hmin.unique hleast)
      exact ⟨hdistance, hl⟩

theorem exists_isLeastOf {s : Set ChunkTicketLevel} {l : List ChunkTicketLevel}
    (hl : ∀ a, a ∈ l ↔ a ∈ s) {a : ChunkTicketLevel} (ha : a ∈ s) :
    ∃ b ≤ a, IsLeastOf (some b) s := by
  have hmin := isLeastOf_min? l
  have hset : {a | a ∈ l} = s := Set.ext hl
  rw [hset] at hmin
  cases hb : l.min? with
  | none =>
    rw [hb] at hmin
    exact absurd ha (hmin a)
  | some b =>
    rw [hb] at hmin
    exact ⟨b, hmin.2 ha, hmin⟩

section

variable (h : m.Holds held) (hinland : ∀ q, ∀ t ∈ held q, Inland q)

include h hinland

theorem exists_loadCandidate {n : ℕ} (hn : n ∈ loadLevels held p) (hmax : n ≤ maxLevelRaw) :
    ∃ source l, (p, l) ∈ loadCandidates source (m.ticketsAt source) ∧ l.raw ≤ n := by
  obtain ⟨q, t, ht, rfl⟩ := hn
  have hq : Inland q := hinland q t ht
  obtain ⟨level, hle, hleast⟩ : ∃ b ≤ t.loadLevel, IsLeastOf (some b)
      {a | ∃ t ∈ m.ticketsAt q, t.loadLevel = a} :=
    exists_isLeastOf (fun a => List.mem_map) ⟨t, h.mem_iff.mpr ht, rfl⟩
  have hraw := le_def.mp hle
  refine ⟨q, ⟨level.raw + chebyshev p q, by omega⟩, ?_, by simp only; omega⟩
  exact (mem_loadCandidates hq).mpr ⟨level, hleast, rfl⟩

theorem raw_mem_loadLevels (hl : (p, l) ∈ loadCandidates source (m.ticketsAt source)) :
    l.raw ∈ loadLevels held p := by
  have hsource : Inland source := by
    cases htickets : m.ticketsAt source with
    | nil =>
      rw [htickets] at hl
      cases hl
    | cons t ts =>
      exact hinland source t (h.mem_iff.mp (htickets ▸ List.mem_cons_self))
  obtain ⟨level, hleast, hraw⟩ := (mem_loadCandidates hsource).mp hl
  obtain ⟨t, ht, rfl⟩ := hleast.1
  exact ⟨source, t, h.mem_iff.mp ht, hraw⟩

theorem exists_simulationCandidate {n : ℕ} (hn : n ∈ simulatedLevels held p)
    (hblock : n ≤ blockTickingChunk.raw) :
    ∃ source l, (p, l) ∈ simulationCandidates source (m.ticketsAt source) ∧ l.raw ≤ n := by
  obtain ⟨q, t, ht, s, hs, rfl⟩ := hn
  obtain ⟨level, hle, hleast⟩ : ∃ b ≤ s, IsLeastOf (some b)
      {a | ∃ t ∈ m.ticketsAt q, t.simulationLevel = some a} :=
    exists_isLeastOf (fun a => List.mem_filterMap) ⟨t, h.mem_iff.mpr ht, hs⟩
  have hraw := le_def.mp hle
  have hmax := blockTickingChunk.le_max
  refine ⟨q, ⟨level.raw + chebyshev p q, by omega⟩, ?_, by simp only; omega⟩
  refine (mem_simulationCandidates (hinland q t ht)).mpr ⟨level, hleast, ?_, rfl⟩
  unfold distanceToBlockTicking
  omega

theorem raw_mem_simulatedLevels (hl : (p, l) ∈ simulationCandidates source (m.ticketsAt source)) :
    l.raw ∈ simulatedLevels held p := by
  have hsource : Inland source := by
    cases htickets : m.ticketsAt source with
    | nil =>
      rw [htickets] at hl
      cases hl
    | cons t ts =>
      exact hinland source t (h.mem_iff.mp (htickets ▸ List.mem_cons_self))
  obtain ⟨level, hleast, -, hraw⟩ := (mem_simulationCandidates hsource).mp hl
  obtain ⟨t, ht, hs⟩ := hleast.1
  exact ⟨source, t, h.mem_iff.mp ht, level, hs, hraw⟩

end

/-- The levels of a manager are those of the held tickets. -/
structure Exact (m : ChunkTicketManager) (held : Held) : Prop where
  some_iff : ∀ p l, m.getLevel p = some l ↔ IsLeast (loadLevels held p) l.raw
  none_iff : ∀ p, m.getLevel p = none ↔ ∀ n ∈ loadLevels held p, maxLevelRaw < n
  block : ∀ p, isBlockTicking (m.getSimulationLevel p) = true ↔
    ∃ n ∈ simulatedLevels held p, n ≤ blockTickingChunk.raw
  entity : ∀ p, isEntityTicking (m.getSimulationLevel p) = true ↔
    ∃ n ∈ simulatedLevels held p, n ≤ entityTickingChunk.raw

theorem any_simulation_iff {o : Option ChunkTicketLevel}
    (ho : IsLeastOf o {l | ∃ source, (p, l) ∈ simulationCandidates source (m.ticketsAt source)})
    (h : m.Holds held) (hinland : ∀ q, ∀ t ∈ held q, Inland q) {bound : ℕ}
    (hbound : bound ≤ blockTickingChunk.raw) :
    (o.any fun l => l.raw ≤ bound) = true ↔ ∃ n ∈ simulatedLevels held p, n ≤ bound := by
  constructor
  · intro hany
    cases o with
    | none => cases hany
    | some l =>
      obtain ⟨source, hl⟩ := ho.1
      exact ⟨l.raw, raw_mem_simulatedLevels h hinland hl, by simpa using hany⟩
  · rintro ⟨n, hn, hle⟩
    obtain ⟨source, l', hl', hle'⟩ := exists_simulationCandidate h hinland hn (hle.trans hbound)
    cases o with
    | none => exact absurd ⟨source, hl'⟩ (ho l')
    | some l =>
      have hleast := le_def.mp (ho.2 ⟨source, hl'⟩)
      have hfinal : l.raw ≤ bound := by omega
      simpa using hfinal

theorem exact_of_least {o : ChunkTicketManager} (hload : ∀ p, IsLeastOf (o.getLevel p)
      {l | ∃ source, (p, l) ∈ loadCandidates source (m.ticketsAt source)})
    (hsimulation : ∀ p, IsLeastOf (o.getSimulationLevel p)
      {l | ∃ source, (p, l) ∈ simulationCandidates source (m.ticketsAt source)})
    (h : m.Holds held) (hinland : ∀ q, ∀ t ∈ held q, Inland q) : Exact o held := by
  have hsome : ∀ p l, o.getLevel p = some l → IsLeast (loadLevels held p) l.raw := by
    intro p l hl
    have hleast := hload p
    rw [hl] at hleast
    obtain ⟨source, hsource⟩ := hleast.1
    refine ⟨raw_mem_loadLevels h hinland hsource, ?_⟩
    intro n hn
    rcases lt_or_ge maxLevelRaw n with hlt | hge
    · exact l.le_max.trans hlt.le
    · obtain ⟨source', l', hl', hle⟩ := exists_loadCandidate h hinland hn hge
      exact (le_def.mp (hleast.2 ⟨source', hl'⟩)).trans hle
  have hnone : ∀ p, o.getLevel p = none → ∀ n ∈ loadLevels held p, maxLevelRaw < n := by
    intro p hp n hn
    have hleast := hload p
    rw [hp] at hleast
    by_contra hle
    obtain ⟨source, l, hl, -⟩ := exists_loadCandidate h hinland hn (not_lt.mp hle)
    exact hleast l ⟨source, hl⟩
  constructor
  case some_iff =>
    intro p l
    refine ⟨hsome p l, ?_⟩
    intro hleast
    cases hp : o.getLevel p with
    | none => exact absurd (hnone p hp _ hleast.1) (not_lt.mpr l.le_max)
    | some l' => rw [raw_injective ((hsome p l' hp).unique hleast)]
  case none_iff =>
    intro p
    refine ⟨hnone p, ?_⟩
    intro hall
    cases hp : o.getLevel p with
    | none => rfl
    | some l => exact absurd (hall _ (hsome p l hp).1) (not_lt.mpr l.le_max)
  case block =>
    intro p
    exact any_simulation_iff (hsimulation p) h hinland le_rfl
  case entity =>
    intro p
    exact any_simulation_iff (hsimulation p) h hinland (by decide)

inductive Op where
  | add (pos : ChunkPos) (ticket : ChunkTicket)
  | remove (pos : ChunkPos) (ticket : ChunkTicket)
  | removeAllAt (pos : ChunkPos)
  | run (order : UpdateOrder)

def step (m : ChunkTicketManager) : Op → ChunkTicketManager
  | .add pos ticket => m.addTicket pos ticket
  | .remove pos ticket => (m.removeTicket pos ticket).2
  | .removeAllAt pos => (m.removeAllTicketsAt pos).2
  | .run order => m.runAllUpdates order

def holdStep (held : Held) : Op → Held
  | .add pos ticket => Function.update held pos (ticket ::ₘ held pos)
  | .remove pos ticket => Function.update held pos ((held pos).erase ticket)
  | .removeAllAt pos => Function.update held pos 0
  | .run _ => held

def Op.Inland : Op → Prop
  | .add pos _ => ChunkTicketManager.Inland pos
  | _ => True

def heldAfter (ops : List Op) : Held := runSteps holdStep (fun _ => 0) ops

theorem ticketsAt_insert {dirty : Bool} :
    ({ m with tickets := m.tickets.insert pos tickets, dirty := dirty } :
      ChunkTicketManager).ticketsAt = Function.update m.ticketsAt pos tickets := by
  funext p
  by_cases hp : p = pos
  · subst hp
    simp [ticketsAt]
  · simp [ticketsAt, hp]

theorem ticketsAt_erase {dirty : Bool} :
    ({ m with tickets := m.tickets.erase pos, dirty := dirty } :
      ChunkTicketManager).ticketsAt = Function.update m.ticketsAt pos [] := by
  funext p
  by_cases hp : p = pos
  · subst hp
    simp [ticketsAt]
  · simp [ticketsAt, hp]

theorem Holds.update (h : m.Holds held) {m' : ChunkTicketManager} {s : Multiset ChunkTicket}
    (hm' : m'.ticketsAt = Function.update m.ticketsAt pos tickets)
    (hs : (tickets : Multiset ChunkTicket) = s) : m'.Holds (Function.update held pos s) := by
  intro p
  rw [hm']
  by_cases hp : p = pos
  · subst hp
    rw [update_self, update_self, hs]
  · rw [update_of_ne hp, update_of_ne hp]
    exact h p

theorem Holds.removeTicket (h : m.Holds held) (pos : ChunkPos) (ticket : ChunkTicket) :
    (m.removeTicket pos ticket).2.Holds (Function.update held pos ((held pos).erase ticket)) ∧
      ((m.removeTicket pos ticket).2.dirty = false → (m.removeTicket pos ticket).2 = m) := by
  have habsent : ticket ∉ m.ticketsAt pos → Function.update held pos ((held pos).erase ticket) =
      held := by
    intro hnot
    rw [h.mem_iff] at hnot
    rw [erase_of_notMem hnot, update_eq_self]
  unfold ChunkTicketManager.removeTicket
  cases hlookup : m.tickets.lookup pos with
  | none =>
    refine ⟨?_, fun _ => rfl⟩
    rw [habsent]
    · exact h
    · simp [ticketsAt, hlookup]
  | some tickets =>
    have htickets : m.ticketsAt pos = tickets := by simp [ticketsAt, hlookup]
    cases hidx : tickets.findIdx? fun stored => stored = ticket with
    | none =>
      simp only [hidx]
      refine ⟨?_, fun _ => trivial⟩
      rw [habsent]
      · exact h
      · rw [htickets]
        intro hmem
        simpa using List.findIdx?_eq_none_iff.mp hidx ticket hmem
    | some idx =>
      obtain ⟨hlt, hget, -⟩ := List.findIdx?_eq_some_iff_getElem.mp hidx
      have hget' : tickets[idx] = ticket := by simpa using hget
      have hperm : (swapRemove tickets idx : Multiset ChunkTicket) = (held pos).erase ticket := by
        have hcons := getElem_cons_eraseIdx_perm hlt
        rw [hget'] at hcons
        rw [← h pos, htickets, ← coe_eq_coe.mpr hcons, ← cons_coe, Multiset.erase_cons_head]
        exact coe_eq_coe.mpr (swapRemove_perm hlt)
      simp only [hidx]
      refine ⟨?_, fun hdirty => by cases hdirty⟩
      split
      case isTrue hempty =>
        exact h.update ticketsAt_erase (by rw [← hempty, hperm])
      case isFalse => exact h.update ticketsAt_insert hperm

/-- The manager holds the tickets, and its levels are exact unless it is dirty. -/
structure Inv (m : ChunkTicketManager) (held : Held) : Prop where
  holds : m.Holds held
  inland : ∀ q, ∀ t ∈ held q, Inland q
  clean : m.dirty = false → Exact m held

theorem inv_new : Inv new fun _ => 0 := by
  have hload : ∀ p, loadLevels (fun _ => 0) p = ∅ := by
    simp [loadLevels]
  have hsimulated : ∀ p, simulatedLevels (fun _ => 0) p = ∅ := by
    intro p
    simp [simulatedLevels]
  constructor
  · intro pos
    rfl
  · simp
  · intro _
    constructor
    · intro p l
      simp [new, getLevel, hload, IsLeast]
    · intro p
      simp [new, getLevel, hload]
    · intro p
      simp [new, getSimulationLevel, hsimulated, isBlockTicking]
    · intro p
      simp [new, getSimulationLevel, hsimulated, isEntityTicking]

theorem Inv.runAllUpdates (h : Inv m held) (order : UpdateOrder) :
    Inv (m.runAllUpdates order) held ∧ (m.runAllUpdates order).dirty = false := by
  unfold ChunkTicketManager.runAllUpdates
  cases hdirty : m.dirty with
  | false => exact ⟨⟨h.holds, h.inland, fun _ =>
      ⟨(h.clean hdirty).1, (h.clean hdirty).2, (h.clean hdirty).3, (h.clean hdirty).4⟩⟩, rfl⟩
  | true =>
    refine ⟨⟨h.holds, h.inland, fun _ => ?_⟩, rfl⟩
    exact exact_of_least propagateAll_load propagateAll_simulation h.holds h.inland

theorem Inv.step (h : Inv m held) {op : Op} (hop : op.Inland) :
    Inv (m.step op) (holdStep held op) := by
  cases op with
  | add pos ticket =>
    refine ⟨h.holds.update ticketsAt_insert ?_, ?_, fun hdirty => by cases hdirty⟩
    · rw [← h.holds pos, cons_coe]
      exact coe_eq_coe.mpr (perm_append_singleton ticket (m.ticketsAt pos))
    · intro q t ht
      by_cases hq : q = pos
      · subst hq
        exact hop
      · simp only [holdStep, update_of_ne hq] at ht
        exact h.inland q t ht
  | remove pos ticket =>
    obtain ⟨hholds, hsame⟩ := h.holds.removeTicket pos ticket
    refine ⟨hholds, ?_, ?_⟩
    · intro q t ht
      by_cases hq : q = pos
      · subst hq
        simp only [holdStep, update_self] at ht
        exact h.inland q t (Multiset.mem_of_mem_erase ht)
      · simp only [holdStep, update_of_ne hq] at ht
        exact h.inland q t ht
    · intro hdirty
      have heq := hsame hdirty
      have hheld : holdStep held (.remove pos ticket) = held := by
        funext q
        have hq := hholds q
        rw [heq, h.holds q] at hq
        exact hq.symm
      simp only [ChunkTicketManager.step] at hdirty ⊢
      rw [hheld, heq]
      exact h.clean (heq ▸ hdirty)
  | removeAllAt pos =>
    refine ⟨h.holds.update ticketsAt_erase rfl, ?_, ?_⟩
    · intro q t ht
      by_cases hq : q = pos
      · subst hq
        simp [holdStep] at ht
      · simp only [holdStep, update_of_ne hq] at ht
        exact h.inland q t ht
    · intro hdirty
      simp only [ChunkTicketManager.step, removeAllTicketsAt, Bool.or_eq_false_iff] at hdirty
      have hempty : m.ticketsAt pos = [] := by
        unfold ticketsAt
        rw [isSome_eq_false_iff.mp hdirty.2 |> isNone_iff_eq_none.mp]
        rfl
      have hheld : holdStep held (.removeAllAt pos) = held := by
        rw [holdStep, ← update_eq_self pos held, update_idem, ← h.holds pos, hempty]
        rfl
      rw [hheld]
      obtain ⟨hsome, hnone, hblock, hentity⟩ := h.clean hdirty.1
      exact ⟨hsome, hnone, hblock, hentity⟩
  | run order => exact (h.runAllUpdates order).1

theorem inv_run {ops : List Op} (hops : ∀ op ∈ ops, op.Inland) :
    Inv (runSteps step new ops) (heldAfter ops) := by
  have hguard : Guarded step (fun _ op => op.Inland) new ops :=
    guarded_of_forall fun op hop _ => hops op hop
  have hstep : ∀ m held op, Inv m held → op.Inland → Inv (step m op) (holdStep held op) :=
    fun _ _ _ h hop => h.step hop
  exact hguard.simulation hstep inv_new

/-- After every propagation the levels are the least sums of level and distance, in whatever
order the tickets were added and the maps are iterated. -/
theorem propagation_exact {ops : List Op} (hops : ∀ op ∈ ops, op.Inland) (order : UpdateOrder) :
    Exact (runSteps step new (ops ++ [.run order])) (heldAfter ops) ∧
      ∀ ops', (∀ op ∈ ops', op.Inland) → heldAfter ops' = heldAfter ops → ∀ order' p,
        (runSteps step new (ops' ++ [.run order'])).getLevel p =
            (runSteps step new (ops ++ [.run order])).getLevel p ∧
          isBlockTicking ((runSteps step new (ops' ++ [.run order'])).getSimulationLevel p) =
            isBlockTicking ((runSteps step new (ops ++ [.run order])).getSimulationLevel p) ∧
          isEntityTicking ((runSteps step new (ops' ++ [.run order'])).getSimulationLevel p) =
            isEntityTicking ((runSteps step new (ops ++ [.run order])).getSimulationLevel p) := by
  have hexact : ∀ ops, (∀ op ∈ ops, op.Inland) → ∀ order,
      Exact (runSteps step new (ops ++ [.run order])) (heldAfter ops) := by
    intro ops hops order
    rw [runSteps_append]
    obtain ⟨hinv, hclean⟩ := (inv_run hops).runAllUpdates order
    exact hinv.clean hclean
  refine ⟨hexact ops hops order, ?_⟩
  intro ops' hops' hheld order' p
  have h := hexact ops hops order
  have h' := hexact ops' hops' order'
  rw [hheld] at h'
  refine ⟨?_, ?_, ?_⟩
  · apply Option.ext
    intro l
    rw [h.some_iff, h'.some_iff]
  · rw [Bool.eq_iff_iff, h.block, h'.block]
  · rw [Bool.eq_iff_iff, h.entity, h'.entity]

theorem propagation_exact_spawn :
    Exact (runSteps step new ([.add ⟨0, 0⟩ (.fullChunks 0), .add ⟨3, 0⟩ (.simulatedFullChunks 2)] ++
      [.run UpdateOrder.id])) (heldAfter [.add ⟨0, 0⟩ (.fullChunks 0),
        .add ⟨3, 0⟩ (.simulatedFullChunks 2)]) :=
  (propagation_exact (by
    simp only [List.mem_cons, not_mem_nil, or_false, forall_eq_or_imp, forall_eq, Op.Inland,
      Inland, maxLevelRaw_eq]
    decide) UpdateOrder.id).1

variable {q : ChunkPos}

theorem chebyshev_triangle (p q r : ChunkPos) : chebyshev q r ≤ chebyshev p q + chebyshev p r := by
  unfold chebyshev
  omega

/-- A level falls by at most one from a chunk to the next. -/
theorem Exact.near {m : ChunkTicketManager} (h : Exact m held) (hlevel : m.getLevel p = some l)
    (hnear : l.raw + chebyshev p q ≤ maxLevelRaw) :
    ∃ l', m.getLevel q = some l' ∧ l'.raw ≤ l.raw + chebyshev p q := by
  obtain ⟨⟨source, t, ht, hl⟩, -⟩ := (h.some_iff p l).mp hlevel
  have hmem : t.loadLevel.raw + chebyshev q source ∈ loadLevels held q := ⟨source, t, ht, rfl⟩
  have htriangle := chebyshev_triangle p q source
  cases hfound : m.getLevel q with
  | none =>
    have habove := (h.none_iff q).mp hfound _ hmem
    omega
  | some l' =>
    have hleast := ((h.some_iff q l').mp hfound).2 hmem
    exact ⟨l', rfl, by omega⟩

/-- The status allowed at a distance from the full chunks, counted from one. -/
def allowedRank (distance : ℕ) : ℕ :=
  if distance = 0 then 12 else
    ((fullDependencies.get distance).map fun s => s.getIndex + 1).getD 0

theorem lt_allowedRank_iff {n : ℕ} : n < allowedRank (l.raw - fullChunkLevelRaw) ↔
    ∃ s, generationStatus (some l) = some s ∧ n ≤ s.getIndex := by
  simp only [allowedRank, generationStatus, bind_some, isFull, decide_eq_true_eq,
    Nat.sub_eq_zero_iff_le]
  split_ifs
  · simp [ChunkStatus.getIndex, Nat.lt_succ_iff]
  · cases fullDependencies.get (l.raw - fullChunkLevelRaw) <;> simp

theorem allowedRank_dependencies : ∀ s ∈ generationPyramid,
    s.accumulatedDependencies.dependencyByRadius.length ≤ 12 ∧
      ∀ k < 12, s.targetStatus.getIndex < allowedRank k → ∀ d < 12,
        ∀ dependency ∈ s.accumulatedDependencies.get d,
          k + d < 12 ∧ ∀ j ≤ k + d, dependency.getIndex < allowedRank j := by
  decide +kernel

/-- Where a chunk may be generated to a status, each chunk around it may be generated as far as the
steps up to this status need. -/
theorem dependencies_allowed {ops : List Op} (hops : ∀ op ∈ ops, op.Inland) (order : UpdateOrder)
    {s : ChunkStep} {status dependency : ChunkStatus} (hs : s ∈ generationPyramid)
    (hstatus : generationStatus ((runSteps step new (ops ++ [.run order])).getLevel p) =
      some status)
    (htarget : s.targetStatus.getIndex ≤ status.getIndex)
    (hdependency : s.accumulatedDependencies.get (chebyshev p q) = some dependency) :
    ∃ status', generationStatus ((runSteps step new (ops ++ [.run order])).getLevel q) =
      some status' ∧ dependency.getIndex ≤ status'.getIndex := by
  have hexact : Exact (runSteps step new (ops ++ [.run order])) (heldAfter ops) := by
    rw [runSteps_append]
    obtain ⟨hinv, hclean⟩ := (inv_run hops).runAllUpdates order
    exact hinv.clean hclean
  generalize runSteps step new (ops ++ [.run order]) = m at *
  cases hlevel : m.getLevel p with
  | none =>
    rw [hlevel] at hstatus
    cases hstatus
  | some l =>
    rw [hlevel] at hstatus
    have hmax := l.le_max
    have heq : maxLevelRaw = fullChunkLevelRaw + 11 := by decide
    obtain ⟨hlength, hallowed⟩ := allowedRank_dependencies s hs
    have hd : chebyshev p q < 12 := by
      by_contra hge
      simp [ChunkDependencies.get, List.getElem?_eq_none (hlength.trans (not_lt.mp hge))]
        at hdependency
    obtain ⟨hsum, hrank⟩ := hallowed (l.raw - fullChunkLevelRaw) (by omega)
      (lt_allowedRank_iff.mpr ⟨status, hstatus, htarget⟩) _ hd dependency hdependency
    obtain ⟨l', hl', hle⟩ := hexact.near hlevel (q := q) (by omega)
    rw [hl']
    exact lt_allowedRank_iff.mp (hrank _ (by omega))

theorem dependencies_allowed_light :
    ∃ status, generationStatus ((runSteps step new ([.add ⟨0, 0⟩ (.fullChunks 0)] ++
      [.run UpdateOrder.id])).getLevel ⟨1, 0⟩) = some status ∧ 8 ≤ status.getIndex :=
  dependencies_allowed (p := ⟨0, 0⟩)
    (by simp only [List.mem_singleton, forall_eq, Op.Inland, Inland]; decide) UpdateOrder.id
    (List.getLast_mem (show generationPyramid ≠ [] by decide))
    (show _ = some ChunkStatus.full by decide +kernel) (by decide +kernel)
    (show _ = some ChunkStatus.initializeLight by decide +kernel)

end ChunkTicketManager

end Steel
