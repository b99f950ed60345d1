import Steel.Chunk.TicketPropagation

/-! # Timed chunk tickets

Portals and ender pearls hold a chunk for some ticks. Each tick ages the tickets whose chunk may
expire; what runs out leaves the list by a swap with its last entry, and the manager drops the
ticket.
-/

namespace Steel

open List Multiset Int64 Function Option

def portalTicketRadius : UInt8 := 3

def portalTicketTimeoutTicks : Int64 := 300

def enderPearlTicketTimeoutTicks : UInt32 := 40

def enderPearlTicketRadius : UInt8 := 2

def portalTicket : ChunkTicket := .simulatedFullChunks portalTicketRadius

def enderPearlTicket : ChunkTicket := .simulatedFullChunks enderPearlTicketRadius

inductive TimedChunkTicketKind where
  | portal
  | enderPearl
  deriving DecidableEq

def TimedChunkTicketKind.ticket : TimedChunkTicketKind → ChunkTicket
  | .portal => portalTicket
  | .enderPearl => enderPearlTicket

structure TimedChunkTicket where
  kind : TimedChunkTicketKind
  pos : ChunkPos
  ticket : ChunkTicket
  ticksLeft : Int64
  deriving DecidableEq

/-- `TimedChunkTicket::portal`. -/
def TimedChunkTicket.portal (pos : ChunkPos) (ticksLeft : Int64) : TimedChunkTicket :=
  ⟨.portal, pos, portalTicket, ticksLeft⟩

inductive PersistentChunkTicketKind where
  | portal
  deriving DecidableEq

structure PersistentChunkTicket where
  kind : PersistentChunkTicketKind
  chunkX : Int32
  chunkZ : Int32
  ticksLeft : Int64
  deriving DecidableEq

structure TimedChunkTickets where
  tickets : List TimedChunkTicket
  deriving DecidableEq

namespace TimedChunkTickets

/-- Whether an entry is the one a new ticket would repeat. -/
def isEntryOf (kind : TimedChunkTicketKind) (pos : ChunkPos) (ticket : ChunkTicket)
    (entry : TimedChunkTicket) : Bool :=
  entry.kind = kind ∧ entry.pos = pos ∧ entry.ticket = ticket

def setTicksLeft (ticksLeft : Int64) (entry : TimedChunkTicket) : TimedChunkTicket :=
  { entry with ticksLeft := ticksLeft }

variable (timed : TimedChunkTickets)

/-- The ticket to add to the manager, unless an entry was refreshed. -/
def addOrReset (kind : TimedChunkTicketKind) (pos : ChunkPos) (ticket : ChunkTicket)
    (ticksLeft : Int64) : Option ChunkTicket × TimedChunkTickets :=
  match timed.tickets.findIdx? (isEntryOf kind pos ticket) with
  | some index => (none, ⟨timed.tickets.modify index (setTicksLeft ticksLeft)⟩)
  | none => (some ticket, ⟨timed.tickets ++ [⟨kind, pos, ticket, ticksLeft⟩]⟩)

def addPortalTicket (pos : ChunkPos) : Option ChunkTicket × TimedChunkTickets :=
  timed.addOrReset .portal pos portalTicket portalTicketTimeoutTicks

def addEnderPearlTicket (pos : ChunkPos) : Option ChunkTicket × TimedChunkTickets :=
  timed.addOrReset .enderPearl pos enderPearlTicket (ofNat enderPearlTicketTimeoutTicks.toNat)

def addLoadedPortalTicket (pos : ChunkPos) (ticksLeft : Int64) : TimedChunkTickets :=
  match timed.tickets.findIdx? (isEntryOf .portal pos portalTicket) with
  | some index => ⟨timed.tickets.modify index (setTicksLeft portalTicketTimeoutTicks)⟩
  | none => ⟨timed.tickets ++ [.portal pos ticksLeft]⟩

def addLoadedPersistentTicket (persistent : PersistentChunkTicket) : TimedChunkTickets :=
  match persistent.kind with
  | .portal =>
    timed.addLoadedPortalTicket ⟨persistent.chunkX, persistent.chunkZ⟩ persistent.ticksLeft

def fromPersistent (persistent : List PersistentChunkTicket) : TimedChunkTickets :=
  persistent.foldl addLoadedPersistentTicket ⟨[]⟩

def activateAll (ticketManager : ChunkTicketManager) : ChunkTicketManager :=
  timed.tickets.foldl (fun ticketManager entry => ticketManager.addTicket entry.pos entry.ticket)
    ticketManager

/-- The loop of `tick`. Every turn leaves one entry less behind the index, so there are no more
turns than entries. The predicate may answer differently at every call and is given the number
of calls before. -/
def tickLoop (canExpire : ℕ → ChunkPos → Bool) :
    ℕ → ℕ → ℕ → List TimedChunkTicket → List (ChunkPos × ChunkTicket) →
      List TimedChunkTicket × List (ChunkPos × ChunkTicket)
  | 0, _, _, tickets, expired => (tickets, expired)
  | turns + 1, calls, index, tickets, expired =>
    match tickets[index]? with
    | none => (tickets, expired)
    | some entry =>
      if !canExpire calls entry.pos then
        tickLoop canExpire turns (calls + 1) (index + 1) tickets expired
      else
        let entry := setTicksLeft (entry.ticksLeft - 1) entry
        let tickets := tickets.set index entry
        if 0 ≤ entry.ticksLeft then
          tickLoop canExpire turns (calls + 1) (index + 1) tickets expired
        else
          tickLoop canExpire turns (calls + 1) index (swapRemove tickets index)
            (expired ++ [(entry.pos, entry.ticket)])

def tick (canExpire : ℕ → ChunkPos → Bool) : List (ChunkPos × ChunkTicket) × TimedChunkTickets :=
  let (tickets, expired) := tickLoop canExpire timed.tickets.length 0 0 timed.tickets []
  (expired, ⟨tickets⟩)

/-- What the code leaves of an entry in one tick; the subtraction wraps around. -/
def aged (expires : Bool) (entry : TimedChunkTicket) : Option TimedChunkTicket :=
  if !expires then some entry
  else if 0 ≤ entry.ticksLeft - 1 then some (setTicksLeft (entry.ticksLeft - 1) entry)
  else none

/-- The entries in the order of the visits, each with the answer for its chunk. -/
def answers (canExpire : ℕ → ChunkPos → Bool) (calls : ℕ) (visits : List TimedChunkTicket) :
    List (Bool × TimedChunkTicket) :=
  (visits.zipIdx calls).map fun visit => (canExpire visit.2 visit.1.pos, visit.1)

def expiredBy (age : Bool → TimedChunkTicket → Option TimedChunkTicket)
    (answer : Bool × TimedChunkTicket) : Option (ChunkPos × ChunkTicket) :=
  if (age answer.1 answer.2).isNone then some (answer.2.pos, answer.2.ticket) else none

variable {canExpire : ℕ → ChunkPos → Bool}

theorem answers_cons (calls : ℕ) (entry : TimedChunkTicket) (visits : List TimedChunkTicket) :
    answers canExpire calls (entry :: visits) =
      (canExpire calls entry.pos, entry) :: answers canExpire (calls + 1) visits := by
  rfl

theorem swapRemove_append (done : List TimedChunkTicket) (entry : TimedChunkTicket)
    (rest : List TimedChunkTicket) :
    swapRemove (done ++ entry :: rest) done.length = done ++ swapRemove (entry :: rest) 0 := by
  cases rest using List.reverseRecOn with
  | nil => simp [swapRemove]
  | append_singleton rest last =>
    have hlast : (done ++ entry :: (rest ++ [last])).getLast? = some last := by
      rw [← cons_append, ← append_assoc, List.getLast?_concat]
    have hlast' : (entry :: (rest ++ [last])).getLast? = some last := by
      rw [← cons_append, List.getLast?_concat]
    rw [swapRemove, swapRemove, hlast, hlast']
    simp

theorem tickLoop_spec (turns calls : ℕ) (done rest : List TimedChunkTicket)
    (expired : List (ChunkPos × ChunkTicket)) (hturns : turns = rest.length) :
    ∃ visits : List TimedChunkTicket, visits.Perm rest ∧
      tickLoop canExpire turns calls done.length (done ++ rest) expired =
        (done ++ (answers canExpire calls visits).filterMap fun answer => aged answer.1 answer.2,
          expired ++ (answers canExpire calls visits).filterMap (expiredBy aged)) := by
  induction turns generalizing calls done rest expired with
  | zero =>
    obtain rfl := length_eq_zero_iff.mp hturns.symm
    exact ⟨[], .nil, by simp [tickLoop, answers]⟩
  | succ turns ih =>
    obtain _ | ⟨entry, rest⟩ := rest
    · cases hturns
    rw [length_cons, Nat.add_right_cancel_iff] at hturns
    have hget : (done ++ entry :: rest)[done.length]? = some entry := by simp
    rw [tickLoop, hget]
    dsimp only
    by_cases hexpires : canExpire calls entry.pos = true
    · rw [hexpires]
      simp only [Bool.not_true, Bool.false_eq_true, ↓reduceIte]
      have hset : (done ++ entry :: rest).set done.length
          (setTicksLeft (entry.ticksLeft - 1) entry) =
            done ++ setTicksLeft (entry.ticksLeft - 1) entry :: rest := by simp
      rw [hset]
      split
      case isTrue hleft =>
        have hleft' : 0 ≤ entry.ticksLeft - 1 := hleft
        obtain ⟨visits, hperm, hrun⟩ := ih (calls + 1)
          (done ++ [setTicksLeft (entry.ticksLeft - 1) entry]) rest expired hturns
        refine ⟨entry :: visits, hperm.cons entry, ?_⟩
        rw [length_append, append_assoc] at hrun
        refine hrun.trans ?_
        simp [answers_cons, aged, expiredBy, hexpires, hleft']
      case isFalse hleft =>
        have hleft' : ¬ 0 ≤ entry.ticksLeft - 1 := hleft
        have hswap : (swapRemove (setTicksLeft (entry.ticksLeft - 1) entry :: rest) 0).Perm rest :=
          swapRemove_perm (Nat.zero_lt_succ _)
        obtain ⟨visits, hperm, hrun⟩ := ih (calls + 1) done
          (swapRemove (setTicksLeft (entry.ticksLeft - 1) entry :: rest) 0)
          (expired ++ [(entry.pos, entry.ticket)]) (hturns.trans hswap.length_eq.symm)
        refine ⟨entry :: visits, (hperm.trans hswap).cons entry, ?_⟩
        rw [swapRemove_append]
        refine hrun.trans ?_
        simp [answers_cons, aged, expiredBy, hexpires, hleft']
    · rw [Bool.not_eq_true] at hexpires
      rw [hexpires]
      obtain ⟨visits, hperm, hrun⟩ := ih (calls + 1) (done ++ [entry]) rest expired hturns
      refine ⟨entry :: visits, hperm.cons entry, ?_⟩
      rw [length_append, append_assoc] at hrun
      refine hrun.trans ?_
      simp [answers_cons, aged, expiredBy, hexpires]

def keptBy (canExpire : ℕ → ChunkPos → Bool) (calls : ℕ) (visits : List TimedChunkTicket) :
    List TimedChunkTicket :=
  (answers canExpire calls visits).filterMap fun answer => aged answer.1 answer.2

theorem tick_eq (canExpire : ℕ → ChunkPos → Bool) :
    ∃ visits : List TimedChunkTicket, visits.Perm timed.tickets ∧
      timed.tick canExpire = ((answers canExpire 0 visits).filterMap (expiredBy aged),
        ⟨keptBy canExpire 0 visits⟩) := by
  obtain ⟨visits, hperm, hrun⟩ :=
    @tickLoop_spec canExpire timed.tickets.length 0 [] timed.tickets [] rfl
  rw [nil_append, length_nil] at hrun
  refine ⟨visits, hperm, ?_⟩
  simp only [tick, hrun, nil_append]
  rfl

/-- An entry that may expire ages by one tick and is removed once its time would go below zero. -/
def agedExactly (expires : Bool) (entry : TimedChunkTicket) : Option TimedChunkTicket :=
  if expires then
    if entry.ticksLeft.toInt - 1 < 0 then none
    else some (setTicksLeft (ofInt (entry.ticksLeft.toInt - 1)) entry)
  else some entry

/-- In one tick every entry is visited once and ages exactly; those that are removed are handed
over. -/
def AgedOnce (canExpire : ℕ → ChunkPos → Bool) (before after : List TimedChunkTicket)
    (expired : List (ChunkPos × ChunkTicket)) : Prop :=
  ∃ visits : List TimedChunkTicket, visits.Perm before ∧
    after = (answers canExpire 0 visits).filterMap (fun answer => agedExactly answer.1 answer.2) ∧
    expired = (answers canExpire 0 visits).filterMap (expiredBy agedExactly)

def CanAge (canExpire : ℕ → ChunkPos → Bool) (entry : TimedChunkTicket) : Prop :=
  entry.ticksLeft = minValue → ∀ calls, canExpire calls entry.pos = false

theorem aged_eq_agedExactly {entry : TimedChunkTicket} (h : entry.ticksLeft ≠ minValue)
    (expires : Bool) : aged expires entry = agedExactly expires entry := by
  have hmin : entry.ticksLeft.toInt ≠ -2 ^ 63 := fun heq =>
    h (toInt_inj.mp heq)
  have hlow := entry.ticksLeft.le_toInt
  have hhigh := entry.ticksLeft.toInt_lt
  have hsub : (entry.ticksLeft - 1).toInt = entry.ticksLeft.toInt - 1 := by
    rw [toInt_sub]
    exact Int.bmod_eq_of_le (by simp; omega) (by simp; omega)
  have hofInt : ofInt (entry.ticksLeft.toInt - 1) = entry.ticksLeft - 1 := by
    rw [← hsub, ofInt_toInt]
  have hle : 0 ≤ entry.ticksLeft - 1 ↔ 0 ≤ entry.ticksLeft.toInt - 1 := by
    rw [le_iff_toInt_le, hsub]
    rfl
  cases expires with
  | false => rfl
  | true =>
    simp only [aged, agedExactly, Bool.not_true, Bool.false_eq_true, ↓reduceIte, hle, hofInt]
    by_cases hneg : entry.ticksLeft.toInt - 1 < 0
    · rw [if_neg (by omega), if_pos hneg]
    · rw [if_pos (by omega), if_neg hneg]

theorem aged_answer {entry : TimedChunkTicket} (h : CanAge canExpire entry) (calls : ℕ) :
    aged (canExpire calls entry.pos) entry = agedExactly (canExpire calls entry.pos) entry := by
  by_cases hmin : entry.ticksLeft = minValue
  · rw [h hmin calls]
    rfl
  · exact aged_eq_agedExactly hmin _

theorem mem_answers {calls : ℕ} {visits : List TimedChunkTicket}
    {answer : Bool × TimedChunkTicket} (h : answer ∈ answers canExpire calls visits) :
    answer.2 ∈ visits ∧ ∃ call, answer.1 = canExpire call answer.2.pos := by
  obtain ⟨⟨entry, call⟩, hvisit, rfl⟩ := List.mem_map.mp h
  exact ⟨fst_mem_of_mem_zipIdx hvisit, call, rfl⟩

theorem tick_agedOnce {timed : TimedChunkTickets}
    (h : ∀ entry ∈ timed.tickets, CanAge canExpire entry) :
    AgedOnce canExpire timed.tickets (timed.tick canExpire).2.tickets (timed.tick canExpire).1 := by
  obtain ⟨visits, hperm, htick⟩ := tick_eq timed canExpire
  have hexact : ∀ answer ∈ answers canExpire 0 visits,
      aged answer.1 answer.2 = agedExactly answer.1 answer.2 := by
    intro answer hanswer
    obtain ⟨hmem, call, hcall⟩ := mem_answers hanswer
    rw [hcall]
    exact aged_answer (h _ (hperm.mem_iff.mp hmem)) call
  rw [htick]
  refine ⟨visits, hperm, filterMap_congr hexact, ?_⟩
  refine filterMap_congr fun answer hanswer => ?_
  rw [expiredBy, expiredBy, hexact answer hanswer]

def sources : List (ChunkPos × ChunkTicket) :=
  timed.tickets.map fun entry => (entry.pos, entry.ticket)

def keys : List (TimedChunkTicketKind × ChunkPos) :=
  timed.tickets.map fun entry => (entry.kind, entry.pos)

/-- Entries are unique, and each holds the ticket of its kind. -/
structure Canonical (timed : TimedChunkTickets) : Prop where
  nodup : timed.keys.Nodup
  ticket : ∀ entry ∈ timed.tickets, entry.ticket = entry.kind.ticket

variable {timed : TimedChunkTickets}

theorem canonical_empty : Canonical ⟨[]⟩ := ⟨nodup_nil, by simp⟩

theorem map_modify {α : Type} (f : TimedChunkTicket → α) {ticksLeft : Int64}
    (hf : ∀ entry, f (setTicksLeft ticksLeft entry) = f entry) (index : ℕ)
    (tickets : List TimedChunkTicket) :
    (tickets.modify index (setTicksLeft ticksLeft)).map f = tickets.map f := by
  apply ext_getElem?
  intro i
  rw [List.getElem?_map, List.getElem?_map, List.getElem?_modify]
  cases tickets[i]? with
  | none => rfl
  | some entry =>
    dsimp only [Functor.map, map_some]
    split
    · rw [hf]
    · rfl

section

variable (h : timed.Canonical)

include h

theorem Canonical.refresh (index : ℕ) (ticksLeft : Int64) :
    Canonical ⟨timed.tickets.modify index (setTicksLeft ticksLeft)⟩ ∧
      sources ⟨timed.tickets.modify index (setTicksLeft ticksLeft)⟩ = timed.sources := by
  refine ⟨⟨?_, ?_⟩, map_modify _ (fun _ => rfl) index timed.tickets⟩
  · rw [keys, map_modify _ (fun _ => rfl)]
    exact h.nodup
  · have hmap := @map_modify _ (fun entry => (entry.ticket, entry.kind.ticket)) ticksLeft
      (fun _ => rfl) index timed.tickets
    intro entry hentry
    have hmem := List.mem_map_of_mem (f := fun entry => (entry.ticket, entry.kind.ticket)) hentry
    rw [hmap] at hmem
    obtain ⟨entry', hentry', heq⟩ := List.mem_map.mp hmem
    obtain ⟨hticket, hkind⟩ := Prod.mk.inj heq
    rw [← hticket, ← hkind]
    exact h.ticket entry' hentry'

theorem Canonical.push {kind : TimedChunkTicketKind} {pos : ChunkPos}
    (hnew : timed.tickets.findIdx? (isEntryOf kind pos kind.ticket) = none) (ticksLeft : Int64) :
    Canonical ⟨timed.tickets ++ [⟨kind, pos, kind.ticket, ticksLeft⟩]⟩ := by
  rw [List.findIdx?_eq_none_iff] at hnew
  constructor
  · rw [keys, map_append, nodup_append]
    refine ⟨h.nodup, List.nodup_singleton _, ?_⟩
    rintro key hkey key' hkey' rfl
    obtain ⟨entry, hentry, rfl⟩ := List.mem_map.mp hkey
    obtain ⟨hkind, hpos⟩ := Prod.mk.inj (List.mem_singleton.mp hkey')
    have hnot := hnew entry hentry
    rw [isEntryOf, decide_eq_false_iff_not] at hnot
    exact hnot ⟨hkind, hpos, by rw [h.ticket entry hentry, hkind]⟩
  · intro entry hentry
    rcases mem_append.mp hentry with hmem | hmem
    · exact h.ticket entry hmem
    · rw [List.mem_singleton.mp hmem]

/-- An entry is refreshed and nothing is returned, or it is new and its ticket is returned. -/
theorem Canonical.addOrReset (kind : TimedChunkTicketKind) (pos : ChunkPos) (ticksLeft : Int64) :
    (timed.addOrReset kind pos kind.ticket ticksLeft).2.Canonical ∧
    (timed.addOrReset kind pos kind.ticket ticksLeft).2.sources = timed.sources ++
      ((timed.addOrReset kind pos kind.ticket ticksLeft).1.map
        fun ticket => (pos, ticket)).toList := by
  unfold TimedChunkTickets.addOrReset
  split
  case h_1 index hindex =>
    obtain ⟨hcanonical, hsources⟩ := h.refresh index ticksLeft
    exact ⟨hcanonical, by simpa using hsources⟩
  case h_2 hnew =>
    refine ⟨h.push hnew ticksLeft, ?_⟩
    simp [sources]

theorem Canonical.addLoadedPortalTicket (pos : ChunkPos)
    (ticksLeft : Int64) : (timed.addLoadedPortalTicket pos ticksLeft).Canonical := by
  unfold TimedChunkTickets.addLoadedPortalTicket
  split
  case h_1 index hindex => exact (h.refresh index _).1
  case h_2 hnew => exact Canonical.push h hnew ticksLeft

end

theorem canonical_fromPersistent (persistent : List PersistentChunkTicket) :
    (fromPersistent persistent).Canonical := by
  have hall : ∀ timed : TimedChunkTickets, timed.Canonical →
      (persistent.foldl addLoadedPersistentTicket timed).Canonical := by
    induction persistent with
    | nil => exact fun timed h => h
    | cons ticket persistent ih =>
      intro timed h
      exact ih _ (h.addLoadedPortalTicket _ _)
  exact hall _ canonical_empty

theorem aged_same {expires : Bool} {entry entry' : TimedChunkTicket}
    (h : aged expires entry = some entry') :
    entry'.kind = entry.kind ∧ entry'.pos = entry.pos ∧ entry'.ticket = entry.ticket := by
  unfold aged at h
  split at h
  · cases h
    exact ⟨rfl, rfl, rfl⟩
  · split at h
    · cases h
      exact ⟨rfl, rfl, rfl⟩
    · cases h

theorem visits_split (calls : ℕ) (visits : List TimedChunkTicket) :
    (visits.map fun entry => (entry.pos, entry.ticket)).Perm
      ((keptBy canExpire calls visits).map (fun entry => (entry.pos, entry.ticket)) ++
        (answers canExpire calls visits).filterMap (expiredBy aged)) ∧
    ((keptBy canExpire calls visits).map fun entry => (entry.kind, entry.pos)).Sublist
      (visits.map fun entry => (entry.kind, entry.pos)) ∧
    ∀ entry ∈ keptBy canExpire calls visits, ∃ entry' ∈ visits,
      entry.kind = entry'.kind ∧ entry.ticket = entry'.ticket := by
  induction visits generalizing calls with
  | nil => exact ⟨.nil, .slnil, by simp [keptBy, answers]⟩
  | cons entry visits ih =>
    obtain ⟨hperm, hsub, hmem⟩ := ih (calls + 1)
    cases haged : aged (canExpire calls entry.pos) entry with
    | none =>
      have hkept : keptBy canExpire calls (entry :: visits) =
          keptBy canExpire (calls + 1) visits := by
        simp [keptBy, answers_cons, haged]
      have hexpired : (answers canExpire calls (entry :: visits)).filterMap (expiredBy aged) =
          (entry.pos, entry.ticket) ::
            (answers canExpire (calls + 1) visits).filterMap (expiredBy aged) := by
        simp [answers_cons, expiredBy, haged]
      rw [hkept, hexpired]
      refine ⟨?_, hsub.cons _, fun e he => ?_⟩
      · rw [List.map_cons]
        exact (hperm.cons _).trans perm_middle.symm
      · obtain ⟨entry', hentry', heq⟩ := hmem e he
        exact ⟨entry', List.mem_cons_of_mem _ hentry', heq⟩
    | some entry' =>
      obtain ⟨hkind, hpos, hticket⟩ := aged_same haged
      have hkept : keptBy canExpire calls (entry :: visits) =
          entry' :: keptBy canExpire (calls + 1) visits := by
        simp [keptBy, answers_cons, haged]
      have hexpired : (answers canExpire calls (entry :: visits)).filterMap (expiredBy aged) =
          (answers canExpire (calls + 1) visits).filterMap (expiredBy aged) := by
        simp [answers_cons, expiredBy, haged]
      rw [hkept, hexpired]
      simp only [List.map_cons, hkind, hpos, hticket, cons_append]
      refine ⟨hperm.cons _, hsub.cons_cons _, fun e he => ?_⟩
      rcases List.mem_cons.mp he with rfl | he
      · exact ⟨entry, List.mem_cons_self, hkind, hticket⟩
      · obtain ⟨entry'', hentry'', heq⟩ := hmem e he
        exact ⟨entry'', List.mem_cons_of_mem _ hentry'', heq⟩

theorem sources_tick (canExpire : ℕ → ChunkPos → Bool) :
    timed.sources.Perm ((timed.tick canExpire).2.sources ++ (timed.tick canExpire).1) := by
  obtain ⟨visits, hperm, htick⟩ := tick_eq timed canExpire
  rw [htick]
  exact (hperm.map _).symm.trans (visits_split 0 visits).1

theorem Canonical.tick (h : timed.Canonical) (canExpire : ℕ → ChunkPos → Bool) :
    (timed.tick canExpire).2.Canonical := by
  obtain ⟨visits, hperm, htick⟩ := tick_eq timed canExpire
  obtain ⟨-, hsub, hmem⟩ := @visits_split canExpire 0 visits
  rw [htick]
  constructor
  · have hkeys : (visits.map fun entry => (entry.kind, entry.pos)).Perm timed.keys := hperm.map _
    exact (hkeys.nodup_iff.mpr h.nodup).sublist hsub
  · intro entry hentry
    obtain ⟨entry', hentry', hkind, hticket⟩ := hmem entry hentry
    rw [hkind, hticket]
    exact h.ticket entry' (hperm.mem_iff.mp hentry')

end TimedChunkTickets

namespace ChunkTicketManager

def heldBy (sources : List (ChunkPos × ChunkTicket)) : Held := fun pos =>
  ((sources.filter fun source => source.1 = pos).map Prod.snd : List ChunkTicket)

def heldWith (others : Held) (sources : List (ChunkPos × ChunkTicket)) : Held := fun pos =>
  others pos + heldBy sources pos

variable {m : ChunkTicketManager} {others : Held} {sources : List (ChunkPos × ChunkTicket)}

theorem heldWith_nil : heldWith others [] = others := by
  funext pos
  exact Multiset.add_zero (others pos)

theorem heldWith_cons (pos : ChunkPos) (ticket : ChunkTicket) :
    heldWith others ((pos, ticket) :: sources) =
      update (heldWith others sources) pos (ticket ::ₘ heldWith others sources pos) := by
  funext pos'
  by_cases hpos : pos' = pos
  · subst hpos
    rw [update_self, heldWith, heldBy, List.filter_cons_of_pos (by simp), List.map_cons,
      ← cons_coe, add_cons]
    rfl
  · rw [update_of_ne hpos, heldWith, heldBy,
      List.filter_cons_of_neg (by simpa using Ne.symm hpos)]
    rfl

theorem heldWith_perm {sources' : List (ChunkPos × ChunkTicket)} (h : sources.Perm sources') :
    heldWith others sources = heldWith others sources' := by
  funext pos
  rw [heldWith, heldWith, heldBy, heldBy,
    coe_eq_coe.mpr ((h.filter fun source => source.1 = pos).map Prod.snd)]

theorem heldWith_append (sources sources' : List (ChunkPos × ChunkTicket)) :
    heldWith others (sources ++ sources') = heldWith (heldWith others sources) sources' := by
  funext pos
  simp [heldWith, heldBy, ← coe_add, Multiset.add_assoc]

theorem Holds.addTicket (h : m.Holds (heldWith others sources)) (pos : ChunkPos)
    (ticket : ChunkTicket) :
    (m.addTicket pos ticket).Holds (heldWith others ((pos, ticket) :: sources)) := by
  rw [heldWith_cons]
  refine h.update ticketsAt_insert ?_
  rw [← h pos, ticketsAt, ← coe_add, Multiset.add_comm]
  rfl

theorem Holds.removeTicket_cons {pos : ChunkPos} {ticket : ChunkTicket}
    (h : m.Holds (heldWith others ((pos, ticket) :: sources))) :
    (m.removeTicket pos ticket).1 = true ∧
      (m.removeTicket pos ticket).2.Holds (heldWith others sources) := by
  have hheld := @heldWith_cons others sources pos ticket
  constructor
  · have hmem : ticket ∈ m.ticketsAt pos := by
      rw [h.mem_iff, hheld, update_self]
      exact Multiset.mem_cons_self _ _
    unfold ticketsAt at hmem
    unfold ChunkTicketManager.removeTicket
    cases hlookup : m.tickets.lookup pos with
    | none =>
      rw [hlookup] at hmem
      cases hmem
    | some tickets =>
      rw [hlookup] at hmem
      cases hidx : tickets.findIdx? fun stored => stored = ticket with
      | none => simpa using List.findIdx?_eq_none_iff.mp hidx ticket hmem
      | some index => simp [hidx]
  · have hremoved := (h.removeTicket pos ticket).1
    rwa [hheld, update_self, Multiset.erase_cons_head, update_idem,
      update_eq_self] at hremoved

end ChunkTicketManager

/-- The timed tickets of a world with the manager they are forwarded to. -/
structure TimedTicketSystem where
  timed : TimedChunkTickets
  manager : ChunkTicketManager

namespace TimedTicketSystem

open TimedChunkTickets ChunkTicketManager

def start (persistent : List PersistentChunkTicket) (manager : ChunkTicketManager) :
    TimedTicketSystem :=
  ⟨fromPersistent persistent, (fromPersistent persistent).activateAll manager⟩

def forwardAdded (manager : ChunkTicketManager) (pos : ChunkPos) :
    Option ChunkTicket → ChunkTicketManager
  | some ticket => manager.addTicket pos ticket
  | none => manager

/-- Expired tickets are removed from the manager; each removal tells whether it found its ticket. -/
def forwardExpired (manager : ChunkTicketManager) :
    List (ChunkPos × ChunkTicket) → List Bool × ChunkTicketManager
  | [] => ([], manager)
  | (pos, ticket) :: expired =>
    let (found, manager) := manager.removeTicket pos ticket
    let (rest, manager) := forwardExpired manager expired
    (found :: rest, manager)

inductive Operation where
  | addPortalTicket (pos : ChunkPos)
  | addEnderPearlTicket (pos : ChunkPos)
  | tick (canExpire : ℕ → ChunkPos → Bool)

def perform (s : TimedTicketSystem) : Operation → TimedTicketSystem
  | .addPortalTicket pos =>
    ⟨(s.timed.addPortalTicket pos).2, forwardAdded s.manager pos (s.timed.addPortalTicket pos).1⟩
  | .addEnderPearlTicket pos =>
    ⟨(s.timed.addEnderPearlTicket pos).2,
      forwardAdded s.manager pos (s.timed.addEnderPearlTicket pos).1⟩
  | .tick canExpire =>
    ⟨(s.timed.tick canExpire).2, (forwardExpired s.manager (s.timed.tick canExpire).1).2⟩

/-- Besides what else it holds, the manager holds one ticket for every entry. -/
structure InStep (others : Held) (s : TimedTicketSystem) : Prop where
  canonical : s.timed.Canonical
  holds : s.manager.Holds (heldWith others s.timed.sources)

variable {others : Held} {s : TimedTicketSystem} {manager : ChunkTicketManager}

theorem inStep_start (persistent : List PersistentChunkTicket)
    (h : manager.Holds others) : InStep others (start persistent manager) := by
  refine ⟨canonical_fromPersistent persistent, ?_⟩
  have hall : ∀ (tickets : List TimedChunkTicket) (manager : ChunkTicketManager) (others : Held),
      manager.Holds others →
      (tickets.foldl (fun manager entry => manager.addTicket entry.pos entry.ticket)
        manager).Holds (heldWith others (tickets.map fun entry => (entry.pos, entry.ticket))) := by
    intro tickets
    induction tickets with
    | nil =>
      intro manager others h
      rw [map_nil, heldWith_nil]
      exact h
    | cons entry tickets ih =>
      intro manager others h
      rw [← @heldWith_nil others] at h
      have hadd := ih _ _ (h.addTicket entry.pos entry.ticket)
      rwa [← heldWith_append, singleton_append] at hadd
  exact hall _ manager others h

theorem InStep.add (h : InStep others s) (kind : TimedChunkTicketKind) (pos : ChunkPos)
    (ticksLeft : Int64) :
    InStep others ⟨(s.timed.addOrReset kind pos kind.ticket ticksLeft).2,
      forwardAdded s.manager pos (s.timed.addOrReset kind pos kind.ticket ticksLeft).1⟩ := by
  obtain ⟨hcanonical, hsources⟩ := h.canonical.addOrReset kind pos ticksLeft
  refine ⟨hcanonical, ?_⟩
  rw [hsources]
  cases (s.timed.addOrReset kind pos kind.ticket ticksLeft).1 with
  | none =>
    rw [map_none, toList_none, append_nil]
    exact h.holds
  | some ticket =>
    rw [heldWith_perm perm_append_comm]
    exact h.holds.addTicket pos ticket

theorem forwardExpired_spec
    {expired : List (ChunkPos × ChunkTicket)} (h : manager.Holds (heldWith others expired)) :
    (∀ found ∈ (forwardExpired manager expired).1, found = true) ∧
      (forwardExpired manager expired).2.Holds others := by
  induction expired generalizing manager with
  | nil =>
    rw [heldWith_nil] at h
    exact ⟨by simp [forwardExpired], h⟩
  | cons source expired ih =>
    obtain ⟨hfound, hholds⟩ := h.removeTicket_cons
    obtain ⟨hrest, hrestholds⟩ := ih hholds
    refine ⟨?_, hrestholds⟩
    rintro found hmem
    rcases List.mem_cons.mp hmem with rfl | hmem
    · exact hfound
    · exact hrest found hmem

theorem InStep.expired (h : InStep others s) (canExpire : ℕ → ChunkPos → Bool) :
    s.manager.Holds (heldWith (heldWith others (s.timed.tick canExpire).2.sources)
      (s.timed.tick canExpire).1) := by
  rw [← heldWith_append, ← heldWith_perm (sources_tick canExpire)]
  exact h.holds

theorem InStep.perform (h : InStep others s) (operation : Operation) :
    InStep others (s.perform operation) := by
  cases operation with
  | addPortalTicket pos => exact h.add .portal pos portalTicketTimeoutTicks
  | addEnderPearlTicket pos => exact h.add .enderPearl pos _
  | tick canExpire =>
    exact ⟨h.canonical.tick canExpire, (forwardExpired_spec (h.expired canExpire)).2⟩

theorem InStep.run {operations : List Operation} (h : InStep others s) :
    InStep others (runSteps TimedTicketSystem.perform s operations) := by
  have hguard : Guarded TimedTicketSystem.perform (fun _ _ => True) s operations :=
    guarded_of_forall fun _ _ _ => trivial
  exact hguard.invariant (fun s operation hs _ => hs.perform operation) h

/-- Over every run from restored tickets the entries are unique and the manager holds exactly one
ticket for each of them besides what it held before; in every tick in which no entry that may
expire has the least time there is, each of those entries ages once, exactly those whose time goes
below zero are removed, and the manager finds the ticket of each. -/
theorem timed_tickets_in_step (persistent : List PersistentChunkTicket)
    (manager : ChunkTicketManager) (operations : List Operation) :
    let s := runSteps perform (start persistent manager) operations
    (s.timed.tickets.map fun entry => (entry.kind, entry.pos)).Nodup ∧
    (∀ pos, (s.manager.ticketsAt pos).Perm (manager.ticketsAt pos ++
      (s.timed.tickets.filter fun entry => entry.pos = pos).map TimedChunkTicket.ticket)) ∧
    ∀ canExpire : ℕ → ChunkPos → Bool,
      (∀ found ∈ (forwardExpired s.manager (s.timed.tick canExpire).1).1, found = true) ∧
      ((∀ entry ∈ s.timed.tickets, CanAge canExpire entry) →
        AgedOnce canExpire s.timed.tickets (s.timed.tick canExpire).2.tickets
          (s.timed.tick canExpire).1) := by
  have h : InStep (fun pos => (manager.ticketsAt pos : Multiset ChunkTicket))
      (runSteps perform (start persistent manager) operations) :=
    (inStep_start persistent fun pos => rfl).run
  refine ⟨h.canonical.nodup, ?_, ?_⟩
  · intro pos
    have hpos := h.holds pos
    rw [heldWith, heldBy, coe_add, coe_eq_coe] at hpos
    rw [sources, List.filter_map, List.map_map] at hpos
    exact hpos
  · intro canExpire
    exact ⟨(forwardExpired_spec (h.expired canExpire)).1, tick_agedOnce⟩

/-- Two portals are restored, one of them is used again, and a pearl is thrown. In the next tick the
other portal expires, and its place is taken by the pearl. -/
theorem timed_tickets_in_step_portals :
    let s := runSteps perform (start [⟨.portal, 0, 0, 0⟩, ⟨.portal, 9, 9, 5⟩] .new)
      [.addPortalTicket ⟨9, 9⟩, .addEnderPearlTicket ⟨9, 9⟩]
    let before :=
      [.portal ⟨0, 0⟩ 0, .portal ⟨9, 9⟩ 300, ⟨.enderPearl, ⟨9, 9⟩, enderPearlTicket, 40⟩]
    let after := [⟨.enderPearl, ⟨9, 9⟩, enderPearlTicket, 39⟩, .portal ⟨9, 9⟩ 299]
    (s.manager.ticketsAt ⟨9, 9⟩).Perm [portalTicket, enderPearlTicket] ∧
    (∀ found ∈ (forwardExpired s.manager [(⟨0, 0⟩, portalTicket)]).1, found = true) ∧
    AgedOnce (fun _ _ => true) before after [(⟨0, 0⟩, portalTicket)] := by
  intro s before after
  obtain ⟨-, hholds, htick⟩ := timed_tickets_in_step [⟨.portal, 0, 0, 0⟩, ⟨.portal, 9, 9, 5⟩] .new
    [.addPortalTicket ⟨9, 9⟩, .addEnderPearlTicket ⟨9, 9⟩]
  obtain ⟨hfound, hage⟩ := htick fun _ _ => true
  have hbefore : s.timed.tickets = before := by decide +kernel
  have hafter : s.timed.tick (fun _ _ => true) = ([(⟨0, 0⟩, portalTicket)], ⟨after⟩) := by
    decide +kernel
  refine ⟨hholds ⟨9, 9⟩, ?_, ?_⟩
  · rw [hafter] at hfound
    exact hfound
  · rw [hafter, hbefore] at hage
    have hmin : ∀ entry ∈ before, entry.ticksLeft ≠ minValue := by decide +kernel
    exact hage fun entry hentry hleast => absurd hleast (hmin entry hentry)

/-- An entry that is restored with the least time does not run out: its time wraps around. -/
theorem least_time_wraps :
    ¬ ∀ (persistent : List PersistentChunkTicket) (manager : ChunkTicketManager)
      (operations : List Operation) (canExpire : ℕ → ChunkPos → Bool),
      AgedOnce canExpire (runSteps perform (start persistent manager) operations).timed.tickets
        ((runSteps perform (start persistent manager) operations).timed.tick canExpire).2.tickets
        ((runSteps perform (start persistent manager) operations).timed.tick canExpire).1 := by
  intro hall
  obtain ⟨visits, hperm, hafter, -⟩ := hall [⟨.portal, 0, 0, minValue⟩] .new []
    fun _ _ => true
  have hbefore : (fromPersistent [⟨.portal, 0, 0, minValue⟩]).tickets =
      [.portal ⟨0, 0⟩ minValue] := by decide
  have htick : ((fromPersistent [⟨.portal, 0, 0, minValue⟩]).tick fun _ _ => true).2.tickets =
      [.portal ⟨0, 0⟩ maxValue] := by decide
  rw [runSteps_nil, start, hbefore, perm_singleton] at hperm
  rw [runSteps_nil, start, htick, hperm] at hafter
  exact absurd hafter (by decide)

end TimedTicketSystem

end Steel
