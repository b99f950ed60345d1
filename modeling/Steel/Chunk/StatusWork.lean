import Mathlib.Data.Nat.SuccPred
import Mathlib.Algebra.Group.Nat.Defs
import Steel.Chunk.ChunkPyramid
import Steel.Lib.Run

/-! # Claims for the work on a status

The workers that generate a chunk claim a status with a compare-and-exchange of the started status,
and publish it when they are done.
-/

namespace Steel

open ChunkStatus Nat

open Function (update)

namespace ChunkStatus

def parent : ChunkStatus → Option ChunkStatus
  | empty => none
  | structureStarts => some empty
  | structureReferences => some structureStarts
  | biomes => some structureReferences
  | noise => some biomes
  | surface => some noise
  | carvers => some surface
  | features => some carvers
  | initializeLight => some features
  | light => some initializeLight
  | spawn => some light
  | full => some spawn

/-- `encoded_published_status`, where nothing is published yet at zero -/
def encoded : Option ChunkStatus → ℕ
  | none => 0
  | some status => status.getIndex + 1

theorem getIndex_eq_encoded_parent (status : ChunkStatus) :
    status.getIndex = encoded status.parent := by
  cases status <;> rfl

theorem encoded_injective : Function.Injective encoded := by
  rintro (_ | status) (_ | status') h
  · rfl
  · cases h
  · cases h
  · cases status <;> cases status' <;> first | rfl | cases h

end ChunkStatus

/-- `usize::MAX`, the started status of a new holder -/
def unstarted : ℕ := 2 ^ 64 - 1

/-- The started status where work is done up to a published status. -/
def startedIndex : Option ChunkStatus → ℕ
  | none => unstarted
  | some status => status.getIndex

/-- `status_work_covers` -/
def statusWorkCovers (current : ℕ) (status : ChunkStatus) : Bool :=
  current ≠ unstarted && current ≥ status.getIndex

/-- The two values afterwards, and whether they have been exchanged. -/
def compareExchange (current expected new : ℕ) : Bool × ℕ :=
  if current = expected then (true, new) else (false, current)

inductive ClaimOutcome where
  | claimed
  | covered
  | panics
  deriving DecidableEq

/-- `claim_status_work`: the outcome, and the started status afterwards. -/
def claimStatusWork (startedWork : ℕ) (status : ChunkStatus) : ClaimOutcome × ℕ :=
  match compareExchange startedWork (startedIndex status.parent) status.getIndex with
  | (true, startedWork) => (.claimed, startedWork)
  | (false, current) =>
    if statusWorkCovers current status then (.covered, current) else (.panics, current)

/-- What a worker publishes: the status that it has claimed, or that of a chunk that it has
loaded. -/
structure Completion where
  target : ChunkStatus
  loaded : Bool

inductive ClaimPhase where
  | working
  /-- In the loop of `mark_status_work_published`, with the started status that it has read. -/
  | marking (completion : Completion) (current : Option ℕ)
  | marked (completion : Completion)
  | published
  /-- In `release_status_work_claim`, with the index to go back to. -/
  | releasing (rollbackIndex : ℕ)

/-- A live claim, with what was published when it was made. -/
structure StatusWorkClaim where
  status : ChunkStatus
  phase : ClaimPhase
  publishedBefore : Option ChunkStatus

/-- A status that has been published by generation, what was published when it was claimed, and what
was published just before. -/
structure GeneratedStatus where
  status : ChunkStatus
  whenClaimed : Option ChunkStatus
  before : Option ChunkStatus

structure StatusWork where
  startedWork : ℕ
  publishedStatus : Option ChunkStatus
  claims : ℕ → Option StatusWorkClaim
  generated : List GeneratedStatus
  panicked : Bool

namespace StatusWork

def initial : StatusWork := ⟨unstarted, none, fun _ => none, [], false⟩

def setPhase (work : StatusWork) (id : ℕ) (claim : StatusWorkClaim) (phase : ClaimPhase) :
    StatusWork :=
  { work with claims := update work.claims id (some { claim with phase := phase }) }

def remove (work : StatusWork) (id : ℕ) : StatusWork :=
  { work with claims := update work.claims id none }

inductive Action where
  | claim (id : ℕ) (status : ChunkStatus)
  /-- The generation of the claimed status ends: `finish_generation_status` -/
  | finish (id : ℕ)
  /-- The chunk has been loaded: the assertion of `store_and_publish_chunk_status` -/
  | load (id : ℕ) (status : ChunkStatus)
  /-- The load at the beginning of `mark_status_work_published` -/
  | readStarted (id : ℕ)
  /-- A round of its loop -/
  | mark (id : ℕ)
  | publish (id : ℕ)
  /-- The claim is dropped, before it is completed or after it has been published. -/
  | release (id : ℕ)
  | rollBack (id : ℕ)

/-- The state after a step of a worker. A step that the worker cannot take changes nothing. -/
def step (work : StatusWork) : Action → StatusWork
  | .claim id status =>
    match claimStatusWork work.startedWork status with
    | (.claimed, startedWork) =>
      { work with
        startedWork := startedWork
        claims := update work.claims id
          (some ⟨status, .working, work.publishedStatus⟩) }
    | (.covered, _) => work
    | (.panics, _) => { work with panicked := true }
  | .finish id =>
    match work.claims id with
    | some ⟨status, .working, before⟩ =>
      work.setPhase id ⟨status, .working, before⟩ (.marking ⟨status, false⟩ none)
    | _ => work
  | .load id target =>
    match work.claims id with
    | some ⟨.empty, .working, before⟩ =>
      if work.publishedStatus = none then
        work.setPhase id ⟨.empty, .working, before⟩ (.marking ⟨target, true⟩ none)
      else { work with panicked := true }
    | _ => work
  | .readStarted id =>
    match work.claims id with
    | some ⟨status, .marking completion none, before⟩ =>
      work.setPhase id ⟨status, .marking completion none, before⟩
        (.marking completion (some work.startedWork))
    | _ => work
  | .mark id =>
    match work.claims id with
    | some ⟨status, .marking completion (some current), before⟩ =>
      let claim := ⟨status, .marking completion (some current), before⟩
      if statusWorkCovers current completion.target then
        work.setPhase id claim (.marked completion)
      else
        match compareExchange work.startedWork current completion.target.getIndex with
        | (true, startedWork) =>
          { work with startedWork := startedWork }.setPhase id claim (.marked completion)
        | (false, next) => work.setPhase id claim (.marking completion (some next))
    | _ => work
  | .publish id =>
    match work.claims id with
    | some ⟨status, .marked completion, before⟩ =>
      let work := work.setPhase id ⟨status, .marked completion, before⟩ .published
      if completion.loaded then { work with publishedStatus := some completion.target }
      else
        { work with
          publishedStatus :=
            if encoded work.publishedStatus <
              encoded (some completion.target) then some completion.target
            else work.publishedStatus
          generated := ⟨completion.target, before, work.publishedStatus⟩ :: work.generated }
    | _ => work
  | .release id =>
    match work.claims id with
    | some ⟨status, phase, before⟩ =>
      match phase with
      | .working | .published =>
        let rollbackIndex := startedIndex work.publishedStatus
        if statusWorkCovers rollbackIndex status then work.remove id
        else work.setPhase id ⟨status, phase, before⟩ (.releasing rollbackIndex)
      | _ => work
    | none => work
  | .rollBack id =>
    match work.claims id with
    | some ⟨status, .releasing rollbackIndex, _⟩ =>
      let (_, startedWork) := compareExchange work.startedWork status.getIndex rollbackIndex
      { work with startedWork := startedWork }.remove id
    | _ => work

/-- Claims have fresh names, and are made only when the parent is published. -/
def Allowed (work : StatusWork) : Action → Prop
  | .claim id status => work.claims id = none ∧
    encoded status.parent ≤ encoded work.publishedStatus
  | _ => True

def Pending : ClaimPhase → Prop
  | .published => False
  | _ => True

def Fits (completion : Completion) (status : ChunkStatus) : Prop :=
  if completion.loaded then status = .empty else completion.target = status

def Started (startedWork : ℕ) (status : ChunkStatus) : ClaimPhase → Prop
  | .working => startedWork = status.getIndex
  | .marking completion current => Fits completion status ∧ startedWork = status.getIndex ∧
    ∀ index, current = some index → index = status.getIndex
  | .marked completion => Fits completion status ∧ startedWork = completion.target.getIndex
  | .published => True
  | .releasing rollbackIndex =>
    startedWork = status.getIndex ∧ rollbackIndex = startedIndex status.parent

structure Invariant (work : StatusWork) : Prop where
  calm : work.panicked = false
  /-- Claims that have been published are covered by the published status. -/
  covered : ∀ id claim, work.claims id = some claim → ¬ Pending claim.phase →
    claim.status.getIndex < encoded work.publishedStatus
  /-- A pending claim is for the status after the published one. -/
  next : ∀ id claim, work.claims id = some claim → Pending claim.phase →
    claim.status.parent = work.publishedStatus ∧ claim.publishedBefore = work.publishedStatus ∧
      Started work.startedWork claim.status claim.phase
  single : ∀ id claim id' claim', work.claims id = some claim → Pending claim.phase →
    work.claims id' = some claim' → Pending claim'.phase → id = id'
  idle : (∀ id claim, work.claims id = some claim → ¬ Pending claim.phase) →
    work.startedWork = startedIndex work.publishedStatus
  history : ∀ generated ∈ work.generated,
    generated.before = generated.status.parent ∧ generated.whenClaimed = generated.status.parent

theorem initial_invariant : Invariant initial where
  calm := rfl
  covered := by
    rintro id claim ⟨⟩
  next := by
    rintro id claim ⟨⟩
  single := by
    rintro id claim id' claim' ⟨⟩
  idle _ := rfl
  history := by
    rintro generated ⟨⟩

variable {published : Option ChunkStatus}

theorem startedIndex_of_covers {status : ChunkStatus} :
    statusWorkCovers (startedIndex published) status = true ↔
      status.getIndex < encoded published := by
  cases published with
  | none => simp [statusWorkCovers, startedIndex, encoded]
  | some published =>
    have hlt := published.getIndex_lt
    have hne : published.getIndex ≠ unstarted := by
      unfold unstarted
      omega
    simp [statusWorkCovers, startedIndex, encoded, hne]

theorem statusWorkCovers_getIndex {status status' : ChunkStatus} :
    statusWorkCovers status'.getIndex status = true ↔ status.getIndex ≤ status'.getIndex :=
  (@startedIndex_of_covers (some status') status).trans Nat.lt_succ_iff

variable {startedWork : ℕ}

/-- A claim of a status whose parent is published does not panic. It succeeds if and only if the
status is not started. -/
theorem claimStatusWork_eq {status : ChunkStatus}
    (h : startedWork = startedIndex status.parent ∨ statusWorkCovers startedWork status = true) :
    claimStatusWork startedWork status =
      if statusWorkCovers startedWork status then (.covered, startedWork)
      else (.claimed, status.getIndex) := by
  have hparent : statusWorkCovers (startedIndex status.parent) status = false := by
    rw [Bool.eq_false_iff, ne_eq, startedIndex_of_covers, status.getIndex_eq_encoded_parent]
    exact Nat.lt_irrefl _
  rw [claimStatusWork, compareExchange]
  rcases h with rfl | hcovers
  · simp [hparent]
  · have hne : startedWork ≠ startedIndex status.parent := by
      rintro rfl
      rw [hparent] at hcovers
      cases hcovers
    simp [hne, hcovers]

theorem update_eq_some {claims : ℕ → Option StatusWorkClaim} {id id' : ℕ}
    {new : Option StatusWorkClaim} {claim : StatusWorkClaim} :
    update claims id new id' = some claim ↔
      (id' = id ∧ new = some claim) ∨ (id' ≠ id ∧ claims id' = some claim) := by
  by_cases h : id' = id
  · subst h
    simp
  · simp [h]

section Steps

variable {work : StatusWork} {id : ℕ} {claim : StatusWorkClaim}

section

variable (hi : Invariant work)

include hi

section

variable (h : work.claims id = some claim)

include h

theorem Invariant.others (hp : Pending claim.phase) {id' : ℕ}
    {claim' : StatusWorkClaim} (hne : id' ≠ id) (h' : work.claims id' = some claim') :
    ¬ Pending claim'.phase :=
  fun hp' => hne (hi.single id' claim' id claim h' hp' h hp)

theorem Invariant.started_covers (hp : Pending claim.phase) :
    statusWorkCovers work.startedWork claim.status = true := by
  obtain ⟨-, -, hstarted⟩ := hi.next id claim h hp
  obtain ⟨status, phase, before⟩ := claim
  cases phase with
  | working =>
    rw [show work.startedWork = status.getIndex from hstarted]
    exact statusWorkCovers_getIndex.2 (Nat.le_refl _)
  | marking completion current =>
    rw [hstarted.2.1]
    exact statusWorkCovers_getIndex.2 (Nat.le_refl _)
  | marked completion =>
    obtain ⟨hfits, hstarted⟩ := hstarted
    rw [hstarted, statusWorkCovers_getIndex]
    unfold Fits at hfits
    split_ifs at hfits
    · subst hfits
      exact Nat.zero_le _
    · exact Nat.le_of_eq (congrArg getIndex hfits.symm)
  | published => exact hp.elim
  | releasing rollbackIndex =>
    rw [hstarted.1]
    exact statusWorkCovers_getIndex.2 (Nat.le_refl _)

theorem Invariant.setPhase (hp : Pending claim.phase) {phase : ClaimPhase} (hphase : Pending phase)
    (hstarted : Started startedWork claim.status phase) :
    Invariant ({ work with startedWork := startedWork }.setPhase id claim phase) where
  calm := hi.calm
  covered := by
    intro id' claim' h' hp'
    rcases update_eq_some.1 h' with ⟨rfl, heq⟩ | ⟨hne, h'⟩
    · obtain rfl := Option.some.inj heq
      exact absurd hphase hp'
    · exact hi.covered id' claim' h' hp'
  next := by
    intro id' claim' h' hp'
    rcases update_eq_some.1 h' with ⟨rfl, heq⟩ | ⟨hne, h'⟩
    · obtain rfl := Option.some.inj heq
      obtain ⟨hparent, hbefore, -⟩ := hi.next id' claim h hp
      exact ⟨hparent, hbefore, hstarted⟩
    · exact absurd hp' (hi.others h hp hne h')
  single := by
    intro id' claim' id'' claim'' h' hp' h'' hp''
    rcases update_eq_some.1 h' with ⟨rfl, -⟩ | ⟨hne, h'⟩
    · rcases update_eq_some.1 h'' with ⟨rfl, -⟩ | ⟨hne, h''⟩
      · rfl
      · exact absurd hp'' (hi.others h hp hne h'')
    · exact absurd hp' (hi.others h hp hne h')
  idle hall := absurd hphase (hall id _ (update_eq_some.2 (Or.inl ⟨rfl, rfl⟩)))
  history := hi.history

/-- A claim goes away. If it was pending, the started status must be the published one. -/
theorem Invariant.remove
    (hstarted : Pending claim.phase → startedWork = startedIndex work.publishedStatus)
    (hother : ¬ Pending claim.phase → startedWork = work.startedWork) :
    Invariant ({ work with startedWork := startedWork }.remove id) where
  calm := hi.calm
  covered := by
    intro id' claim' h' hp'
    rcases update_eq_some.1 h' with ⟨-, heq⟩ | ⟨hne, h'⟩
    · cases heq
    · exact hi.covered id' claim' h' hp'
  next := by
    intro id' claim' h' hp'
    rcases update_eq_some.1 h' with ⟨-, heq⟩ | ⟨hne, h'⟩
    · cases heq
    · obtain ⟨hparent, hbefore, hstarted'⟩ := hi.next id' claim' h' hp'
      rw [← hother fun hp => hi.others h hp hne h' hp'] at hstarted'
      exact ⟨hparent, hbefore, hstarted'⟩
  single := by
    intro id' claim' id'' claim'' h' hp' h'' hp''
    rcases update_eq_some.1 h' with ⟨-, heq⟩ | ⟨-, h'⟩
    · cases heq
    · rcases update_eq_some.1 h'' with ⟨-, heq⟩ | ⟨-, h''⟩
      · cases heq
      · exact hi.single id' claim' id'' claim'' h' hp' h'' hp''
  idle := by
    intro hall
    by_cases hp : Pending claim.phase
    · exact hstarted hp
    · refine (hother hp).trans (hi.idle fun id' claim' h' => ?_)
      by_cases heq : id' = id
      · subst heq
        rwa [← Option.some.inj (h.symm.trans h')]
      · exact hall id' claim' (update_eq_some.2 (Or.inr ⟨heq, h'⟩))
  history := hi.history

end

variable {status : ChunkStatus}

theorem Invariant.covers_of_pending (h : work.claims id = some claim) (hp : Pending claim.phase)
    (hparent : encoded status.parent ≤ encoded work.publishedStatus) :
    statusWorkCovers work.startedWork status = true := by
  have hcovers := hi.started_covers h hp
  have hle : status.getIndex ≤ claim.status.getIndex := by
    rw [status.getIndex_eq_encoded_parent, claim.status.getIndex_eq_encoded_parent,
      (hi.next id claim h hp).1]
    exact hparent
  simp only [statusWorkCovers, Bool.and_eq_true, decide_eq_true_eq] at hcovers ⊢
  exact ⟨hcovers.1, Nat.le_trans hle hcovers.2⟩

/-- Nothing is pending, or one claim for the status after the published one. -/
theorem Invariant.started
    (hparent : encoded status.parent ≤ encoded work.publishedStatus) :
    work.startedWork = startedIndex status.parent ∨
      statusWorkCovers work.startedWork status = true := by
  by_cases hall : ∀ id claim, work.claims id = some claim → ¬ Pending claim.phase
  · rw [hi.idle hall]
    rcases Nat.eq_or_lt_of_le hparent with heq | hlt
    · rw [encoded_injective heq]
      exact Or.inl rfl
    · rw [startedIndex_of_covers, status.getIndex_eq_encoded_parent]
      exact Or.inr hlt
  · simp only [not_forall, not_not] at hall
    obtain ⟨id, claim, h, hp⟩ := hall
    exact Or.inr (hi.covers_of_pending h hp hparent)

theorem Invariant.step_claim
    (hparent : encoded status.parent ≤ encoded work.publishedStatus) :
    Invariant (work.step (.claim id status)) := by
  rw [step, claimStatusWork_eq (hi.started hparent)]
  cases hcovers : statusWorkCovers work.startedWork status with
  | true => exact hi
  | false =>
    have hall : ∀ id claim, work.claims id = some claim → ¬ Pending claim.phase := by
      intro id claim h hp
      rw [hi.covers_of_pending h hp hparent] at hcovers
      cases hcovers
    have hpublished : status.parent = work.publishedStatus := by
      rw [hi.idle hall, Bool.eq_false_iff, ne_eq, startedIndex_of_covers,
        status.getIndex_eq_encoded_parent] at hcovers
      exact encoded_injective (Nat.le_antisymm hparent (Nat.le_of_not_lt hcovers))
    have hid : ∀ id' claim', update work.claims id
        (some ⟨status, .working, work.publishedStatus⟩) id' = some claim' →
          Pending claim'.phase → id' = id := by
      intro id' claim' h' hp'
      rcases update_eq_some.1 h' with ⟨rfl, -⟩ | ⟨-, h'⟩
      · rfl
      · exact absurd hp' (hall id' claim' h')
    constructor
    · exact hi.calm
    · intro id' claim' h' hp'
      rcases update_eq_some.1 h' with ⟨rfl, heq⟩ | ⟨hne, h'⟩
      · obtain rfl := Option.some.inj heq
        exact absurd trivial hp'
      · exact hi.covered id' claim' h' hp'
    · intro id' claim' h' hp'
      rcases update_eq_some.1 h' with ⟨rfl, heq⟩ | ⟨hne, h'⟩
      · obtain rfl := Option.some.inj heq
        exact ⟨hpublished, rfl, rfl⟩
      · exact absurd hp' (hall id' claim' h')
    · intro id' claim' id'' claim'' h' hp' h'' hp''
      rw [hid id' claim' h' hp', hid id'' claim'' h'' hp'']
    · intro hnone
      exact absurd trivial (hnone id _ (update_eq_some.2 (Or.inl ⟨rfl, rfl⟩)))
    · exact hi.history

theorem Invariant.publish (h : work.claims id = some claim) (hp : Pending claim.phase)
    {generated : List GeneratedStatus} (hstarted : work.startedWork = startedIndex published)
    (hcovers : claim.status.getIndex < encoded published)
    (hgenerated : ∀ g ∈ generated, g.before = g.status.parent ∧ g.whenClaimed = g.status.parent) :
    Invariant { work.setPhase id claim .published with
      publishedStatus := published
      generated := generated } where
  calm := hi.calm
  covered := by
    intro id' claim' h' hp'
    rcases update_eq_some.1 h' with ⟨rfl, heq⟩ | ⟨hne, h'⟩
    · obtain rfl := Option.some.inj heq
      exact hcovers
    · have hle : encoded work.publishedStatus ≤ encoded published := by
        rw [← (hi.next id claim h hp).1, ← claim.status.getIndex_eq_encoded_parent]
        exact Nat.le_of_lt hcovers
      exact Nat.lt_of_lt_of_le (hi.covered id' claim' h' hp') hle
  next := by
    intro id' claim' h' hp'
    rcases update_eq_some.1 h' with ⟨rfl, heq⟩ | ⟨hne, h'⟩
    · obtain rfl := Option.some.inj heq
      exact hp'.elim
    · exact absurd hp' (hi.others h hp hne h')
  single := by
    intro id' claim' id'' claim'' h' hp' h'' hp''
    rcases update_eq_some.1 h' with ⟨rfl, heq⟩ | ⟨hne, h'⟩
    · obtain rfl := Option.some.inj heq
      exact hp'.elim
    · exact absurd hp' (hi.others h hp hne h')
  idle _ := hstarted
  history := hgenerated

theorem Invariant.step_publish : Invariant (work.step (.publish id)) := by
  rw [step]
  rcases hclaim : work.claims id with _ | ⟨status, phase, before⟩
  · exact hi
  · cases phase with
    | marked completion =>
      obtain ⟨hparent, hbefore, hfits, hstarted⟩ := hi.next id _ hclaim trivial
      cases hloaded : completion.loaded with
      | true =>
        simp only [Fits, hloaded, if_true] at hfits
        subst hfits
        have hpublish := hi.publish hclaim trivial
          (show work.startedWork = startedIndex (some completion.target) from hstarted)
          (succ_pos _) hi.history
        simp only [hloaded, if_true]
        exact hpublish
      | false =>
        simp only [Fits, hloaded, Bool.false_eq_true, if_false] at hfits
        subst hfits
        have hlt : encoded work.publishedStatus <
            encoded (some completion.target) := by
          rw [← hparent, ← completion.target.getIndex_eq_encoded_parent]
          exact lt_succ_self _
        have hgenerated : ∀ g ∈
            (⟨completion.target, before, work.publishedStatus⟩ : GeneratedStatus) :: work.generated,
            g.before = g.status.parent ∧ g.whenClaimed = g.status.parent := by
          rintro g (_ | ⟨_, hg⟩)
          · exact ⟨hparent.symm, hbefore.trans hparent.symm⟩
          · exact hi.history g hg
        have hpublish := hi.publish hclaim trivial
          (show work.startedWork = startedIndex (some completion.target) from hstarted)
          (lt_succ_self _) hgenerated
        simp only [hloaded, Bool.false_eq_true, if_false]
        rw [if_pos (show encoded (work.setPhase id _ .published).publishedStatus < _
          from hlt)]
        exact hpublish
    | _ => exact hi

theorem Invariant.step_release : Invariant (work.step (.release id)) := by
  rw [step]
  rcases hclaim : work.claims id with _ | ⟨status, phase, before⟩
  · exact hi
  · cases phase with
    | working =>
      obtain ⟨hparent, -, hstarted⟩ := hi.next id _ hclaim trivial
      have hcovers : statusWorkCovers (startedIndex work.publishedStatus) status = false := by
        rw [Bool.eq_false_iff, ne_eq, startedIndex_of_covers, ← hparent,
          ← status.getIndex_eq_encoded_parent]
        exact Nat.lt_irrefl _
      simp only [hcovers, Bool.false_eq_true, if_false]
      exact hi.setPhase hclaim trivial trivial ⟨hstarted, by rw [← hparent]⟩
    | published =>
      have hcovers : statusWorkCovers (startedIndex work.publishedStatus) status = true :=
        startedIndex_of_covers.2 (hi.covered id _ hclaim fun hp => hp)
      simp only [hcovers, if_true]
      exact hi.remove hclaim (fun hp => hp.elim) fun _ => rfl
    | _ => exact hi

theorem Invariant.step_rollBack : Invariant (work.step (.rollBack id)) := by
  rw [step]
  rcases hclaim : work.claims id with _ | ⟨status, phase, before⟩
  · exact hi
  · cases phase with
    | releasing rollbackIndex =>
      obtain ⟨hparent, -, hstarted, hrollback⟩ := hi.next id _ hclaim trivial
      simp only [compareExchange, hstarted, if_true]
      refine hi.remove hclaim (fun _ => ?_) fun hp => absurd trivial hp
      rw [hrollback, hparent]
    | _ => exact hi

theorem Invariant.step_mark : Invariant (work.step (.mark id)) := by
  rw [step]
  rcases hclaim : work.claims id with _ | ⟨status, phase, before⟩
  · exact hi
  · cases phase with
    | marking completion current =>
      cases current with
      | none => exact hi
      | some current =>
        obtain ⟨-, -, hfits, hstarted, hcurrent⟩ := hi.next id _ hclaim trivial
        have hcurrent := hcurrent current rfl
        dsimp only at hcurrent hfits hstarted ⊢
        subst hcurrent
        split_ifs with hcovers
        · refine hi.setPhase hclaim trivial trivial ⟨hfits, ?_⟩
          rw [statusWorkCovers_getIndex] at hcovers
          unfold Fits at hfits
          split_ifs at hfits
          · subst hfits
            exact hstarted.trans (le_zero.1 hcovers).symm
          · rw [hfits]
            exact hstarted
        · rw [compareExchange, if_pos hstarted]
          exact hi.setPhase hclaim trivial trivial ⟨hfits, rfl⟩
    | _ => exact hi

theorem Invariant.step {action : Action} (h : work.Allowed action) :
    Invariant (work.step action) := by
  cases action with
  | claim id status => exact hi.step_claim h.2
  | finish id =>
    rw [StatusWork.step]
    rcases hclaim : work.claims id with _ | ⟨status, phase, before⟩
    · exact hi
    · cases phase with
      | working =>
        obtain ⟨-, -, hstarted⟩ := hi.next id _ hclaim trivial
        exact hi.setPhase hclaim trivial trivial ⟨rfl, hstarted, by rintro index ⟨⟩⟩
      | _ => exact hi
  | load id target =>
    rw [StatusWork.step]
    rcases hclaim : work.claims id with _ | ⟨status, phase, before⟩
    · exact hi
    · cases phase with
      | working =>
        cases status with
        | empty =>
          obtain ⟨hparent, -, hstarted⟩ := hi.next id _ hclaim trivial
          have hnone : work.publishedStatus = none := hparent.symm
          dsimp only
          rw [if_pos hnone]
          exact hi.setPhase hclaim trivial trivial ⟨rfl, hstarted, by rintro index ⟨⟩⟩
        | _ => exact hi
      | _ => cases status <;> exact hi
  | readStarted id =>
    rw [StatusWork.step]
    rcases hclaim : work.claims id with _ | ⟨status, phase, before⟩
    · exact hi
    · cases phase with
      | marking completion current =>
        cases current with
        | none =>
          obtain ⟨-, -, hfits, hstarted, -⟩ := hi.next id _ hclaim trivial
          exact hi.setPhase hclaim trivial trivial
            ⟨hfits, hstarted, fun index hindex => (Option.some.inj hindex).symm.trans hstarted⟩
        | some current => exact hi
      | _ => exact hi
  | mark id => exact hi.step_mark
  | publish id => exact hi.step_publish
  | release id => exact hi.step_release
  | rollBack id => exact hi.step_rollBack

end

end Steps

theorem encoded_publishedStatus_le (work : StatusWork) (hi : Invariant work) (action : Action) :
    encoded work.publishedStatus ≤
      encoded (work.step action).publishedStatus := by
  cases action with
  | claim id status =>
    rw [step]
    rcases claimStatusWork work.startedWork status with ⟨_ | _ | _, _⟩ <;> exact Nat.le_refl _
  | publish id =>
    rw [step]
    rcases hclaim : work.claims id with _ | ⟨status, phase, before⟩
    · exact Nat.le_refl _
    · cases phase with
      | marked completion =>
        obtain ⟨hparent, -, hfits, -⟩ := hi.next id _ hclaim trivial
        dsimp only
        split_ifs with hloaded hlt
        · rw [Fits, if_pos hloaded] at hfits
          rw [← hparent, hfits]
          exact Nat.zero_le _
        · exact Nat.le_of_lt hlt
        · exact Nat.le_refl _
      | _ => exact Nat.le_refl _
  | mark id =>
    rw [step]
    rcases work.claims id with _ | ⟨status, _ | ⟨completion, _ | current⟩ | _ | _ | _, before⟩ <;>
      try exact Nat.le_refl _
    dsimp only
    split_ifs
    · exact Nat.le_refl _
    · rcases compareExchange work.startedWork current completion.target.getIndex with ⟨_ | _, _⟩ <;>
        exact Nat.le_refl _
  | release id =>
    rw [step]
    rcases work.claims id with _ | ⟨status, _ | _ | _ | _ | _, before⟩ <;>
      first
        | exact Nat.le_refl _
        | (dsimp only; split_ifs <;> exact Nat.le_refl _)
  | load id target =>
    rw [step]
    split
    · split_ifs <;> exact Nat.le_refl _
    · exact Nat.le_refl _
  | finish id | readStarted id | rollBack id =>
    rw [step]
    split <;> exact Nat.le_refl _

/-- One worker at a time works on the next status. In every interleaving of workers that claim a
status only when its parent is published: no claim panics; there is at most one live claim above
the published status; the published status never goes back; a status is published by generation
right after its parent, under which it has been claimed; and as soon as no live claim is above the
published status, a claim for the next one succeeds, also after one that has been given up. -/
theorem run_statusWork {actions : List Action} (h : Guarded step Allowed initial actions) :
    (runSteps step initial actions).panicked = false ∧
    (∀ id claim id' claim', (runSteps step initial actions).claims id = some claim →
      (runSteps step initial actions).claims id' = some claim' →
      encoded (runSteps step initial actions).publishedStatus ≤ claim.status.getIndex →
      encoded (runSteps step initial actions).publishedStatus ≤ claim'.status.getIndex →
      id = id') ∧
    (∀ action, encoded (runSteps step initial actions).publishedStatus ≤
      encoded ((runSteps step initial actions).step action).publishedStatus) ∧
    (∀ generated ∈ (runSteps step initial actions).generated,
      generated.before = generated.status.parent ∧
        generated.whenClaimed = generated.status.parent) ∧
    (∀ id status, (runSteps step initial actions).Allowed (.claim id status) →
      (claimStatusWork (runSteps step initial actions).startedWork status).1 ≠ .panics ∧
      ((∀ id' claim, (runSteps step initial actions).claims id' = some claim →
          claim.status.getIndex <
            encoded (runSteps step initial actions).publishedStatus) →
        encoded (runSteps step initial actions).publishedStatus ≤ status.getIndex →
        (claimStatusWork (runSteps step initial actions).startedWork status).1 = .claimed)) := by
  have hi : Invariant (runSteps step initial actions) :=
    h.invariant (fun work action hi hallowed => hi.step hallowed) initial_invariant
  generalize runSteps step initial actions = work at hi ⊢
  refine ⟨hi.calm, ?_, work.encoded_publishedStatus_le hi, hi.history, ?_⟩
  · intro id claim id' claim' h h' hle hle'
    have hp : Pending claim.phase := by
      by_contra hp
      exact Nat.not_lt.2 hle (hi.covered id claim h hp)
    have hp' : Pending claim'.phase := by
      by_contra hp'
      exact Nat.not_lt.2 hle' (hi.covered id' claim' h' hp')
    exact hi.single id claim id' claim' h hp h' hp'
  · rintro id status ⟨-, hparent⟩
    rw [claimStatusWork_eq (hi.started hparent)]
    constructor
    · split_ifs <;> rintro ⟨⟩
    · intro hall hle
      have hidle : ∀ id claim, work.claims id = some claim → ¬ Pending claim.phase := by
        intro id claim h hp
        have hlt := hall id claim h
        rw [claim.status.getIndex_eq_encoded_parent, (hi.next id claim h hp).1] at hlt
        exact Nat.lt_irrefl _ hlt
      have hcovers : statusWorkCovers work.startedWork status = false := by
        rw [hi.idle hidle, Bool.eq_false_iff, ne_eq, startedIndex_of_covers]
        exact Nat.not_lt.2 hle
      rw [hcovers]
      rfl

/-- A claim is given up, and the next one generates the status. -/
def sampleActions : List Action :=
  [.claim 0 .empty, .release 0, .rollBack 0, .claim 1 .empty, .finish 1, .readStarted 1, .mark 1,
    .publish 1, .release 1, .claim 2 .structureStarts]

theorem run_sample :
    (runSteps step initial sampleActions).panicked = false ∧
      (∀ generated ∈ (runSteps step initial sampleActions).generated,
        generated.before = generated.status.parent ∧
          generated.whenClaimed = generated.status.parent) := by
  have hallowed : Guarded step Allowed initial sampleActions :=
    ⟨⟨rfl, Nat.zero_le _⟩, trivial, trivial, ⟨rfl, Nat.zero_le _⟩, trivial, trivial, trivial,
      trivial, trivial, ⟨rfl, Nat.le_refl _⟩, trivial⟩
  exact ⟨(run_statusWork hallowed).1, (run_statusWork hallowed).2.2.2.1⟩

end StatusWork

end Steel
