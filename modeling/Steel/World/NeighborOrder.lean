import Mathlib.Data.List.Perm.Basic
import Mathlib.Tactic.NormNum
import Steel.World.NeighborUpdater

/-! # The order of neighbour updates

The collecting updater runs callbacks in the order of the recursion: what a callback causes is
processed completely before the next direction of an interrupted update and before its siblings.
-/

namespace Steel

open List CollectingState Int

variable {W S B : Type}

/-- The directions that are left of an update of all neighbours. -/
def MultiUpdate.directions (update : MultiUpdate B) : List Direction :=
  (updateOrder.drop update.index).filter fun direction => some direction ≠ update.skipDirection

def NeighborUpdate.callbacks : NeighborUpdate S B → List (NeighborCallback S B)
  | full state pos sourceBlock movedByPiston =>
    [.neighbor (some state) pos sourceBlock movedByPiston]
  | multi update => update.directions.map fun direction =>
    .neighbor none (update.sourcePos.relative direction) update.sourceBlock false
  | shape update => [.shape update]
  | simple pos sourceBlock => [.neighbor none pos sourceBlock false]

/-- The world after a callback, and the updates it has caused. -/
def UpdateWorld.execute (world : UpdateWorld W S B) (w : W) :
    NeighborCallback S B → W × List (NeighborUpdate S B)
  | .neighbor state pos sourceBlock movedByPiston =>
    world.executeNeighborUpdate (state.getD (world.getBlockState w pos)) pos sourceBlock
      movedByPiston w
  | .shape update =>
    world.executeNeighborShapeUpdate update.direction update.pos update.neighborPos
      update.neighborState update.flags update.updateLimit w

/-- The updates that get by the limit when so many have been enqueued before. -/
def accepted (limit : Option ℕ) (count : ℕ) (updates : List (NeighborUpdate S B)) :
    List (NeighborUpdate S B) :=
  match limit with
  | none => updates
  | some limit => updates.take (limit - count)

/-- Callbacks are interpreted one after the other, each with all that it causes: the callbacks that
run, and the updates that are enqueued. -/
inductive Interprets (world : UpdateWorld W S B) (limit : Option ℕ) :
    List (NeighborCallback S B) → W → ℕ →
      List (NeighborCallback S B) → List (NeighborUpdate S B) → W → Prop
  | nil (w : W) (count : ℕ) : Interprets world limit [] w count [] [] w
  | cons {callback : NeighborCallback S B} {callbacks : List (NeighborCallback S B)} {w : W}
      {count : ℕ} {nested later : List (NeighborCallback S B)}
      {nestedUpdates laterUpdates : List (NeighborUpdate S B)} {wNested wLater : W}
      (hnested : Interprets world limit
        ((accepted limit count (world.execute w callback).2).flatMap NeighborUpdate.callbacks)
        (world.execute w callback).1 (count + (world.execute w callback).2.length)
        nested nestedUpdates wNested)
      (hlater : Interprets world limit callbacks wNested
        (count + (world.execute w callback).2.length + nestedUpdates.length)
        later laterUpdates wLater) :
      Interprets world limit (callback :: callbacks) w count (callback :: (nested ++ later))
        ((world.execute w callback).2 ++ (nestedUpdates ++ laterUpdates)) wLater

theorem MultiUpdate.drop_index (update : MultiUpdate B) :
    updateOrder.drop update.index = update.direction :: updateOrder.drop (update.index + 1) :=
  drop_eq_getElem_cons update.index_lt

theorem MultiUpdate.filter_drop_skipIndex (skipDirection : Option Direction) (index : ℕ) :
    (updateOrder.drop index).filter (fun direction => some direction ≠ skipDirection) =
      (updateOrder.drop (skipIndex skipDirection index)).filter
        fun direction => some direction ≠ skipDirection := by
  unfold skipIndex
  split_ifs with hskip
  · obtain ⟨hlt, hindex⟩ := hskip
    rw [List.getElem?_eq_getElem hlt] at hindex
    rw [drop_eq_getElem_cons hlt, filter_cons_of_neg (by simpa using hindex)]
  · rfl

theorem MultiUpdate.directions_eq (update : MultiUpdate B) :
    update.directions = update.direction :: (update.next.map MultiUpdate.directions).getD [] := by
  have hdirection : some update.direction ≠ update.skipDirection := by
    have h := update.not_skipped
    rwa [List.getElem?_eq_getElem update.index_lt] at h
  rw [directions, drop_index, filter_cons_of_pos (by simpa using hdirection), filter_drop_skipIndex]
  congr 1
  rw [next]
  split_ifs with hlt
  · rfl
  · rw [drop_eq_nil_of_le (Nat.le_of_not_lt hlt)]
    rfl

theorem MultiUpdate.next_source {update next : MultiUpdate B} (h : update.next = some next) :
    next.sourcePos = update.sourcePos ∧ next.sourceBlock = update.sourceBlock := by
  rw [MultiUpdate.next] at h
  split_ifs at h
  obtain rfl := Option.some.inj h
  constructor <;> rfl

namespace NeighborUpdate

variable (world : UpdateWorld W S B)

theorem callbacks_eq (w : W) (update : NeighborUpdate S B) : update.callbacks =
      update.callback :: (update.runNext world w).2.toList.flatMap NeighborUpdate.callbacks := by
  cases update with
  | multi update =>
    simp only [callbacks, callback, runNext]
    rw [update.directions_eq, map_cons]
    cases hnext : update.next with
    | none => rfl
    | some next =>
      obtain ⟨hpos, hblock⟩ := MultiUpdate.next_source hnext
      simp [callbacks, hpos, hblock]
  | _ => rfl

theorem runNext_fst (w : W) (update : NeighborUpdate S B) :
    (update.runNext world w).1 = world.execute w update.callback := by
  cases update <;> rfl

theorem length_callbacks_le (update : NeighborUpdate S B) : update.callbacks.length ≤ 6 := by
  cases update with
  | multi update =>
    simp only [callbacks, MultiUpdate.directions, length_map]
    refine (length_filter_le _ _).trans ?_
    rw [length_drop]
    exact Nat.sub_le _ _
  | _ => exact Nat.le_of_ble_eq_true rfl

end NeighborUpdate

theorem accepted_append (limit : Option ℕ) (count : ℕ)
    (updates updates' : List (NeighborUpdate S B)) :
    accepted limit count (updates ++ updates') =
      accepted limit count updates ++ accepted limit (count + updates.length) updates' := by
  cases limit with
  | none => rfl
  | some limit =>
    rw [accepted, accepted, accepted, take_append, Nat.sub_sub]

theorem length_callbacks_accepted_le (limit : Option ℕ) (count : ℕ)
    (updates : List (NeighborUpdate S B)) :
    ((accepted limit count updates).flatMap NeighborUpdate.callbacks).length ≤
      6 * updates.length := by
  have hall : ∀ updates : List (NeighborUpdate S B),
      (updates.flatMap NeighborUpdate.callbacks).length ≤ 6 * updates.length := by
    intro updates
    induction updates with
    | nil => rfl
    | cons update updates ih =>
      have := update.length_callbacks_le
      rw [flatMap_cons, length_append, length_cons]
      omega
  have hle : (accepted limit count updates).length ≤ updates.length := by
    cases limit with
    | none => exact le_rfl
    | some limit => exact length_take_le' _ _
  exact (hall _).trans (Nat.mul_le_mul_left 6 hle)

namespace Interprets

variable {world : UpdateWorld W S B} {limit : Option ℕ}

variable {callbacks run : List (NeighborCallback S B)} {enqueued : List (NeighborUpdate S B)}

theorem split {callbacks' : List (NeighborCallback S B)} : ∀ {w count run enqueued wEnd},
      Interprets world limit (callbacks ++ callbacks') w count run enqueued wEnd →
      ∃ run₁ run₂ enqueued₁ enqueued₂ wMid, run = run₁ ++ run₂ ∧ enqueued = enqueued₁ ++ enqueued₂ ∧
        Interprets world limit callbacks w count run₁ enqueued₁ wMid ∧
        Interprets world limit callbacks' wMid (count + enqueued₁.length) run₂ enqueued₂ wEnd := by
  induction callbacks with
  | nil =>
    intro w count run enqueued wEnd h
    exact ⟨[], run, [], enqueued, w, rfl, rfl, nil w count, h⟩
  | cons callback callbacks ih =>
    intro w count run enqueued wEnd h
    cases h with
    | @cons _ _ _ _ nested later nestedUpdates laterUpdates wNested _ hnested hlater =>
      obtain ⟨run₁, run₂, enqueued₁, enqueued₂, wMid, rfl, rfl, h₁, h₂⟩ := ih hlater
      refine ⟨_, run₂, _, enqueued₂, wMid, ?_, ?_, cons hnested h₁, ?_⟩
      · simp
      · simp
      · simpa [Nat.add_assoc] using h₂

variable {w wEnd : W}

theorem cons_of_append {callback : NeighborCallback S B} {count : ℕ} (h : Interprets world limit
      ((accepted limit count (world.execute w callback).2).flatMap NeighborUpdate.callbacks ++
        callbacks) (world.execute w callback).1 (count + (world.execute w callback).2.length)
      run enqueued wEnd) :
    Interprets world limit (callback :: callbacks) w count (callback :: run)
      ((world.execute w callback).2 ++ enqueued) wEnd := by
  obtain ⟨run₁, run₂, enqueued₁, enqueued₂, wMid, rfl, rfl, h₁, h₂⟩ := h.split
  exact cons h₁ h₂

/-- The callbacks that run are the given ones and those of the accepted updates. -/
theorem perm {count : ℕ} (h : Interprets world limit callbacks w count run enqueued wEnd) :
    run.Perm (callbacks ++ (accepted limit count enqueued).flatMap NeighborUpdate.callbacks) := by
  induction h with
  | nil w count => cases limit <;> simp [accepted]
  | cons hnested hlater ihNested ihLater =>
    rw [accepted_append, accepted_append, flatMap_append, flatMap_append, cons_append]
    refine List.Perm.cons _ ((ihNested.append ihLater).trans ?_)
    rw [← append_assoc (List.flatMap _ _)]
    exact perm_append_comm_assoc _ _ _

theorem unlimited {count limit : ℕ}
    (h : Interprets world (some limit) callbacks w count run enqueued wEnd)
    (hlimit : count + enqueued.length ≤ limit) :
    Interprets world none callbacks w count run enqueued wEnd := by
  generalize hl : some limit = l at h
  induction h with
  | nil w count => exact nil w count
  | @cons callback callbacks w count nested later nestedUpdates laterUpdates wNested wLater hnested
      hlater ihNested ihLater =>
    subst hl
    simp only [length_append] at hlimit
    have haccepted : accepted (some limit) count (world.execute w callback).2 =
        accepted none count (world.execute w callback).2 :=
      take_of_length_le (by omega)
    rw [haccepted] at ihNested
    exact cons (ihNested (by omega)) (ihLater (by omega))

end Interprets

/-- The limit as a number of updates, unless there is none. -/
def neighborLimit (maxChainedNeighborUpdates : Int32) : Option ℕ :=
  if maxChainedNeighborUpdates ≥ 0 then some maxChainedNeighborUpdates.toInt.toNat else none

/-- How often the limit is reported among updates of which so many have been enqueued before. -/
def reports (limit : Option ℕ) (count added : ℕ) : ℕ :=
  match limit with
  | none => 0
  | some limit => if count ≤ limit ∧ limit < count + added then 1 else 0

theorem reports_add (limit : Option ℕ) (count added added' : ℕ) :
    reports limit count (added + added') =
      reports limit count added + reports limit (count + added) added' := by
  cases limit with
  | none => rfl
  | some limit =>
    simp only [reports]
    split_ifs <;> omega

namespace CollectingState

variable {U : Type}

def pending (state : CollectingState U) : List U := state.addedThisLayer.reverse ++ state.stack

theorem moveLayer_eq (addedThisLayer stack : List U) :
    moveLayer addedThisLayer stack = addedThisLayer.reverse ++ stack := by
  induction addedThisLayer generalizing stack with
  | nil => rfl
  | cons update addedThisLayer ih => simp [moveLayer, ih]

theorem takeNext_of_pending_nil {state : CollectingState U} (h : state.pending = []) :
    state.takeNext = (none, ⟨[], [], state.count⟩) := by
  rw [pending] at h
  rw [takeNext, moveLayer_eq, h]

theorem takeNext_of_pending_cons {state : CollectingState U} {update : U} {updates : List U}
    (h : state.pending = update :: updates) :
    state.takeNext = (some update, ⟨updates, [], state.count⟩) := by
  rw [pending] at h
  rw [takeNext, moveLayer_eq, h]

theorem toInt_add_one {count : Int32} {n : ℕ} (h : count.toInt = n) (hn : n + 1 < 2 ^ 31) :
    (count + 1).toInt = (n + 1 : ℕ) := by
  rw [Int32.toInt_add, h, show (1 : Int32).toInt = 1 from rfl]
  rw [bmod_eq_of_le (by omega) (by omega)]
  omega

theorem enqueue_running {state : CollectingState (NeighborUpdate S B)} {n : ℕ}
    {maxChainedNeighborUpdates : Int32} (update : NeighborUpdate S B) (h : state.count.toInt = n)
    (hpos : 0 < n) :
    state.enqueue maxChainedNeighborUpdates update =
      (⟨false, neighborLimit maxChainedNeighborUpdates = some n⟩, ⟨state.stack,
          accepted (neighborLimit maxChainedNeighborUpdates) n [update] ++ state.addedThisLayer,
          state.count + 1⟩) := by
  have hrunning : state.count > 0 := by
    rw [gt_iff_lt, Int32.lt_iff_toInt_lt, h]
    exact natCast_pos.2 hpos
  have hcount : state.count + 1 - 1 = state.count := Int32.add_sub_cancel _ _
  by_cases hlimit : maxChainedNeighborUpdates ≥ 0
  · have hnonneg : 0 ≤ maxChainedNeighborUpdates.toInt := by
      rwa [ge_iff_le, Int32.le_iff_toInt_le] at hlimit
    have hmany : state.count ≥ maxChainedNeighborUpdates ↔
        maxChainedNeighborUpdates.toInt.toNat ≤ n := by
      rw [ge_iff_le, Int32.le_iff_toInt_le, h]
      omega
    have hfirst : state.count = maxChainedNeighborUpdates ↔
        maxChainedNeighborUpdates.toInt.toNat = n := by
      rw [← Int32.toInt_inj, h]
      omega
    simp only [enqueue, hrunning, hlimit, hmany, hcount, hfirst, neighborLimit, accepted]
    generalize maxChainedNeighborUpdates.toInt.toNat = limit
    by_cases hle : limit ≤ n
    · have heq : limit = n → limit ≤ n := fun _ => hle
      simp [hle, Nat.sub_eq_zero_of_le hle]
    · have hne : limit ≠ n := by omega
      obtain ⟨k, hk⟩ : ∃ k, limit - n = k + 1 := ⟨limit - n - 1, by omega⟩
      simp [hle, hne, hk]
  · simp [enqueue, hrunning, hlimit, neighborLimit, accepted]

/-- What a callback enqueues is collected up to the limit, and starts no run. -/
theorem enqueueAll_running (maxChainedNeighborUpdates : Int32)
    {updates : List (NeighborUpdate S B)} :
    ∀ (state : CollectingState (NeighborUpdate S B)) {n : ℕ}, state.count.toInt = n → 0 < n →
      n + updates.length < 2 ^ 31 →
      ∃ results state', enqueueAll maxChainedNeighborUpdates updates state = (results, state') ∧
        (∀ result ∈ results, result.shouldRun = false) ∧
        results.countP (·.firstSkipped) =
          reports (neighborLimit maxChainedNeighborUpdates) n updates.length ∧
        state'.stack = state.stack ∧ state'.addedThisLayer =
          (accepted (neighborLimit maxChainedNeighborUpdates) n updates).reverse ++
            state.addedThisLayer ∧
        state'.count.toInt = (n + updates.length : ℕ) := by
  induction updates with
  | nil =>
    intro state n h hpos hlt
    refine ⟨[], state, rfl, by simp, ?_, rfl, ?_, h⟩
    · cases neighborLimit maxChainedNeighborUpdates <;> simp [reports]
    · cases neighborLimit maxChainedNeighborUpdates <;> simp [accepted]
  | cons update updates ih =>
    intro state n h hpos hlt
    rw [length_cons] at hlt
    have hcount : (state.count + 1).toInt = (n + 1 : ℕ) := toInt_add_one h (by omega)
    obtain ⟨results, state', heq, hrun, hreports, hstack, hadded, hcount'⟩ :=
      ih ⟨state.stack, accepted (neighborLimit maxChainedNeighborUpdates) n [update] ++
        state.addedThisLayer, state.count + 1⟩ hcount (Nat.succ_pos n) (by omega)
    refine ⟨⟨false, neighborLimit maxChainedNeighborUpdates = some n⟩ :: results, state', ?_, ?_,
      ?_, hstack, ?_, ?_⟩
    · rw [enqueueAll, enqueue_running update h hpos]
      dsimp only
      rw [heq]
    · rintro result (_ | ⟨_, hresult⟩)
      · rfl
      · exact hrun result hresult
    · rw [countP_cons, hreports, length_cons, Nat.add_comm updates.length 1, reports_add,
        Nat.add_comm]
      congr 1
      cases neighborLimit maxChainedNeighborUpdates with
      | none => rfl
      | some limit =>
        simp only [reports, Option.some.injEq, decide_eq_true_eq]
        congr 1
        simp only [eq_iff_iff]
        omega
    · rw [hadded, show update :: updates = [update] ++ updates from rfl, accepted_append,
        reverse_append, append_assoc]
      congr 2
      cases neighborLimit maxChainedNeighborUpdates with
      | none => rfl
      | some limit => cases hk : limit - n <;> simp [accepted, hk]
    · rw [hcount', length_cons]
      congr 1
      omega

end CollectingState

variable (world : UpdateWorld W S B) (maxChainedNeighborUpdates : Int32)

/-- The state after a callback, with what the callback has enqueued and what is left of its
update. -/
def afterCallback (updates : List (NeighborUpdate S B)) (count : Int32) (w : W)
    (update : NeighborUpdate S B) : CollectingState (NeighborUpdate S B) :=
  let state := (enqueueAll maxChainedNeighborUpdates
    (world.execute w update.callback).2 ⟨updates, [], count⟩).2
  match (update.runNext world w).2 with
  | none => state
  | some update => state.returnUnfinished update

theorem runUpdates_of_pending_nil {state : CollectingState (NeighborUpdate S B)}
    (h : state.pending = []) (steps : ℕ) (w : W) :
    runUpdates world maxChainedNeighborUpdates (steps + 1) state w =
      ⟨true, [], [], [], .empty, w⟩ := by
  rw [runUpdates, takeNext_of_pending_nil h]
  rfl

theorem runUpdates_of_pending_cons {state : CollectingState (NeighborUpdate S B)}
    {update : NeighborUpdate S B} {updates : List (NeighborUpdate S B)}
    (h : state.pending = update :: updates) (steps : ℕ) (w : W) :
    runUpdates world maxChainedNeighborUpdates (steps + 1) state w =
      let run := runUpdates world maxChainedNeighborUpdates steps
        (afterCallback world maxChainedNeighborUpdates updates state.count w update)
        (world.execute w update.callback).1
      ⟨run.finished, update.callback :: run.callbacks,
        (world.execute w update.callback).2 ++ run.enqueued,
        (enqueueAll maxChainedNeighborUpdates (world.execute w update.callback).2
          ⟨updates, [], state.count⟩).1 ++ run.results, run.state, run.world⟩ := by
  rw [runUpdates, takeNext_of_pending_cons h]
  unfold afterCallback
  exact update.runNext_fst world w ▸ rfl

/-- One callback: its updates come before what is left of its update, which comes before
everything that has been waiting. -/
theorem afterCallback_spec (updates : List (NeighborUpdate S B)) {count : Int32} {n : ℕ} (w : W)
    (update : NeighborUpdate S B) (hcount : count.toInt = n) (hpos : 0 < n)
    (hlt : n + (world.execute w update.callback).2.length < 2 ^ 31) :
    (afterCallback world maxChainedNeighborUpdates updates count w update).pending =
        accepted (neighborLimit maxChainedNeighborUpdates) n (world.execute w update.callback).2 ++
          ((update.runNext world w).2.toList ++ updates) ∧
      (afterCallback world maxChainedNeighborUpdates updates count w update).count.toInt =
        (n + (world.execute w update.callback).2.length : ℕ) ∧
      (∀ result ∈ (enqueueAll maxChainedNeighborUpdates
        (world.execute w update.callback).2 ⟨updates, [], count⟩).1, result.shouldRun = false) ∧
      ((enqueueAll maxChainedNeighborUpdates (world.execute w update.callback).2
        ⟨updates, [], count⟩).1.countP (·.firstSkipped)) =
          reports (neighborLimit maxChainedNeighborUpdates) n
            (world.execute w update.callback).2.length := by
  obtain ⟨results, state', heq, hrun, hreports, hstack, hadded, hcount'⟩ :=
    enqueueAll_running maxChainedNeighborUpdates ⟨updates, [], count⟩ hcount hpos hlt
  simp only [afterCallback, heq]
  refine ⟨?_, ?_, hrun, hreports⟩
  · cases (update.runNext world w).2 <;>
      simp [pending, returnUnfinished, hstack, hadded]
  · cases (update.runNext world w).2 <;> exact hcount'

variable (steps : ℕ)

theorem length_callbacks_runUpdates :
    ∀ {state : CollectingState (NeighborUpdate S B)} {w : W} {n : ℕ}, state.count.toInt = n →
      0 < n →
      n + (runUpdates world maxChainedNeighborUpdates steps state w).enqueued.length < 2 ^ 31 →
      (runUpdates world maxChainedNeighborUpdates steps state w).callbacks.length ≤
        (state.pending.flatMap NeighborUpdate.callbacks).length +
          6 * (runUpdates world maxChainedNeighborUpdates steps state w).enqueued.length := by
  induction steps with
  | zero =>
    intro state w n hcount hpos hlt
    exact Nat.zero_le _
  | succ steps ih =>
    intro state w n hcount hpos hlt
    cases hpending : state.pending with
    | nil =>
      rw [runUpdates_of_pending_nil world maxChainedNeighborUpdates hpending]
      exact Nat.zero_le _
    | cons update updates =>
      rw [runUpdates_of_pending_cons world maxChainedNeighborUpdates hpending] at hlt ⊢
      simp only [length_append] at hlt
      obtain ⟨hafter, hcount', -, -⟩ := afterCallback_spec world maxChainedNeighborUpdates
        updates w update hcount hpos (by omega)
      have hrest := ih (w := (world.execute w update.callback).1) hcount' (by omega) (by omega)
      have hupdate := congrArg List.length (update.callbacks_eq world w)
      have hnested := length_callbacks_accepted_le (neighborLimit maxChainedNeighborUpdates) n
        (world.execute w update.callback).2
      rw [hafter, flatMap_append, flatMap_append] at hrest
      simp only [length_append, length_cons, flatMap_cons] at hrest hupdate ⊢
      omega

theorem length_callbacks_of_not_finished : ∀ {state : CollectingState (NeighborUpdate S B)} {w : W},
      (runUpdates world maxChainedNeighborUpdates steps state w).finished = false →
      (runUpdates world maxChainedNeighborUpdates steps state w).callbacks.length = steps := by
  induction steps with
  | zero =>
    intro state w h
    rfl
  | succ steps ih =>
    intro state w h
    cases hpending : state.pending with
    | nil =>
      rw [runUpdates_of_pending_nil world maxChainedNeighborUpdates hpending] at h
      cases h
    | cons update updates =>
      rw [runUpdates_of_pending_cons world maxChainedNeighborUpdates hpending] at h ⊢
      exact congrArg (· + 1) (ih h)

theorem runUpdates_interprets :
    ∀ {state : CollectingState (NeighborUpdate S B)} {w : W} {n : ℕ}, state.count.toInt = n →
      0 < n →
      n + (runUpdates world maxChainedNeighborUpdates steps state w).enqueued.length < 2 ^ 31 →
      (runUpdates world maxChainedNeighborUpdates steps state w).finished = true →
      let run := runUpdates world maxChainedNeighborUpdates steps state w
      Interprets world (neighborLimit maxChainedNeighborUpdates)
        (state.pending.flatMap NeighborUpdate.callbacks) w n run.callbacks run.enqueued run.world ∧
      run.state = .empty ∧ (∀ result ∈ run.results, result.shouldRun = false) ∧
      run.results.countP (·.firstSkipped) =
        reports (neighborLimit maxChainedNeighborUpdates) n run.enqueued.length := by
  induction steps with
  | zero =>
    intro state w n hcount hpos hlt h
    cases h
  | succ steps ih =>
    intro state w n hcount hpos hlt h
    cases hpending : state.pending with
    | nil =>
      rw [runUpdates_of_pending_nil world maxChainedNeighborUpdates hpending]
      refine ⟨.nil w n, rfl, by simp, ?_⟩
      cases neighborLimit maxChainedNeighborUpdates <;> simp [reports]
    | cons update updates =>
      rw [runUpdates_of_pending_cons world maxChainedNeighborUpdates hpending] at hlt h ⊢
      simp only [length_append] at hlt
      obtain ⟨hafter, hcount', hresults, hreports⟩ :=
        afterCallback_spec world maxChainedNeighborUpdates updates w update hcount hpos (by omega)
      obtain ⟨hinterprets, hempty, hrun, hcountP⟩ := ih hcount' (by omega) (by omega) h
      rw [hafter, flatMap_append, flatMap_append] at hinterprets
      refine ⟨?_, hempty, ?_, ?_⟩
      · rw [flatMap_cons, update.callbacks_eq world w, cons_append]
        exact hinterprets.cons_of_append
      · intro result hresult
        rcases mem_append.1 hresult with hresult | hresult
        · exact hresults result hresult
        · exact hrun result hresult
      · rw [countP_append, hreports, hcountP, length_append, reports_add]

theorem enqueue_empty (maxChainedNeighborUpdates : Int32) (update : NeighborUpdate S B) :
    empty.enqueue maxChainedNeighborUpdates update =
      (⟨true, neighborLimit maxChainedNeighborUpdates = some 0⟩,
        ⟨accepted (neighborLimit maxChainedNeighborUpdates) 0 [update], [], 1⟩) := by
  have hcount : (0 : Int32) + 1 - 1 = 0 := by decide
  by_cases hlimit : maxChainedNeighborUpdates ≥ 0
  · have hnonneg : 0 ≤ maxChainedNeighborUpdates.toInt := by
      rwa [ge_iff_le, Int32.le_iff_toInt_le] at hlimit
    have hmany : (0 : Int32) ≥ maxChainedNeighborUpdates ↔
        maxChainedNeighborUpdates.toInt.toNat = 0 := by
      rw [ge_iff_le, Int32.le_iff_toInt_le, show (0 : Int32).toInt = 0 from rfl]
      omega
    have hfirst : (0 : Int32) = maxChainedNeighborUpdates ↔
        maxChainedNeighborUpdates.toInt.toNat = 0 := by
      rw [← Int32.toInt_inj, show (0 : Int32).toInt = 0 from rfl]
      omega
    simp only [enqueue, empty, hlimit, hmany, hcount, hfirst,
      neighborLimit, accepted]
    generalize maxChainedNeighborUpdates.toInt.toNat = limit
    cases limit <;> simp
  · simp [enqueue, empty, hlimit, neighborLimit, accepted]

/-- The collecting updater is the recursion. With enough steps a run finishes that enqueues fewer
than `2 ^ 31` updates. It runs the callbacks in the order of the recursion, in which the updates
beyond the limit are left out; without the limit, these are all callbacks of all updates. The
limit is reported once if it is exceeded, no callback starts a run of its own, and the state is
empty again. -/
theorem addAndRun_interprets (world : UpdateWorld W S B) (maxChainedNeighborUpdates : Int32)
    (update : NeighborUpdate S B) (w : W)
    (hcount : ∀ steps, (addAndRun world maxChainedNeighborUpdates steps .empty update
      w).enqueued.length < 2 ^ 31) {steps : ℕ} (hsteps : 6 * 2 ^ 31 ≤ steps) :
    let run := addAndRun world maxChainedNeighborUpdates steps .empty update w
    run.finished = true ∧
    (maxChainedNeighborUpdates < 0 ∨ (run.enqueued.length : ℤ) ≤ maxChainedNeighborUpdates.toInt →
      Interprets world none update.callbacks w 1 run.callbacks run.enqueued.tail run.world) ∧
    (0 ≤ maxChainedNeighborUpdates → ∃ limit : ℕ, limit = maxChainedNeighborUpdates.toInt ∧
      Interprets world (some limit)
        ((accepted (some limit) 0 [update]).flatMap NeighborUpdate.callbacks) w 1 run.callbacks
        run.enqueued.tail run.world ∧
      run.callbacks.Perm ((run.enqueued.take limit).flatMap NeighborUpdate.callbacks) ∧
      run.results.countP (·.firstSkipped) = if limit < run.enqueued.length then 1 else 0) ∧
    (maxChainedNeighborUpdates < 0 → run.results.countP (·.firstSkipped) = 0) ∧
    (∀ result ∈ run.results.tail, result.shouldRun = false) ∧ run.state = .empty := by
  have hbound := hcount steps
  rw [addAndRun, enqueue_empty] at hbound ⊢
  simp only [if_true, length_cons, tail_cons] at hbound ⊢
  generalize hstate : (⟨accepted (neighborLimit maxChainedNeighborUpdates) 0 [update], [], 1⟩ :
    CollectingState (NeighborUpdate S B)) = state at hbound ⊢
  have hone : state.count.toInt = (1 : ℕ) := by
    rw [← hstate]
    rfl
  have hpending :
      state.pending = accepted (neighborLimit maxChainedNeighborUpdates) 0 [update] := by
    rw [← hstate]
    rfl
  have hfinished : (runUpdates world maxChainedNeighborUpdates steps state w).finished = true := by
    by_contra hnot
    have hlength := length_callbacks_of_not_finished world maxChainedNeighborUpdates steps
      (Bool.eq_false_of_not_eq_true hnot)
    have hle := length_callbacks_runUpdates world maxChainedNeighborUpdates steps (w := w) hone
      Nat.one_pos (by omega)
    have hroot := length_callbacks_accepted_le (neighborLimit maxChainedNeighborUpdates) 0 [update]
    rw [hpending] at hle
    simp only [length_singleton] at hroot
    omega
  obtain ⟨hinterprets, hempty, hrun, hreports⟩ :=
    runUpdates_interprets world maxChainedNeighborUpdates steps (w := w) hone Nat.one_pos
      (by omega) hfinished
  rw [hpending] at hinterprets
  refine ⟨hfinished, ?_, ?_, ?_, by simpa using hrun, hempty⟩
  · rintro (hnegative | hle)
    · have hlimit : neighborLimit maxChainedNeighborUpdates = none :=
        if_neg (by simpa using hnegative)
      simpa [hlimit, accepted] using hinterprets
    · have hlimit : neighborLimit maxChainedNeighborUpdates =
          some maxChainedNeighborUpdates.toInt.toNat :=
        if_pos (by rw [ge_iff_le, Int32.le_iff_toInt_le]; exact (natCast_nonneg _).trans hle)
      rw [hlimit] at hinterprets
      have hroot : accepted (some maxChainedNeighborUpdates.toInt.toNat) 0 [update] = [update] :=
        take_of_length_le (by rw [length_singleton]; omega)
      rw [hroot, flatMap_singleton] at hinterprets
      exact hinterprets.unlimited (by omega)
  · intro hnonneg
    have hlimit : neighborLimit maxChainedNeighborUpdates =
        some maxChainedNeighborUpdates.toInt.toNat := if_pos hnonneg
    rw [Int32.le_iff_toInt_le] at hnonneg
    rw [hlimit] at hinterprets hreports
    refine ⟨_, toNat_of_nonneg hnonneg, hinterprets, ?_, ?_⟩
    · have hperm := hinterprets.perm
      rw [← flatMap_append] at hperm
      have happend := accepted_append (some maxChainedNeighborUpdates.toInt.toNat) 0 [update]
        (runUpdates world maxChainedNeighborUpdates steps state w).enqueued
      rw [length_singleton, Nat.zero_add] at happend
      rw [← happend] at hperm
      exact hperm
    · rw [countP_cons, hreports, reports, hlimit]
      simp only [Option.some.injEq, decide_eq_true_eq]
      split_ifs <;> omega
  · intro hnegative
    have hlimit : neighborLimit maxChainedNeighborUpdates = none :=
      if_neg (by simpa using hnegative)
    rw [countP_cons, hreports, hlimit]
    rfl

namespace NeighborSample

/-- A world that counts callbacks; the first one updates two neighbours. -/
def twoNeighbors : UpdateWorld ℕ ℕ ℕ where
  getBlockState w _ := w
  executeNeighborUpdate _ pos block _ w :=
    (w + 1, if w = 0 then [.simple (pos.relative .up) block, .simple (pos.relative .down) block]
      else [])
  executeNeighborShapeUpdate _ _ _ _ _ _ w := (w + 1, [])

theorem run_interprets :
    let run := addAndRun twoNeighbors 1000000 (6 * 2 ^ 31) .empty (.simple ⟨0, 64, 0⟩ 1) 0
    run.finished = true ∧
      Interprets twoNeighbors none [.neighbor none ⟨0, 64, 0⟩ 1 false] 0 1 run.callbacks
        run.enqueued.tail run.world := by
  have hcount : ∀ steps, (addAndRun twoNeighbors 1000000 steps .empty (.simple ⟨0, 64, 0⟩ 1)
      0).enqueued.length ≤ 3 := by
    rintro (_ | _ | _ | _ | steps) <;> exact Nat.le_of_ble_eq_true rfl
  have hspec := addAndRun_interprets twoNeighbors 1000000 (.simple ⟨0, 64, 0⟩ 1) 0
    (fun steps => (hcount steps).trans_lt (by norm_num)) (le_refl (6 * 2 ^ 31))
  refine ⟨hspec.1, hspec.2.1 (Or.inr ?_)⟩
  exact (ofNat_le.2 (hcount (6 * 2 ^ 31))).trans (by decide)

end NeighborSample

end Steel
