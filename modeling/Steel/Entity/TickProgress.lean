import Steel.Entity.TickSafety

/-! # Every entity is ticked after its vehicle

When no callback touches an entity and what carries it, the pass comes to its root vehicle and goes
down from there.
-/

namespace Steel

open EntityWorld List Option

/-- Relationships, removal and visibility are the same. -/
structure EntityWorld.Unchanged (world world' : EntityWorld) : Prop where
  vehicle : world'.vehicle = world.vehicle
  passengers : world'.passengers = world.passengers
  isRemoved : world'.isRemoved = world.isRemoved
  live : world'.live = world.live
  tickList : world'.tickList = world.tickList

/-- A callback that changes no relationship, no removal and no visibility, and no pending world
change of the given entities. -/
def QuietCallback (entities : EntityId → Prop)
    (callback : EntityWorld → EntityId → List EntityAction) : Prop :=
  ∀ world entity world', world.performAll (callback world entity) = some world' →
    Unchanged world world' ∧
      ∀ x, entities x → world'.isWorldChangePending x = world.isWorldChangePending x

structure EntityCallbacks.Quiet (entities : EntityId → Prop) (callbacks : EntityCallbacks) :
    Prop where
  checkDespawn : QuietCallback entities callbacks.checkDespawn
  tick : QuietCallback entities callbacks.tick
  rideTick : QuietCallback entities callbacks.rideTick

theorem EntityWorld.RidingForest.countPlayerPassengers_ne_zero {world : EntityWorld}
    {player entity : EntityId} {count : ℕ} (h : RidingForest world)
    (hplayer : world.isPlayer player = true) (hne : player ≠ entity)
    (hleads : LeadsTo world.vehicle player entity)
    (hcount : world.countPlayerPassengers entity = some count) : count ≠ 0 := by
  obtain ⟨after, hafter, rfl⟩ := map_eq_some_iff.1 hcount
  obtain ⟨order, horder⟩ := DepthFirst.visitAll_adds (fun _ _ _ => DepthFirst.visit_adds) hafter
  have hmem : ∀ x, x ≠ entity → x ∈ after.2 → x ∈ order := by
    intro x hx hvisited
    rcases (horder.visited x).1 hvisited with hstart | hin
    · exact absurd (mem_singleton.1 hstart) hx
    · exact hin
  have hall : ∀ x, LeadsTo world.vehicle x entity → x ≠ entity → x ∈ order := by
    intro x hx
    induction hx using Relation.ReflTransGen.head_induction_on with
    | refl => exact fun hself => absurd rfl hself
    | @head a b hab _ ih =>
      intro ha
      have hpassenger : a ∈ world.passengers b := (h.mem a b).1 hab
      by_cases hb : b = entity
      · subst hb
        exact hmem a ha (horder.starts a hpassenger)
      · exact hmem a ha (horder.closed b (ih hb) a hpassenger)
  have hgrows : ∀ (l : List EntityId) (n : ℕ), player ∈ l ∨ n ≠ 0 → l.foldl (fun total passenger =>
      if world.isPlayer passenger then total + 1 else total) n ≠ 0 := by
    intro l
    induction l with
    | nil => exact fun n hn => hn.resolve_left nofun
    | cons x l ih =>
      intro n hn
      rw [foldl_cons]
      apply ih
      rcases hn with hin | hn
      · rcases mem_cons.1 hin with rfl | hin
        · rw [if_pos hplayer]
          exact .inr (Nat.succ_ne_zero n)
        · exact .inl hin
      · split
        · exact .inr (Nat.succ_ne_zero n)
        · exact .inr hn
  rw [horder.emitted]
  exact hgrows order 0 (.inl (hall player hleads hne))

namespace TickPass

variable {pass pass' pass'' : TickPass} {entity vehicle : EntityId} {world : EntityWorld}
  {carried ridden : EntityId → Prop}

/-- The carried entities can be ticked, and they and the ridden ones keep their vehicles. -/
structure Steady (world : EntityWorld) (carried ridden : EntityId → Prop) (now : EntityWorld) :
    Prop where
  isPlayer : now.isPlayer = world.isPlayer
  vehicle : ∀ x, ridden x → now.vehicle x = world.vehicle x
  notRemoved : ∀ x, ridden x → now.isRemoved x = false
  notPending : ∀ x, carried x → now.isWorldChangePending x = false
  live : ∀ x, carried x → (now.live x).isSome
  listed : ∀ x, carried x → x ∈ now.tickList

def Upward (world : EntityWorld) (entities : EntityId → Prop) : Prop :=
  ∀ x v, entities x → world.vehicle x = some v → entities v

def InOrder (world : EntityWorld) (carried : EntityId → Prop) (log : List EntityId) : Prop :=
  ∀ x v, carried x → world.vehicle x = some v → x ∈ log → [v, x].Sublist log

def Closed (world : EntityWorld) (carried : EntityId → Prop) (before after : Finset EntityId) :
    Prop :=
  ∀ x v, carried x → world.vehicle x = some v → v ∉ before → v ∈ after → x ∈ after

theorem Closed.trans {first second third : Finset EntityId} (h : Closed world carried first second)
    (h' : Closed world carried second third) (hsub : second ⊆ third) :
    Closed world carried first third := by
  intro x v hx hv hout hin
  by_cases hsecond : v ∈ second
  · exact hsub (h x v hx hv hout hsecond)
  · exact h' x v hx hv hsecond hin

theorem InOrder.append {log : List EntityId} (h : InOrder world carried log)
    (hvehicle : ∀ v, carried entity → world.vehicle entity = some v → v ∈ log) :
    InOrder world carried (log ++ [entity]) := by
  intro x v hx hv hmem
  rcases mem_append.1 hmem with hold | hlast
  · exact (h x v hx hv hold).trans (sublist_append_left log [entity])
  · obtain rfl := mem_singleton.1 hlast
    exact (singleton_sublist.2 (hvehicle v hx hv)).append (List.Sublist.refl [x])

theorem Steady.quiet {now now' : EntityWorld} (h : Steady world carried ridden now)
    (hunchanged : Unchanged now now') (hplayers : now'.isPlayer = now.isPlayer)
    (hpending : ∀ x, carried x → now'.isWorldChangePending x = now.isWorldChangePending x) :
    Steady world carried ridden now' where
  isPlayer := hplayers.trans h.isPlayer
  vehicle x hx := hunchanged.vehicle ▸ h.vehicle x hx
  notRemoved x hx := hunchanged.isRemoved ▸ h.notRemoved x hx
  notPending x hx := (hpending x hx).trans (h.notPending x hx)
  live x hx := hunchanged.live ▸ h.live x hx
  listed x hx := hunchanged.tickList ▸ h.listed x hx

theorem Steady.stopRiding {now : EntityWorld} (h : Steady world carried ridden now)
    (hout : ¬ ridden entity) :
    Steady world carried ridden (now.stopRidingRelationship entity) := by
  have hsame : SameEntities now (now.stopRidingRelationship entity) :=
    sameEntities_stopRidingRelationship
  refine ⟨hsame.isPlayer.trans h.isPlayer, fun x hx => ?_, fun x hx => ?_, fun x hx => ?_,
    fun x hx => ?_, fun x hx => ?_⟩
  · have hne : x ≠ entity := fun heq => hout (heq ▸ hx)
    rw [vehicle_stopRidingRelationship, Function.update_of_ne hne]
    exact h.vehicle x hx
  · rw [EntityWorld.isRemoved, hsame.lifecycle]
    exact h.notRemoved x hx
  · rw [EntityWorld.isWorldChangePending, hsame.lifecycle]
    exact h.notPending x hx
  · rw [hsame.live]
    exact h.live x hx
  · rw [hsame.tickList]
    exact h.listed x hx

structure Ready (world : EntityWorld) (carried ridden : EntityId → Prop) (pass : TickPass) :
    Prop where
  sound : Sound pass
  steady : Steady world carried ridden pass.world
  inOrder : InOrder world carried pass.log

/-- What ticking some entities does to a pass. -/
structure Onward (world : EntityWorld) (carried ridden : EntityId → Prop)
    (pass pass' : TickPass) : Prop where
  ready : Ready world carried ridden pass'
  ticked : pass.tickedEntities ⊆ pass'.tickedEntities
  closed : Closed world carried pass.tickedEntities pass'.tickedEntities

theorem Onward.of_ticked_eq (h : Ready world carried ridden pass')
    (hticked : pass'.tickedEntities = pass.tickedEntities) :
    Onward world carried ridden pass pass' := by
  refine ⟨h, fun x hx => hticked ▸ hx, fun x v _ _ hout hin => ?_⟩
  exact absurd (hticked ▸ hin) hout

theorem Onward.trans (h : Onward world carried ridden pass pass')
    (h' : Onward world carried ridden pass' pass'') : Onward world carried ridden pass pass'' :=
  ⟨h'.ready, h.ticked.trans h'.ticked, h.closed.trans h'.closed h'.ticked⟩

theorem Ready.stopRiding (h : Ready world carried ridden pass) (hout : ¬ ridden entity) :
    Ready world carried ridden (pass.stopRiding entity) :=
  ⟨(h.sound.stopRiding entity).1, h.steady.stopRiding hout, h.inOrder⟩

section

variable {callback : EntityWorld → EntityId → List EntityAction}
  (h : Ready world carried ridden pass)
  (hown : ∀ world, Allows (ownRiding entity) world (callback world entity))
  (hquiet : QuietCallback carried callback)

include h hown hquiet

theorem Ready.call (hcall : pass.call callback entity = .ok pass') :
    Ready world carried ridden pass' ∧ pass'.tickedEntities = pass.tickedEntities := by
  obtain ⟨now, hnow, hconsistent, hplayers, -⟩ := h.sound.consistent.performOwn (hown pass.world)
  rw [TickPass.call, hnow] at hcall
  obtain rfl := Except.ok.inj hcall
  obtain ⟨hunchanged, hpending⟩ := hquiet _ _ _ hnow
  exact ⟨⟨⟨hconsistent, h.sound.nodup, h.sound.logged⟩,
    h.steady.quiet hunchanged hplayers hpending, h.inOrder⟩, rfl⟩

theorem Ready.runTick (hnew : entity ∉ pass.tickedEntities)
    (hvehicle : ∀ v, carried entity → world.vehicle entity = some v → v ∈ pass.tickedEntities)
    (hrun : (pass.insertTicked entity).runTick callback entity = .ok pass') :
    Ready world carried ridden pass' ∧
      pass'.tickedEntities = insert entity pass.tickedEntities := by
  obtain ⟨ticked, hticked, hsound, -, hinsert, hlog⟩ := runTick_ok h.sound hown hnew
  obtain rfl := Except.ok.inj (hticked.symm.trans hrun)
  obtain ⟨now, hnow, -, hplayers, -⟩ := h.sound.consistent.performOwn (hown pass.world)
  obtain ⟨hunchanged, hpending⟩ := hquiet _ _ _ hnow
  have hworld : ticked.world = now := by
    simp only [TickPass.runTick, TickPass.call, insertTicked, hnow] at hrun
    rw [← Except.ok.inj hrun]
  refine ⟨⟨hsound, ?_, ?_⟩, hinsert⟩
  · rw [hworld]
    exact h.steady.quiet hunchanged hplayers hpending
  · rw [hlog]
    exact h.inOrder.append fun v hx hv => (h.sound.logged v).2 (hvehicle v hx hv)

end

variable {callbacks : EntityCallbacks}

/-- What ticking a passenger does, and what it leaves ticked. -/
def PassengerTicks (world : EntityWorld) (carried ridden : EntityId → Prop)
    (callbacks : EntityCallbacks) (fuel : ℕ) : Prop :=
  ∀ pass pass' vehicle visited entity, Ready world carried ridden pass →
    vehicle ∈ pass.tickedEntities → (ridden entity → world.vehicle entity = some vehicle) →
    tickPassenger callbacks fuel vehicle visited pass entity = .ok pass' →
    Onward world carried ridden pass pass' ∧ (carried entity → entity ∈ pass'.tickedEntities)

theorem PassengerTicks.foldlM {fuel : ℕ} {visited entities : List EntityId}
    (hticks : PassengerTicks world carried ridden callbacks fuel)
    (h : Ready world carried ridden pass) (hvehicle : vehicle ∈ pass.tickedEntities)
    (hentities : ∀ x ∈ entities, ridden x → world.vehicle x = some vehicle)
    (hdone : entities.foldlM (tickPassenger callbacks fuel vehicle visited) pass = .ok pass') :
    Onward world carried ridden pass pass' ∧
      ∀ x ∈ entities, carried x → x ∈ pass'.tickedEntities := by
  induction entities generalizing pass with
  | nil =>
    obtain rfl := Except.ok.inj hdone
    exact ⟨.of_ticked_eq h rfl, nofun⟩
  | cons entity entities ih =>
    rw [foldlM_cons] at hdone
    cases hnext : tickPassenger callbacks fuel vehicle visited pass entity with
    | error panic => rw [hnext] at hdone; cases hdone
    | ok next =>
      rw [hnext] at hdone
      obtain ⟨honward, hentity⟩ := hticks _ _ _ _ _ h hvehicle
        (hentities entity mem_cons_self) hnext
      obtain ⟨hrest, hothers⟩ := ih honward.ready (honward.ticked hvehicle)
        (fun x hx => hentities x (mem_cons_of_mem _ hx)) hdone
      refine ⟨honward.trans hrest, fun x hx hcarried => ?_⟩
      rcases mem_cons.1 hx with rfl | hx
      · exact hrest.ticked (hentity hcarried)
      · exact hothers x hx hcarried

theorem PassengerTicks.passengers {fuel : ℕ} {visited : List EntityId}
    {ticked : TickPass} (hticks : PassengerTicks world carried ridden callbacks fuel)
    (hridden : ∀ x, carried x → ridden x) (h : Ready world carried ridden ticked)
    (hinsert : ticked.tickedEntities = insert entity pass.tickedEntities)
    (hdone : (ticked.world.passengers entity).foldlM
      (tickPassenger callbacks fuel entity visited) ticked = .ok pass') :
    Onward world carried ridden pass pass' ∧ entity ∈ pass'.tickedEntities := by
  have hmem : entity ∈ ticked.tickedEntities := by
    rw [hinsert]
    exact Finset.mem_insert_self _ _
  obtain ⟨honward, hpassengers⟩ := hticks.foldlM h hmem (fun x hx hin => by
      rw [← h.steady.vehicle x hin]
      exact (h.sound.consistent.riding.mem x entity).2 hx) hdone
  refine ⟨⟨honward.ready, ?_, ?_⟩, honward.ticked hmem⟩
  · exact (hinsert ▸ Finset.subset_insert _ _ : _ ⊆ ticked.tickedEntities).trans honward.ticked
  · intro x v hx hv hout hin
    by_cases hself : v = entity
    · subst hself
      apply hpassengers x _ hx
      rw [← h.sound.consistent.riding.mem, h.steady.vehicle x (hridden x hx)]
      exact hv
    · apply honward.closed x v hx hv _ hin
      rw [hinsert, Finset.mem_insert]
      exact fun hor => hor.elim hself hout

theorem Upward.leadsTo {now : EntityWorld} (hup : Upward world carried)
    (hridden : ∀ x, carried x → ridden x) (h : Steady world carried ridden now)
    (hentity : carried entity) {x : EntityId} (hleads : LeadsTo now.vehicle entity x) :
    carried x := by
  induction hleads with
  | refl => exact hentity
  | @tail a b _ hab ih => exact hup a b ih ((h.vehicle a (hridden a ih)).symm.trans hab)

theorem Ready.canTick (h : Ready world carried ridden pass) (hup : Upward world carried)
    (hridden : ∀ x, carried x → ridden x) (entity : EntityId) :
    ∃ answer, pass.world.canTickEntityNow entity = .ok answer ∧
      (carried entity → answer = true) := by
  obtain ⟨answer, hanswer, hmust⟩ := h.sound.consistent.riding.canTick entity
  refine ⟨answer, hanswer, fun hx => hmust (h.steady.live _ hx) (h.steady.listed _ hx) ?_⟩
  exact fun u hleads => h.steady.notPending u (hup.leadsTo hridden h.steady hx hleads)

section Down

variable (hown : callbacks.Own) (hquiet : callbacks.Quiet carried) (hup : Upward world carried)
  (hridden : ∀ x, carried x → ridden x)
include hown hquiet hup hridden

theorem passengerTicks (fuel : ℕ) : PassengerTicks world carried ridden callbacks fuel := by
  induction fuel with
  | zero => exact fun _ _ _ _ _ _ _ _ hdone => nomatch hdone
  | succ fuel ih =>
    intro pass pass' vehicle visited entity h hvehicle hplace hdone
    rw [tickPassenger] at hdone
    split at hdone
    · cases hdone
    split at hdone
    · rename_i hleaves
      have hout : ¬ ridden entity := by
        intro hin
        rw [h.steady.notRemoved entity hin, h.steady.vehicle entity hin, hplace hin] at hleaves
        simp at hleaves
      obtain rfl := Except.ok.inj hdone
      exact ⟨.of_ticked_eq (h.stopRiding hout) rfl, fun hx => absurd (hridden entity hx) hout⟩
    · obtain ⟨canTick, hcan, hmust⟩ := h.canTick hup hridden entity
      simp only [hcan, bind, Except.bind] at hdone
      split at hdone
      · rename_i hticks
        obtain ⟨-, hfresh⟩ := Bool.and_eq_true_iff.1 hticks
        cases hrun : (pass.insertTicked entity).runTick callbacks.rideTick entity with
        | error panic => rw [hrun] at hdone; cases hdone
        | ok ticked =>
          simp only [hrun] at hdone
          obtain ⟨hready, hinsert⟩ := h.runTick (fun world => hown.rideTick world entity)
            hquiet.rideTick (of_decide_eq_true hfresh) (fun v hx hv => by
              obtain rfl := Option.some.inj ((hplace (hridden entity hx)).symm.trans hv)
              exact hvehicle) hrun
          obtain ⟨honward, hmem⟩ := ih.passengers hridden hready hinsert hdone
          exact ⟨honward, fun _ => hmem⟩
      · rename_i hskipped
        obtain rfl := Except.ok.inj hdone
        refine ⟨.of_ticked_eq h rfl, fun hx => ?_⟩
        simpa [hmust hx] using hskipped

theorem tickNonPassenger_progress (h : Ready world carried ridden pass)
    (hnew : entity ∉ pass.tickedEntities) (hroot : ridden entity → world.vehicle entity = none)
    (hdone : (pass.insertTicked entity).tickNonPassenger callbacks entity = .ok pass') :
    Onward world carried ridden pass pass' ∧ entity ∈ pass'.tickedEntities := by
  rw [tickNonPassenger] at hdone
  cases hrun : (pass.insertTicked entity).runTick callbacks.tick entity with
  | error panic => rw [hrun] at hdone; cases hdone
  | ok ticked =>
    rw [hrun] at hdone
    obtain ⟨hready, hinsert⟩ := h.runTick (fun world => hown.tick world entity) hquiet.tick hnew
      (fun v hx hv => absurd (hv.symm.trans (hroot (hridden entity hx))) (some_ne_none v))
      hrun
    exact (passengerTicks hown hquiet hup hridden idFuel).passengers hridden hready hinsert hdone

end Down

/-- Ridden entities keep their vehicles when they are checked, and roots are no passengers. -/
theorem Ready.validPassenger (h : Ready world carried ridden pass) (hup : Upward world ridden)
    {result : EntityWorld × Bool}
    (hresult : pass.world.isValidPassengerOrStopRiding entity = .ok result) :
    Ready world carried ridden { pass with world := result.1 } ∧
      (result.2 = false → ridden entity → world.vehicle entity = none) ∧
      (ridden entity → world.vehicle entity = none → result.2 = false) := by
  unfold isValidPassengerOrStopRiding at hresult
  cases hvehicle : pass.world.vehicle entity with
  | none =>
    simp only [hvehicle] at hresult
    obtain rfl := Except.ok.inj hresult
    exact ⟨h, fun _ hin => (h.steady.vehicle entity hin).symm.trans hvehicle, fun _ _ => rfl⟩
  | some vehicle =>
    simp only [hvehicle] at hresult
    have hrides : ridden entity → world.vehicle entity = some vehicle := fun hin =>
      (h.steady.vehicle entity hin).symm.trans hvehicle
    have hroot : ridden entity → world.vehicle entity = none → False := fun hin hnone =>
      absurd (hnone.symm.trans (hrides hin)) nofun
    split at hresult
    · rw [h.sound.consistent.riding.assertAcyclic] at hresult
      obtain rfl := Except.ok.inj hresult
      exact ⟨h, nofun, fun hin hnone => (hroot hin hnone).elim⟩
    · rename_i hinvalid
      have hout : ¬ ridden entity := by
        intro hin
        have hkept := h.steady.notRemoved vehicle (hup entity vehicle hin (hrides hin))
        have hmem := (h.sound.consistent.riding.mem entity vehicle).1 hvehicle
        simp [hkept, hmem] at hinvalid
      obtain rfl := Except.ok.inj hresult
      exact ⟨h.stopRiding hout, fun _ hin => absurd hin hout, fun hin => absurd hin hout⟩

variable {runsNormally : Bool} {root : EntityId}

section Pass

variable (hown : callbacks.Own) (hquiet : callbacks.Quiet carried) (hup : Upward world carried)
  (hridden : ∀ x, carried x → ridden x) (hupward : Upward world ridden) (hcarried : carried root)
  (hroot : world.vehicle root = none)
  (hfrozen : ∀ now, Steady world carried ridden now → RidingForest now →
    now.isEntityFrozenByTickRate root runsNormally = .ok false)
include hown hquiet hup hridden hupward hcarried hroot hfrozen

theorem tickCandidate_progress (h : Ready world carried ridden pass)
    (hdone : tickCandidate runsNormally callbacks pass entity = .ok pass') :
    Onward world carried ridden pass pass' ∧ (entity = root → entity ∈ pass'.tickedEntities) := by
  obtain ⟨canTick, hcan, hmust⟩ := h.canTick hup hridden entity
  obtain ⟨frozen, hfreezes⟩ := pass.world.isEntityFrozenByTickRate_ok entity runsNormally
  have hskip : pass = pass' → (entity = root → False) →
      Onward world carried ridden pass pass' ∧ (entity = root → entity ∈ pass'.tickedEntities) := by
    rintro rfl hother
    exact ⟨.of_ticked_eq h rfl, fun heq => (hother heq).elim⟩
  simp only [tickCandidate, hcan, hfreezes, bind, Except.bind] at hdone
  split at hdone
  · rename_i hcannot
    apply hskip (Except.ok.inj hdone)
    rintro rfl
    simp [hmust hcarried] at hcannot
  split at hdone
  · rename_i hremoved
    apply hskip (Except.ok.inj hdone)
    rintro rfl
    rw [h.steady.notRemoved entity (hridden entity hcarried)] at hremoved
    cases hremoved
  split at hdone
  · rename_i hfrozenNow
    apply hskip (Except.ok.inj hdone)
    rintro rfl
    rw [hfrozen pass.world h.steady h.sound.consistent.riding] at hfreezes
    obtain rfl := Except.ok.inj hfreezes
    cases hfrozenNow
  cases hcall : pass.call callbacks.checkDespawn entity with
  | error panic => rw [hcall] at hdone; cases hdone
  | ok called =>
    simp only [hcall] at hdone
    obtain ⟨hcalled, hticked⟩ := h.call (fun world => hown.checkDespawn world entity)
      hquiet.checkDespawn hcall
    split at hdone
    · rename_i hremoved
      obtain rfl := Except.ok.inj hdone
      refine ⟨.of_ticked_eq hcalled hticked, ?_⟩
      rintro rfl
      rw [hcalled.steady.notRemoved entity (hridden entity hcarried)] at hremoved
      cases hremoved
    cases hvalid : called.world.isValidPassengerOrStopRiding entity with
    | error panic => rw [hvalid] at hdone; cases hdone
    | ok result =>
      simp only [hvalid] at hdone
      obtain ⟨hchecked, hnone, hpassenger⟩ := hcalled.validPassenger hupward hvalid
      have hstart : Onward world carried ridden pass { called with world := result.1 } :=
        .of_ticked_eq hchecked hticked
      split at hdone
      · rename_i hrides
        obtain rfl := Except.ok.inj hdone
        refine ⟨hstart, ?_⟩
        rintro rfl
        rw [hpassenger (hridden entity hcarried) hroot] at hrides
        cases hrides
      · rename_i hfree
        split at hdone
        · rename_i hold
          obtain rfl := Except.ok.inj hdone
          exact ⟨hstart, fun _ => hold⟩
        · rename_i hnew
          obtain ⟨honward, hmem⟩ := tickNonPassenger_progress hown hquiet hup hridden hchecked hnew
            (hnone (Bool.eq_false_iff.2 hfree)) hdone
          exact ⟨hstart.trans honward, fun _ => hmem⟩

theorem foldlM_tickCandidate {candidates : List EntityId} (h : Ready world carried ridden pass)
    (hdone : candidates.foldlM (tickCandidate runsNormally callbacks) pass = .ok pass') :
    Onward world carried ridden pass pass' ∧ (root ∈ candidates → root ∈ pass'.tickedEntities) := by
  induction candidates generalizing pass with
  | nil =>
    obtain rfl := Except.ok.inj hdone
    exact ⟨.of_ticked_eq h rfl, nofun⟩
  | cons entity candidates ih =>
    rw [foldlM_cons] at hdone
    cases hnext : tickCandidate runsNormally callbacks pass entity with
    | error panic => rw [hnext] at hdone; cases hdone
    | ok next =>
      rw [hnext] at hdone
      obtain ⟨honward, hentity⟩ := tickCandidate_progress hown hquiet hup hridden hupward hcarried
        hroot hfrozen h hnext
      obtain ⟨hrest, hothers⟩ := ih honward.ready hdone
      refine ⟨honward.trans hrest, fun hmem => ?_⟩
      rcases mem_cons.1 hmem with rfl | hmem
      · exact hrest.ticked (hentity rfl)
      · exact hothers hmem

end Pass

end TickPass

def EntityCallbacks.none : EntityCallbacks := ⟨fun _ _ => [], fun _ _ => [], fun _ _ => []⟩

theorem EntityCallbacks.own_none : EntityCallbacks.none.Own :=
  ⟨fun _ _ => rfl, fun _ _ => rfl, fun _ _ => rfl⟩

theorem EntityCallbacks.quiet_none (entities : EntityId → Prop) :
    EntityCallbacks.none.Quiet entities := by
  have hquiet : QuietCallback entities fun _ _ => [] := by
    intro world entity world' hworld
    obtain rfl := Option.some.inj hworld
    exact ⟨⟨rfl, rfl, rfl, rfl, rfl⟩, fun _ _ => rfl⟩
  exact ⟨hquiet, hquiet, hquiet⟩

/-- The entity and all that carries it are in the tick list, and none of them is removed or about to
change its world. -/
def EntityWorld.Tickable (world : EntityWorld) (entity : EntityId) : Prop :=
  ∀ x, LeadsTo world.vehicle entity x →
    x ∈ world.tickList ∧ world.isRemoved x = false ∧ world.isWorldChangePending x = false

/-- The tick rate does not freeze the root vehicle of the entity: it runs normally, or the root is a
player or carries one. No removed entity may be between the two, as the pass unseats its riders. -/
def EntityWorld.Spared (world : EntityWorld) (runsNormally : Bool) (entity : EntityId) : Prop :=
  runsNormally = true ∨
    ∃ player root, world.isPlayer player = true ∧ LeadsTo world.vehicle player root ∧
      LeadsTo world.vehicle entity root ∧ world.vehicle root = none ∧
      ∀ x, LeadsTo world.vehicle player x → world.isRemoved x = false

section Pass

variable {world : EntityWorld} {entity root : EntityId} {carried ridden : EntityId → Prop}
  {runsNormally : Bool} {callbacks : EntityCallbacks} {pass : TickPass}

theorem upward_leadsTo : TickPass.Upward world (LeadsTo world.vehicle entity) :=
  fun _ _ hx hv => hx.tail hv

theorem TickPass.Steady.leadsTo {now : EntityWorld}
    (h : TickPass.Steady world carried ridden now) (hupward : TickPass.Upward world ridden)
    (hentity : ridden entity) {x : EntityId} (hleads : LeadsTo world.vehicle entity x) :
    LeadsTo now.vehicle entity x ∧ ridden x := by
  induction hleads with
  | refl => exact ⟨.refl, hentity⟩
  | @tail a b _ hab ih =>
    exact ⟨ih.1.tail ((h.vehicle a ih.2).trans hab), hupward a b ih.2 hab⟩

theorem TickPass.Steady.notFrozen {now : EntityWorld} {player : EntityId}
    (h : TickPass.Steady world carried ridden now) (hforest : RidingForest now)
    (hupward : TickPass.Upward world ridden) (hplayer : world.isPlayer player = true)
    (hridden : ridden player) (hleads : LeadsTo world.vehicle player root) :
    now.isEntityFrozenByTickRate root runsNormally = .ok false := by
  unfold isEntityFrozenByTickRate
  split
  · rfl
  · rename_i hmay
    rw [Bool.or_eq_true, not_or] at hmay
    obtain ⟨count, hcount⟩ := now.countPlayerPassengers_isSome root
    have hne : player ≠ root := by
      rintro rfl
      rw [h.isPlayer] at hmay
      exact hmay.2 hplayer
    have hpositive := hforest.countPlayerPassengers_ne_zero (h.isPlayer ▸ hplayer) hne
      (h.leadsTo hupward hridden hleads).1 hcount
    rw [hcount]
    exact congrArg Except.ok (decide_eq_false hpositive)

section

variable (hown : callbacks.Own) (hquiet : callbacks.Quiet (LeadsTo world.vehicle entity))
  (h : Consistent world) (htickable : world.Tickable entity)

include hown hquiet h htickable

theorem ticked_of_root (hridden : ∀ x, LeadsTo world.vehicle entity x → ridden x)
    (hupward : TickPass.Upward world ridden) (hkept : ∀ x, ridden x → world.isRemoved x = false)
    (hleads : LeadsTo world.vehicle entity root) (hroot : world.vehicle root = none) (hfrozen : ∀
      now, TickPass.Steady world (LeadsTo world.vehicle entity) ridden now → RidingForest now →
      now.isEntityFrozenByTickRate root runsNormally = .ok false)
    (hpass : world.tickEntities runsNormally callbacks = .ok pass) :
    entity ∈ pass.log ∧ ∀ v, world.vehicle entity = some v → [v, entity].Sublist pass.log := by
  have hready : TickPass.Ready world (LeadsTo world.vehicle entity) ridden (.start world) := by
    refine ⟨TickPass.sound_start h, ⟨rfl, fun _ _ => rfl, hkept, fun x hx => ?_, fun x hx => ?_,
      fun x hx => ?_⟩, fun _ _ _ _ => nofun⟩
    · exact (htickable x hx).2.2
    · exact h.listed.live x (htickable x hx).1
    · exact (htickable x hx).1
  obtain ⟨honward, hticked⟩ := TickPass.foldlM_tickCandidate hown hquiet upward_leadsTo hridden
    hupward hleads hroot hfrozen hready hpass
  have hdown : ∀ x, LeadsTo world.vehicle entity x → x ∈ pass.tickedEntities →
      entity ∈ pass.tickedEntities := by
    intro x hx
    induction hx with
    | refl => exact id
    | @tail a b ha hab ih =>
      exact fun hb => ih (honward.closed a b ha hab (Finset.notMem_empty b) hb)
  have hmem : entity ∈ pass.log := (honward.ready.sound.logged entity).2
    (hdown root hleads (hticked (htickable root hleads).1))
  exact ⟨hmem, fun v hv => honward.ready.inOrder entity v .refl hv hmem⟩

theorem tickEntities_ticks (hspared : world.Spared runsNormally entity)
    (hpass : world.tickEntities runsNormally callbacks = .ok pass) :
    entity ∈ pass.log ∧ ∀ v, world.vehicle entity = some v → [v, entity].Sublist pass.log := by
  rcases hspared with hnormal | ⟨player, root, hplayer, hrides, hleads, hroot, hkept⟩
  · obtain ⟨root, hleads, hroot⟩ := h.riding.acyclic.exists_root entity
    apply ticked_of_root hown hquiet h htickable (fun x hx => hx) upward_leadsTo
      (fun x hx => (htickable x hx).2.1) hleads hroot _ hpass
    intro now _ _
    rw [isEntityFrozenByTickRate, hnormal]
    rfl
  · have hupward : TickPass.Upward world
        fun x => LeadsTo world.vehicle entity x ∨ LeadsTo world.vehicle player x :=
      fun _ _ hx hv => hx.imp (fun hx => hx.tail hv) fun hx => hx.tail hv
    apply ticked_of_root hown hquiet h htickable (fun x => .inl) hupward _ hleads hroot _ hpass
    · rintro x (hx | hx)
      · exact (htickable x hx).2.1
      · exact hkept x hx
    · intro now hsteady hforest
      exact hsteady.notFrozen hforest hupward hplayer (.inr .refl) hrides

end

end Pass

/-- After every run of riding and removal, vehicles and passengers say the same, without a cycle. A
pass in which entities change their own riding state and remove any entities ends without a panic
and ticks no entity twice. If its callbacks leave things alone, it ticks every entity that the tick
rate spares after its vehicle. -/
theorem performAll_ticks (isPlayer : EntityId → Bool) (actions : List EntityAction)
    (hallowed : Allows restores (new isPlayer) actions) :
    ∃ world, (new isPlayer).performAll actions = some world ∧ (∀ passenger vehicle,
        world.vehicle passenger = some vehicle ↔ passenger ∈ world.passengers vehicle) ∧
      (∀ vehicle, (world.passengers vehicle).Nodup) ∧
      (∀ entity, ¬ Relation.TransGen (fun a b => world.vehicle a = some b) entity entity) ∧
      ∀ (runsNormally : Bool) (callbacks : EntityCallbacks), callbacks.Own →
        ∃ pass, world.tickEntities runsNormally callbacks = .ok pass ∧ pass.log.Nodup ∧
          ∀ entity, callbacks.Quiet (LeadsTo world.vehicle entity) → world.Tickable entity →
            world.Spared runsNormally entity →
            entity ∈ pass.log ∧ ∀ vehicle, world.vehicle entity = some vehicle →
              [vehicle, entity].Sublist pass.log := by
  obtain ⟨world, hworld, hconsistent⟩ := (consistent_new isPlayer).performAll hallowed
  refine ⟨world, hworld, hconsistent.riding.mem, hconsistent.riding.nodup,
    hconsistent.riding.acyclic, fun runsNormally callbacks hown => ?_⟩
  obtain ⟨pass, hpass, hsound⟩ := TickPass.tickEntities_ok hown runsNormally hconsistent
  exact ⟨pass, hpass, hsound.nodup, fun entity hquiet htickable hspared =>
    tickEntities_ticks hown hquiet hconsistent htickable hspared hpass⟩

/-- A rider that boards a vehicle is ticked after it. -/
theorem performAll_ticks_rider : ∃ world pass, (new fun _ => false).performAll
        [.addLiveEntity 2 .managerOwned, .addLiveEntity 1 .managerOwned, .startTicking 2,
          .startTicking 1, .startRiding 2 1 ⟨true, true, true, true⟩] = some world ∧
      world.tickEntities true EntityCallbacks.none = .ok pass ∧ [1, 2].Sublist pass.log := by
  obtain ⟨world, hworld, -, -, -, hpasses⟩ := performAll_ticks (fun _ => false)
    [.addLiveEntity 2 .managerOwned, .addLiveEntity 1 .managerOwned, .startTicking 2,
      .startTicking 1, .startRiding 2 1 ⟨true, true, true, true⟩] (by decide +kernel)
  obtain ⟨pass, hpass, -, hticks⟩ := hpasses true EntityCallbacks.none EntityCallbacks.own_none
  obtain rfl := Option.some.inj hworld
  refine ⟨_, pass, rfl, hpass, ?_⟩
  refine (hticks 2 (EntityCallbacks.quiet_none _) (fun x hx => ?_) (.inl rfl)).2 1 (by decide)
  rcases hx.cases_parent with rfl | ⟨v, hv, hrest⟩
  · exact ⟨by decide, by decide, by decide⟩
  · obtain rfl : 1 = v := Option.some.inj hv
    rcases hrest.cases_parent with rfl | ⟨w, hw, -⟩
    · exact ⟨by decide, by decide, by decide⟩
    · cases hw

/-- A pass of a frozen world leaves an entity out that is in the tick list and rides nothing. -/
theorem tickEntities_leavesFrozen :
    ∃ actions world pass, Allows restores (new fun _ => false) actions ∧
      (new fun _ => false).performAll actions = some world ∧
      (1 : EntityId) ∈ world.tickList ∧
      (∀ x, LeadsTo world.vehicle 1 x → x ∈ world.tickList ∧ world.isWorldChangePending x = false) ∧
      EntityCallbacks.none.Own ∧ EntityCallbacks.none.Quiet (fun _ => True) ∧
      world.tickEntities false EntityCallbacks.none = .ok pass ∧ 1 ∉ pass.log := by
  obtain ⟨world, hworld, hconsistent⟩ := (consistent_new fun _ => false).performAll
    (show Allows restores _ [.addLiveEntity 1 .managerOwned, .startTicking 1] from rfl)
  obtain ⟨pass, hpass, -⟩ :=
    TickPass.tickEntities_ok EntityCallbacks.own_none false hconsistent
  have hlog : pass.log = [] := by
    have hrun : (((new fun _ => false).performAll
        [.addLiveEntity 1 .managerOwned, .startTicking 1]).bind fun world =>
        (world.tickEntities false EntityCallbacks.none).toOption.map TickPass.log) = some [] := by
      decide +kernel
    rw [hworld, bind_some, hpass] at hrun
    exact Option.some.inj hrun
  obtain rfl := Option.some.inj hworld
  refine ⟨[.addLiveEntity 1 .managerOwned, .startTicking 1], _, pass, rfl, rfl, by decide,
    fun x hx => ?_, EntityCallbacks.own_none, EntityCallbacks.quiet_none _, hpass,
    by rw [hlog]; exact not_mem_nil⟩
  rcases hx.cases_parent with rfl | ⟨v, hv, -⟩
  · exact ⟨by decide, by decide⟩
  · cases hv

end Steel
