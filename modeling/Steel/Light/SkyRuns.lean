import Steel.Light.SkyChanges

/-! # Sky light is what it should be

After the columns have been walked and the changed blocks have been checked, the queues restore the
light that the blocks should have.
-/

namespace Steel.SkyLightEngine

open Flood (topSource setLevel)

open List LightEngine LightCacheLayout Nat

variable {S : Type*} {sky : SkyLightEngine S} {before : LightSectionReadCache S}
  {positions : List BlockCoords} {context : SkyLightContext}
  {state : FloodState BlockCoords LightAxisDirection}

theorem skyLit_iff {level : BlockCoords → ℕ} : sky.SkyLit level ↔
    sky.engine.Balanced (topSource maxLightLevel sky.innerSources) level := by
  constructor
  · intro h
    refine ⟨h.level_le, h.outside, fun pos hinner => ?_⟩
    have hlt := h.gathered_lt pos
    have hinner' : sky.layout.innerBlock pos = true := hinner
    cases hsource : sky.isSource pos with
    | true =>
      rw [topSource, innerSources, hinner', hsource, h.source pos hinner hsource]
      exact (max_eq_left hlt.le).symm
    | false =>
      rw [topSource, innerSources, hinner', hsource, h.gathered pos hinner hsource]
      exact (zero_max _).symm
  · intro h
    refine ⟨h.level_le, h.outside, fun pos hinner hsource => ?_, fun pos hinner hsource => ?_⟩
    · have hinside := h.inside pos hinner
      rw [topSource, innerSources, hinner, hsource] at hinside
      exact le_antisymm (h.level_le pos) (hinside ▸ le_max_left _ _)
    · have hinside := h.inside pos hinner
      rw [topSource, innerSources, hinner, hsource] at hinside
      exact hinside.trans (zero_max _)

theorem innerSource_topSource :
    sky.engine.innerSource (topSource maxLightLevel sky.innerSources) =
      topSource maxLightLevel sky.innerSources := by
  funext pos
  have hlayout : sky.engine.layout = sky.layout := rfl
  rw [innerSource, topSource, innerSources, hlayout]
  cases sky.layout.innerBlock pos with
  | true => rfl
  | false => rfl

variable {entries : List PackedLightQueueEntry} {blocks : List BlockCoords}

theorem Sees.processDelayed {level : PackedLightQueueEntry → ℕ} {v : ℕ} (hv : v ≤ maxLightLevel)
    (hblocks : entries.map (fun entry => sky.layout.decodeBlockPos entry.blockPos) = blocks)
    (hlevel : ∀ entry ∈ entries, level entry = v)
    (hinner : ∀ pos ∈ blocks, sky.layout.innerBlock pos = true)
    (h : sky.engine.Sees sky.layout.innerBlock context.toLightContext state) :
    sky.engine.Sees sky.layout.innerBlock (sky.processDelayed level entries context).toLightContext
      { state with level := fun pos => if pos ∈ blocks then v else state.level pos } := by
  unfold SkyLightEngine.processDelayed
  induction entries generalizing blocks context state with
  | nil =>
    subst hblocks
    simpa using h
  | cons entry entries ih =>
    subst hblocks
    have hpos := hinner _ mem_cons_self
    obtain ⟨block, hblock⟩ := exists_cachedBlock_of_innerBlock hpos
    have hle : level entry ≤ maxLightLevel := by
      rw [hlevel entry mem_cons_self]
      exact hv
    have hset : sky.engine.Sees sky.layout.innerBlock (SkyLightContext.toLightContext { context with
          toLightContext := context.toLightContext.setLevel block (level entry) })
        (setLevel (sky.layout.decodeBlockPos entry.blockPos) (level entry) state) :=
      h.setLevel hblock hpos hle
    have hrest := ih rfl (fun e he => hlevel e (mem_cons_of_mem _ he))
      (fun pos hmem => hinner pos (mem_cons_of_mem _ hmem)) hset
    have hlevels : (fun pos => if pos ∈ sky.layout.decodeBlockPos entry.blockPos ::
          entries.map (fun entry => sky.layout.decodeBlockPos entry.blockPos) then v
          else state.level pos) =
        fun pos =>
          if pos ∈ entries.map (fun entry => sky.layout.decodeBlockPos entry.blockPos) then v
          else (setLevel (sky.layout.decodeBlockPos entry.blockPos) (level entry)
            state).level pos := by
      funext pos
      rw [hlevel entry mem_cons_self]
      by_cases hp : pos = sky.layout.decodeBlockPos entry.blockPos
      · subst hp
        simp [setLevel]
      · simp [setLevel, hp]
    have hcached : sky.layout.cachedBlockFromPacked entry.blockPos = some block := hblock
    rw [foldl_cons, map_cons, hlevels]
    simp only [hcached]
    exact hrest

theorem decode_of_read {f : BlockCoords → FloodEntry BlockCoords LightAxisDirection}
    (hread : entries.map sky.engine.readEntry = blocks.map f) (hpos : ∀ pos, (f pos).pos = pos)
    (hlevel : ∀ pos, (f pos).level = maxLightLevel) :
    entries.map (fun entry => sky.layout.decodeBlockPos entry.blockPos) = blocks ∧
      ∀ entry ∈ entries, entry.level = maxLightLevel := by
  constructor
  · have hmap := congrArg (List.map FloodEntry.pos) hread
    rw [map_map, map_map] at hmap
    refine Eq.trans hmap ?_
    rw [show FloodEntry.pos ∘ f = id from funext hpos, map_id]
  · intro entry hentry
    have hmem : sky.engine.readEntry entry ∈ blocks.map f := hread ▸ mem_map_of_mem hentry
    obtain ⟨pos, _, heq⟩ := mem_map.1 hmem
    exact (congrArg FloodEntry.level heq).symm.trans (hlevel pos)

section Runs

variable {light : LightLayerEdit} (hchanges : sky.Changes before positions)
  (hlevel : (sky.withSections before).SkyLit (light.levelAt sky.layout))
  (hready : light.Ready sky.layout)

include hchanges hlevel hready

variable {result : SkyLightContext × DelayedEntries} {opened closed : List BlockCoords}

theorem Walked.foldl {indexes done : List ℕ} (hindexes : ∀ index ∈ indexes, index < 16 * 16)
    (h : Walked sky before positions light done result opened closed) :
    ∃ opened' closed', Walked sky before positions light (indexes.reverse ++ done)
      (indexes.foldl (sky.propagateColumn positions) result) opened' closed' := by
  induction indexes generalizing done result opened closed with
  | nil => exact ⟨opened, closed, h⟩
  | cons index indexes ih =>
    obtain ⟨opened₁, closed₁, h₁⟩ := h.propagateColumn hchanges hlevel hready
      (hindexes index mem_cons_self)
    have hrest := ih (fun i hi => hindexes i (mem_cons_of_mem _ hi)) h₁
    simpa only [reverse_cons, append_assoc, cons_append, nil_append,
      foldl_cons] using hrest

theorem propagateColumns_walked (hcontext : context.toLightContext = .new light) :
    ∃ opened closed, Walked sky before positions light (List.range (16 * 16)).reverse
      (sky.propagateColumns positions context) opened closed := by
  have hstart : Walked sky before positions light [] (context, ⟨[], []⟩) [] [] := by
    constructor
    · rintro _ ⟨⟩
    · rintro _ _ ⟨⟩
    · rintro _ ⟨⟩
    · rintro _ _ ⟨⟩
    · exact congrArg LightContext.light hcontext
    · rw [show (context, (⟨[], []⟩ : DelayedEntries)).1.toLightContext = .new light from hcontext]
      exact sees_new hready.present hlevel.level_le
    · rfl
    · rfl
  have hindexes : ∀ index ∈ List.range (16 * 16), index < 16 * 16 :=
    fun index hindex => mem_range.1 hindex
  have hwalked := hstart.foldl hchanges hlevel hready hindexes
  rwa [append_nil] at hwalked

omit hready in
/-- The levels after the walk: sources have full light, and what is none any more has none. -/
theorem Walked.moved
    (h : Walked sky before positions light (List.range (16 * 16)).reverse result opened closed) :
    (sky.engine.flood sky.layout.innerBlock).Moved maxLightLevel (light.levelAt sky.layout)
      (sky.withSections before).innerSources sky.innerSources .positiveY []
      ⟨fun pos => if pos ∈ closed then 0 else
        if pos ∈ opened then maxLightLevel else light.levelAt sky.layout pos,
        opened.map sky.openedEntry, closed.map closedEntry, []⟩ := by
  have hindex : ∀ pos, columnIndex pos ∈ (List.range (16 * 16)).reverse := by
    intro pos
    rw [mem_reverse, mem_range, columnIndex_eq]
    omega
  have hopened : ∀ pos, (sky.withSections before).innerSources pos = false →
      sky.innerSources pos = true → pos ∈ opened := fun pos hb ha =>
    h.opened_all pos (hchanges.center_of_ne (by rw [hb, ha]; exact Bool.false_ne_true)) (hindex pos)
      hb ha
  have hclosed : ∀ pos, (sky.withSections before).innerSources pos = true →
      sky.innerSources pos = false → pos ∈ closed := fun pos hb ha =>
    h.closed_all pos (hchanges.center_of_ne (by rw [hb, ha]; exact Bool.noConfusion)) (hindex pos)
      hb ha
  have hdirections : ∀ d : LightAxisDirection, d ≠ .positiveY →
      d ∈ LightDirectionSet.directions (.allExcept .positiveY) := by
    decide
  constructor
  · intro pos
    simp only [not_mem_nil, or_false]
    cases ha : sky.innerSources pos with
    | true =>
      rw [if_neg fun hmem => Bool.noConfusion (ha.symm.trans (h.closed_source pos hmem).2.2),
        if_pos rfl]
      cases hb : (sky.withSections before).innerSources pos with
      | true =>
        rw [(hlevel.eq_max_iff pos).2 hb, ite_self]
      | false => rw [if_pos (hopened pos hb ha)]
    | false =>
      rw [if_neg Bool.false_ne_true]
      cases hb : (sky.withSections before).innerSources pos with
      | true => rw [if_pos (hclosed pos hb ha), if_pos rfl]
      | false =>
        rw [if_neg fun hmem => Bool.noConfusion (hb.symm.trans (h.closed_source pos hmem).2.1),
          if_neg fun hmem => Bool.noConfusion (ha.symm.trans (h.opened_source pos hmem).2),
          if_neg Bool.false_ne_true]
  · simp only [mem_map]
    rintro _ ⟨pos, hpos, rfl⟩
    refine ⟨(h.opened_source pos hpos).2, rfl, ?_, rfl⟩
    cases hshape : (sky.engine.flood sky.layout.innerBlock).shaped pos with
    | true => exact .inl hshape
    | false => exact .inr hshape
  · intro pos ha hb
    exact ⟨_, mem_map_of_mem (hopened pos hb ha), rfl, hdirections⟩
  · rintro _ ⟨⟩
  · simp only [mem_map]
    rintro _ ⟨pos, hpos, rfl⟩
    obtain ⟨_, hb, ha⟩ := h.closed_source pos hpos
    exact ⟨le_refl _, fun htrue => Bool.noConfusion (ha.symm.trans htrue), fun _ => .inl hb⟩
  · intro pos hb ha
    exact ⟨_, mem_map_of_mem (hclosed pos hb ha), rfl, rfl, rfl, hdirections⟩
  · rintro _ ⟨⟩
  · rfl

end Runs

variable {pos : BlockCoords}

theorem Sees.checkBlock (hpos : sky.layout.innerBlock pos = true)
    (h : sky.engine.Sees sky.layout.innerBlock context.toLightContext state) :
    sky.engine.Sees sky.layout.innerBlock (sky.checkBlock pos context).toLightContext
      ((sky.engine.flood sky.layout.innerBlock).checkTop maxLightLevel pos state) := by
  obtain ⟨block, hblock⟩ := exists_cachedBlock_of_innerBlock hpos
  have hlevel : state.level pos = context.light.get block := by
    rw [← h.2]
    exact LightLayerEdit.levelAt_eq hblock
  have hle : context.light.get block ≤ maxLightLevel := by
    have hle : context.light.levelAt sky.layout pos ≤ maxLightLevel := h.1.level_le pos
    rwa [LightLayerEdit.levelAt_eq hblock] at hle
  have hflags : LightQueueFlags.empty ||| LightQueueFlags.hasSidedTransparentBlocks =
      PackedLightQueueEntry.packFlags true false false := rfl
  have hall : LightDirectionSet.all < 64 := by decide
  unfold SkyLightEngine.checkBlock Flood.checkTop Flood.oldEntry Flood.topEntry
  rw [hblock, hlevel, hflags]
  by_cases hlit : context.light.get block = maxLightLevel
  · simp only [hlit, if_true]
    have hincrease := h.enqueueIncrease hpos (le_refl _) hall true false false
    have hdecrease := hincrease.enqueueDecrease hpos (le_refl _) hall false
    exact hdecrease
  · simp only [hlit, if_false]
    have hset := h.setLevel hblock hpos (zero_le _)
    have hdecrease := hset.enqueueDecrease hpos hle hall false
    rw [LightDirectionSet.directions_all] at hdecrease
    exact hdecrease

theorem Sees.foldl_checkBlock {changes : List BlockCoords}
    (hchanges : ∀ pos ∈ changes, sky.layout.innerBlock pos = true)
    (h : sky.engine.Sees sky.layout.innerBlock context.toLightContext state) :
    sky.engine.Sees sky.layout.innerBlock
      (changes.foldl (fun context pos => sky.checkBlock pos context) context).toLightContext
      (changes.foldl (fun s pos =>
        (sky.engine.flood sky.layout.innerBlock).checkTop maxLightLevel pos s) state) := by
  induction changes generalizing context state with
  | nil => exact h
  | cons pos changes ih =>
    exact ih (fun pos' hpos' => hchanges pos' (mem_cons_of_mem _ hpos'))
      (Sees.checkBlock (hchanges pos mem_cons_self) h)

theorem innerSources_up (h : sky.innerSources pos = true)
    (hinner : sky.layout.innerBlock (pos.relative .positiveY) = true) :
    sky.innerSources (pos.relative .positiveY) = true := by
  simp only [BlockCoords.relative, LightAxisDirection.offset, add_zero] at hinner ⊢
  rw [innerSources, Bool.and_eq_true] at h ⊢
  exact ⟨hinner, isSource_of_le h.2 (by omega)⟩

/-- Below a source, a block that was one, and that has not changed, is one if the face between is
open. -/
theorem Changes.innerSources_down (hchanges : sky.Changes before positions)
    (h : sky.innerSources pos = true)
    (hinner : sky.layout.innerBlock (pos.relative .negativeY) = true)
    (hface : sky.blocks.occludes (sky.engine.blockState pos)
      (sky.engine.blockState (pos.relative .negativeY)) .down = false)
    (hnot : pos.relative .negativeY ∉ positions)
    (hbefore : (sky.withSections before).innerSources (pos.relative .negativeY) = true) :
    sky.innerSources (pos.relative .negativeY) = true := by
  have hsame := hchanges.same _ hnot hinner
  obtain ⟨x, y, z⟩ := pos
  simp only [BlockCoords.relative, LightAxisDirection.offset, add_zero]
    at hinner hface hsame hbefore ⊢
  rw [innerSources, Bool.and_eq_true, isSource_iff] at h hbefore ⊢
  simp only at h hbefore ⊢
  refine ⟨hinner, fun w hw htop => ?_⟩
  by_cases hwy : w = y + -1
  · have hold := hbefore.2 w hw htop
    subst hwy
    unfold edgeOpen at hold ⊢
    rw [opensDown_iff] at hold ⊢
    refine ⟨?_, ?_⟩
    · rw [← hsame]
      exact hold.1
    · simp only [show y + -1 + 1 = y by omega]
      exact hface
  · exact h.2 w (by omega) htop

section Changes

variable {light : LightLayerEdit} {level : BlockCoords → ℕ}
  (hchanges : sky.Changes before positions) (hlevel : (sky.withSections before).SkyLit level)

include hchanges hlevel

theorem Changes.kept : (sky.engine.flood sky.layout.innerBlock).KeptBelow maxLightLevel level
    (sky.withSections before).innerSources sky.innerSources .positiveY positions := by
  have hsame : ∀ pos ∉ positions, sky.layout.innerBlock pos = true →
      ((sky.withSections before).engine.withSections sky.sections).blockState pos =
        (sky.withSections before).engine.blockState pos :=
    fun pos hpos hinner => (hchanges.same pos hpos hinner).symm
  have hback : (sky.withSections before).engine.withSections sky.sections = sky.engine := rfl
  obtain ⟨hclosed, hgrounded⟩ := (balanced_iff hlevel.level_le).1 (skyLit_iff.1 hlevel)
  constructor
  · intro pos hpos hb
    have hgiven := grounded_withSections hsame hgrounded hpos
    rcases hgiven with hle | hlink
    · left
      have hzero : (sky.withSections before).engine.innerSource
          (topSource maxLightLevel (sky.withSections before).innerSources) pos = 0 := by
        rw [innerSource, topSource, hb]
        exact ite_self 0
      exact le_zero.1 (hzero ▸ hle)
    · exact .inr hlink
  · intro pos hpos d hnot hopens
    have hlink := @LightEngine.link_le_withSections S (sky.withSections before).engine _ _
      sky.sections pos d positions hsame hclosed hpos hnot
    exact hlink hopens
  · exact fun pos hb => (hlevel.eq_max_iff pos).2 hb
  · intro pos hb hopens
    simp only [flood, Bool.and_eq_true] at hopens
    exact innerSources_up hb hopens.1.2
  · intro pos ha hopens
    simp only [flood, Bool.and_eq_true] at hopens
    exact innerSources_up ha hopens.1.2
  · intro pos ha hopens hnot hb
    simp only [flood, Bool.and_eq_true, Bool.not_eq_true'] at hopens
    exact hchanges.innerSources_down ha hopens.1.2 hopens.2 hnot hb

theorem exists_start (hlight : light.levelAt sky.layout = level)
    (hpresent : ∀ pos, light.presentAt sky.layout pos = sky.layout.innerBlock pos)
    (hcontext : context.toLightContext = .new light) :
    ∃ s, sky.engine.Sees sky.layout.innerBlock
        (sky.startBlockChanges positions context).toLightContext s ∧
      (sky.engine.flood sky.layout.innerBlock).Moved maxLightLevel level
        (sky.withSections before).innerSources sky.innerSources .positiveY positions.reverse s ∧
      ∀ e ∈ s.increases, sky.layout.centerBlock e.pos = true := by
  subst hlight
  have hready := LightLayerEdit.ready_rewrite hpresent
  have hlevels := @LightLayerEdit.rewrite_levelAt sky.layout light
  rw [← hlevels] at hlevel ⊢
  let context₀ : SkyLightContext := { context with
    light := context.light.rewriteMissingSectionsForSkylight
    missingSectionChecked := fun _ => false }
  have hcontext₀ : context₀.toLightContext = .new light.rewriteMissingSectionsForSkylight := by
    simp only [context₀, hcontext, LightContext.new]
  have hinitialized : sky.initializeChangedSections positions context₀ = context₀ := by
    refine initializeChangedSections_of_ready ?_ positions
    rw [show context₀.light = light.rewriteMissingSectionsForSkylight from
      congrArg LightContext.light hcontext₀]
    exact hready
  obtain ⟨opened, closed, h⟩ := propagateColumns_walked hchanges hlevel hready hcontext₀
  obtain ⟨hopened, hfull⟩ := decode_of_read h.increases (fun _ => rfl) fun _ => rfl
  obtain ⟨hclosed, _⟩ := decode_of_read h.decreases (fun _ => rfl) fun _ => rfl
  have hincreased := Sees.processDelayed (le_refl _) hopened hfull
    (fun pos hpos => (Bool.and_eq_true_iff.1 (h.opened_source pos hpos).2).1) h.sees
  have hdecreased := Sees.processDelayed (zero_le _) hclosed (fun _ _ => rfl)
    (fun pos hpos => (Bool.and_eq_true_iff.1 (h.closed_source pos hpos).2.1).1) hincreased
  have hchecked := Sees.foldl_checkBlock (fun pos hpos => (hchanges.center pos hpos).2) hdecreased
  have hmoved := (h.moved hchanges hlevel).foldl_checkTop hlevel.level_le
    (fun pos hb hmax => Bool.noConfusion (hb.symm.trans ((hlevel.eq_max_iff pos).1 hmax)))
    (by decide) fun pos hpos =>
      room_of_center (hchanges.center pos hpos).2 (hchanges.center pos hpos).1
  rw [append_nil] at hmoved
  refine ⟨_, ?_, hmoved, fun e he => ?_⟩
  · have hstart : sky.startBlockChanges positions context =
        positions.foldl (fun context pos => sky.checkBlock pos context)
          (sky.processDelayedDecreases (sky.propagateColumns positions context₀).2.decreases
            (sky.processDelayedIncreases (sky.propagateColumns positions context₀).2.increases
              (sky.propagateColumns positions context₀).1)) := by
      unfold startBlockChanges
      simp only
      rw [show sky.initializeChangedSections positions _ = context₀ from hinitialized]
    rw [hstart]
    exact hchecked
  · rcases Flood.foldl_checkTop_increases he with he | he
    · obtain ⟨pos, hpos, rfl⟩ := mem_map.1 he
      exact (h.opened_source pos hpos).1
    · exact (hchanges.center _ he).1

theorem Changes.horizon : (sky.engine.flood sky.layout.innerBlock).Horizon maxLightLevel level
    sky.layout.centerGap := by
  have hnot : ∀ pos, sky.layout.centerBlock pos = false → pos ∉ positions :=
    fun pos hpos hmem => Bool.noConfusion (hpos.symm.trans (hchanges.center pos hmem).1)
  have hkept := hchanges.kept hlevel
  refine LightEngine.horizon hlevel.level_le ?_ ?_
  · exact fun pos d hopens hpos hnext => hkept.link_le pos (hnot _ hpos) d (hnot _ hnext) hopens
  · intro pos _
    simp only [LightEngine.flood]
    split_ifs
    · exact zero_le _
    · exact zero_le _

/-- The queues that a change starts end with the light that the blocks should have. -/
theorem Changes.skyLit (hlight : light.levelAt sky.layout = level)
    (hpresent : ∀ pos, light.presentAt sky.layout pos = sky.layout.innerBlock pos)
    (hcontext : context.toLightContext = .new light) {fuel : ℕ} {final : LightContext}
    (hfinal : sky.propagateBlockChanges fuel positions context = some final) :
    sky.SkyLit (final.light.levelAt sky.layout) := by
  obtain ⟨s, hsees, hmoved, hcenter⟩ := exists_start hchanges hlevel hlight hpresent hcontext
  obtain ⟨middle, hreach, hend, hreach', hend'⟩ :=
    reaches_performLightDecrease hfinal
  have hz := hchanges.horizon hlevel
  have hemission : ∀ pos, (sky.engine.flood sky.layout.innerBlock).emission pos = 0 :=
    fun _ => ite_self 0
  have hsource : ∀ pos, topSource maxLightLevel sky.innerSources pos =
        (sky.engine.flood sky.layout.innerBlock).emission pos ∨
      topSource maxLightLevel sky.innerSources pos = maxLightLevel := by
    intro pos
    rw [hemission, topSource]
    split_ifs
    · exact .inr rfl
    · exact .inl rfl
  have hle : ∀ pos, topSource maxLightLevel sky.innerSources pos ≤ maxLightLevel := by
    intro pos
    rcases hsource pos with hzero | htop
    · exact (hzero.trans (hemission pos)).le.trans (zero_le _)
    · exact htop.le
  have hlowering := hmoved.lowering (hchanges.reverse.kept hlevel) hlevel.level_le
  have hnear : Flood.Near maxLightLevel level sky.layout.centerGap s := by
    refine hmoved.near ?_ (by decide) ?_ (fun pos hb => (hlevel.eq_max_iff pos).2 hb)
      hlevel.level_le
    · rintro pos (hne | hpos)
      · exact centerGap_eq_zero.2 (hchanges.center_of_ne hne.symm)
      · exact centerGap_eq_zero.2 (hchanges.reverse.center pos hpos).1
    · exact fun e he => centerGap_eq_zero.2 (hcenter e he)
  have hunwritten : Flood.Unwritten s := fun e he => (hmoved.increase e he).2.2.2
  obtain ⟨t, ht, hsees', hraising, hnear'⟩ := hsees.reaches_decrease hz hsource
    (fun pos => (hemission pos).le.trans (zero_le _)) hlowering hnear hreach hend
  have hup : ∀ u, Reaches (sky.engine.flood sky.layout.innerBlock).stepIncrease t u →
      Flood.WritesUp u :=
    fun u hu => ((hunwritten.reaches_decrease hemission ht).reaches_increase hu).writesUp
  obtain ⟨hsettled, hlit⟩ := (hsees'.reaches_increase hz hle hraising hnear' hup hreach').2 hend'
  rw [skyLit_iff]
  refine (balanced_iff hlit.level_le).2 ?_
  rw [innerSource_topSource]
  exact hsettled

end Changes

theorem Changes.exists_final {light : LightLayerEdit} (hchanges : sky.Changes before positions)
    (hlevel : (sky.withSections before).SkyLit (light.levelAt sky.layout))
    (hpresent : ∀ pos, light.presentAt sky.layout pos = sky.layout.innerBlock pos)
    (hcontext : context.toLightContext = .new light) :
    ∃ fuel final, sky.propagateBlockChanges fuel positions context = some final := by
  obtain ⟨s, hsees, _⟩ := exists_start hchanges hlevel rfl hpresent hcontext
  exact hsees.performLightDecrease

theorem SkyLit.unique {level field : BlockCoords → ℕ} (h : sky.SkyLit level)
    (h' : sky.SkyLit field) : level = field :=
  (skyLit_iff.1 h).unique (skyLit_iff.1 h')

end SkyLightEngine

section Shaft

open SkyLightEngine

/-- Stone under the open sky, with a shaft of one block, and with a lid on it or without. -/
def shaft (lid : Bool) (pos : BlockCoords) : Fin 16 × Fin 16 :=
  if 31 < pos.y ∨ pos = ⟨0, 30, 0⟩ then (0, 0)
  else if pos = ⟨0, 31, 0⟩ then (0, if lid then 15 else 0) else (0, 15)

def shaftSky (lid : Bool) : SkyLightEngine (Fin 16 × Fin 16) where
  blocks := plainBlocks
  layout := smallLayout
  sections := .ofStates smallLayout (shaft lid)
  sectionEmpty _ := none
  lightSectionEmpty _ := none

theorem shaft_blockState {lid : Bool} {pos : BlockCoords} {block : CachedLightBlock}
    (h : smallLayout.cachedBlock pos = some block) :
    (shaftSky lid).engine.blockState pos = shaft lid pos :=
  (shaftSky lid).engine.blockState_ofStates rfl h

theorem shaft_skyLit : (shaftSky true).SkyLit fun _ => 0 := by
  have hsource : ∀ pos, smallLayout.innerBlock pos = true →
      (shaftSky true).isSource pos = false := by
    intro pos hinner
    rw [LightCacheLayout.innerBlock_iff] at hinner
    have hy : pos.y ≤ 31 := by
      have htop : blockToSectionCoord pos.y < -1 + 3 := hinner.2.2
      unfold blockToSectionCoord at htop
      omega
    have htop : smallLayout.innerBlock ⟨pos.x, 31, pos.z⟩ = true := by
      rw [LightCacheLayout.innerBlock_iff]
      exact ⟨hinner.1, show (-1 : ℤ) ≤ blockToSectionCoord 31 ∧ blockToSectionCoord 31 < -1 + 3 by
        decide⟩
    have hlid : shaft true ⟨pos.x, 31, pos.z⟩ = (0, 15) := by
      simp [shaft]
    obtain ⟨block, hblock⟩ := LightCacheLayout.exists_cachedBlock_of_innerBlock htop
    rw [Bool.eq_false_iff, ne_eq, isSource_iff]
    intro hall
    have hopen := (opensDown_iff.1 (hall 31 hy (by decide))).1
    rw [shaft_blockState hblock, hlid] at hopen
    cases hopen
  constructor
  · exact fun _ => Nat.zero_le _
  · exact fun _ _ => rfl
  · intro pos hinner hopen
    rw [hsource pos hinner] at hopen
    cases hopen
  · intro pos _ _
    refine (Nat.le_zero.1 (Finset.sup_le fun d _ => ?_)).symm
    split_ifs
    · exact Nat.le_refl _
    · exact (Nat.zero_sub _).le

theorem shaft_changes :
    (shaftSky false).Changes (shaftSky true).sections [⟨0, 31, 0⟩, ⟨0, 31, 0⟩] := by
  have hsame : ∀ pos block, smallLayout.cachedBlock pos = some block → pos ≠ ⟨0, 31, 0⟩ →
      (shaftSky true).engine.blockState pos = (shaftSky false).engine.blockState pos := by
    intro pos block hblock hne
    rw [shaft_blockState hblock, shaft_blockState hblock, shaft, shaft, if_neg hne, if_neg hne]
  constructor
  · decide
  · intro pos hpos hinner
    obtain ⟨block, hblock⟩ := LightCacheLayout.exists_cachedBlock_of_innerBlock hinner
    exact hsame pos block hblock fun h => hpos (h ▸ List.mem_cons_self)
  · intro pos htop
    cases hblock : smallLayout.cachedBlock pos with
    | none =>
      have hblock' : (shaftSky false).engine.layout.cachedBlock pos = none := hblock
      simp only [LightEngine.blockState, LightEngine.withSections, hblock']
    | some block =>
      refine hsame pos block hblock ?_
      rintro rfl
      exact absurd htop (by decide)

end Shaft

section SkyLight

open SkyLightEngine

variable {S : Type*} {sky : SkyLightEngine S}

/-- A change to blocks of the centre chunk ends, and it leaves the light that the blocks should
have. -/
theorem propagateBlockChanges_skyLit (before : LightSectionReadCache S) (light : LightLayerEdit)
    (hpresent : ∀ pos, light.presentAt sky.layout pos = sky.layout.innerBlock pos)
    (hlevel : (sky.withSections before).SkyLit (light.levelAt sky.layout))
    (positions : List BlockCoords) (hchanges : sky.Changes before positions)
    (missingSectionChecked : ℕ → Bool) :
    (∃ fuel final, sky.propagateBlockChanges fuel positions
      ⟨.new light, missingSectionChecked⟩ = some final) ∧
    ∀ fuel final, sky.propagateBlockChanges fuel positions
      ⟨.new light, missingSectionChecked⟩ = some final →
        ∀ level, sky.SkyLit level ↔ level = final.light.levelAt sky.layout := by
  constructor
  · exact hchanges.exists_final hlevel hpresent rfl
  · intro fuel final hfinal level
    have hlit := hchanges.skyLit hlevel rfl hpresent rfl hfinal
    constructor
    · exact fun h => h.unique hlit
    · rintro rfl
      exact hlit

/-- The lid is taken off the shaft, and its change is listed twice. -/
theorem propagateBlockChanges_shaft :
    (∃ fuel final, (shaftSky false).propagateBlockChanges fuel [⟨0, 31, 0⟩, ⟨0, 31, 0⟩]
      ⟨.new (.ofLevels smallLayout fun _ => 0), fun _ => false⟩ = some final) ∧
    ∀ fuel final, (shaftSky false).propagateBlockChanges fuel [⟨0, 31, 0⟩, ⟨0, 31, 0⟩]
      ⟨.new (.ofLevels smallLayout fun _ => 0), fun _ => false⟩ = some final →
        ∀ level, (shaftSky false).SkyLit level ↔ level = final.light.levelAt smallLayout := by
  refine propagateBlockChanges_skyLit (shaftSky true).sections _
    (LightLayerEdit.presentAt_ofLevels _) ?_ _ shaft_changes _
  have hdark : (LightLayerEdit.ofLevels smallLayout fun _ => 0).levelAt smallLayout =
      fun _ => 0 := by
    funext pos
    rw [LightLayerEdit.levelAt_ofLevels]
    exact ite_self 0
  rw [show (shaftSky false).layout = smallLayout from rfl, hdark]
  exact shaft_skyLit

end SkyLight

end Steel
