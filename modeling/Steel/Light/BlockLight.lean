import Steel.Light.LightField

/-! # Block light

Block light starts at the blocks that emit it. It is spread when a chunk is lit, and after a change
what the changed blocks have given is taken away before it spreads again.
-/

namespace Steel

open LightLayerEdit List LightCacheLayout Nat

variable {S : Type*}

def blockLightEngine (blocks : LightBlocks S) (layout : LightCacheLayout)
    (sections : LightSectionReadCache S) : LightEngine S where
  blocks := blocks
  layout := layout
  sections := sections
  emittedLight := blocks.emittedLevel
  emittedLight_le _ := LightBlocks.emittedLevel_le _

namespace LightEngine

variable (engine : LightEngine S)

def seedBlockLightSource (pos : BlockCoords) (context : LightContext) : LightContext :=
  match engine.layout.cachedBlock pos with
  | none => context
  | some block =>
    let state := engine.getBlockState block
    if engine.emittedLight state ≤ context.light.get block then context
    else (engine.enqueueIncrease pos (engine.emittedLight state) .all (engine.shapeFlags state)
      context).setLevel block (engine.emittedLight state)

def seedBlockLightSources (positions : List BlockCoords) (context : LightContext) : LightContext :=
  positions.foldl (fun context pos => engine.seedBlockLightSource pos context) context

/-- `BlockLightPropagationContext::check_block` -/
def checkBlock (pos : BlockCoords) (context : LightContext) : LightContext :=
  match engine.layout.cachedBlock pos with
  | none => context
  | some block =>
    let state := engine.getBlockState block
    let lit := context.setLevel block (engine.emittedLight state)
    engine.enqueueDecrease pos (context.light.get block) .all .empty
      (if engine.emittedLight state = 0 then lit
      else
        engine.enqueueIncrease pos (engine.emittedLight state) .all (engine.shapeFlags state) lit)

def checkBlocks (positions : List BlockCoords) (context : LightContext) : LightContext :=
  positions.foldl (fun context pos => engine.checkBlock pos context) context

/-- Checks all states in which `perform_light_decrease` spreads light again. -/
def spreadsUp (fuel : ℕ) (start : LightContext) : Bool :=
  match loop engine.stepDecrease fuel start with
  | none => false
  | some middle => loopAll engine.writesUp engine.stepIncrease fuel middle

/-- The states in which `perform_light_decrease` spreads light again. -/
def SpreadsAgain (start context : LightContext) : Prop :=
  ∃ middle, Reaches engine.stepDecrease start middle ∧ engine.stepDecrease middle = none ∧
    Reaches engine.stepIncrease middle context

variable {engine} {context : LightContext} {state : FloodState BlockCoords LightAxisDirection}
  {pos : BlockCoords} {present : BlockCoords → Bool} {positions : List BlockCoords}

theorem writesUp_of_spreadsUp (fuel : ℕ) {start : LightContext}
    (h : engine.spreadsUp fuel start = true) (hspreads : engine.SpreadsAgain start context) :
    engine.writesUp context = true := by
  obtain ⟨middle, hreach, hend, hreach'⟩ := hspreads
  obtain ⟨fuel', hfuel'⟩ := loop_of_reaches hreach hend
  unfold spreadsUp at h
  cases hmiddle : loop engine.stepDecrease fuel start with
  | none => simp [hmiddle] at h
  | some middle' =>
    simp only [hmiddle] at h
    obtain rfl := loop_eq_of_some hfuel' hmiddle
    exact reaches_of_loopAll h hreach'

theorem sourceEntry_eq (hpos : present pos = true) : (engine.flood present).sourceEntry pos =
    ⟨pos, engine.emittedLight (engine.blockState pos), LightAxisDirection.all,
      !(engine.blocks.lightOcclusionShape (engine.blockState pos)).isEmpty, false, false⟩ := by
  simp [Flood.sourceEntry, flood, hpos]

section

variable (h : engine.Sees present context state)

include h

theorem Sees.enqueueSource (hpos : present pos = true) : engine.Sees present
      (engine.enqueueIncrease pos (engine.emittedLight (engine.blockState pos)) .all
        (engine.shapeFlags (engine.blockState pos)) context)
      ((engine.flood present).enqueueIncrease ((engine.flood present).sourceEntry pos) state) := by
  have henqueue := h.enqueueIncrease hpos (engine.emittedLight_le (engine.blockState pos))
    (show LightDirectionSet.all < 64 by decide)
    (!(engine.blocks.lightOcclusionShape (engine.blockState pos)).isEmpty) false false
  rwa [sourceEntry_eq hpos, shapeFlags_eq]

theorem Sees.seedBlockLightSource (hpos : present pos = true) :
    engine.Sees present (engine.seedBlockLightSource pos context)
      ((engine.flood present).seed pos state) := by
  have hsource := h.enqueueSource hpos
  obtain ⟨block, hblock, _⟩ := h.1.exists_neighbor hpos
  have hset := hsource.setLevel hblock hpos (engine.emittedLight_le (engine.blockState pos))
  have hlevel : state.level pos = context.light.get block := by
    rw [← h.2]
    exact levelAt_eq hblock
  have hemission : (engine.flood present).emission pos =
      engine.emittedLight (engine.blockState pos) := if_pos hpos
  unfold LightEngine.seedBlockLightSource Flood.seed
  rw [hemission, hlevel, hblock]
  simp only [← blockState_eq hblock]
  split_ifs
  · exact h
  · exact hset

theorem Sees.checkBlock (hpos : present pos = true) :
    engine.Sees present (engine.checkBlock pos context)
    ((engine.flood present).check pos state) := by
  obtain ⟨block, hblock, _⟩ := h.1.exists_neighbor hpos
  have hlevel : state.level pos = context.light.get block := by
    rw [← h.2]
    exact levelAt_eq hblock
  have hle : context.light.get block ≤ maxLightLevel := by
    have hle := h.1.level_le pos
    rwa [levelAt_eq hblock] at hle
  have hset := h.setLevel hblock hpos (engine.emittedLight_le (engine.blockState pos))
  have hemission : (engine.flood present).emission pos =
      engine.emittedLight (engine.blockState pos) := if_pos hpos
  unfold LightEngine.checkBlock Flood.check Flood.enqueueSource Flood.oldEntry
  rw [hemission, hlevel, hblock]
  simp only [← blockState_eq hblock]
  have hsource : engine.Sees present (if engine.emittedLight (engine.blockState pos) = 0 then
        context.setLevel block (engine.emittedLight (engine.blockState pos))
      else engine.enqueueIncrease pos (engine.emittedLight (engine.blockState pos)) .all
        (engine.shapeFlags (engine.blockState pos))
        (context.setLevel block (engine.emittedLight (engine.blockState pos))))
      (if engine.emittedLight (engine.blockState pos) = 0 then
        Flood.setLevel pos (engine.emittedLight (engine.blockState pos)) state
      else (engine.flood present).enqueueIncrease ((engine.flood present).sourceEntry pos)
        (Flood.setLevel pos (engine.emittedLight (engine.blockState pos)) state)) := by
    split_ifs
    · exact hset
    · exact hset.enqueueSource hpos
  have henqueue := hsource.enqueueDecrease hpos hle (show LightDirectionSet.all < 64 by decide)
    false
  rwa [LightDirectionSet.directions_all] at henqueue

theorem Sees.seedBlockLightSources (hpositions : ∀ pos ∈ positions, present pos = true) :
    engine.Sees present (engine.seedBlockLightSources positions context)
      (positions.foldl (fun s pos => (engine.flood present).seed pos s) state) := by
  induction positions generalizing context state with
  | nil => exact h
  | cons pos positions ih =>
    exact ih (h.seedBlockLightSource (hpositions pos mem_cons_self))
      fun pos' hpos' => hpositions pos' (mem_cons_of_mem _ hpos')

theorem Sees.checkBlocks (hpositions : ∀ pos ∈ positions, present pos = true) :
    engine.Sees present (engine.checkBlocks positions context)
      (positions.foldl (fun s pos => (engine.flood present).check pos s) state) := by
  induction positions generalizing context state with
  | nil => exact h
  | cons pos positions ih =>
    exact ih (h.checkBlock (hpositions pos mem_cons_self))
      fun pos' hpos' => hpositions pos' (mem_cons_of_mem _ hpos')

end

theorem mem_seeds {pos : BlockCoords} (hpositions : ∀ pos, pos ∈ positions ↔
      engine.layout.innerBlock pos = true ∧ engine.emission pos ≠ 0)
    (h : (engine.flood engine.layout.innerBlock).emission pos ≠ 0) : pos ∈ positions.reverse := by
  rw [mem_reverse, hpositions]
  simp only [flood, ne_eq, ite_eq_right_iff, not_forall] at h
  obtain ⟨hinner, hemitted⟩ := h
  exact ⟨hinner, hemitted⟩

theorem horizon_dark (hcenter : ∀ pos, engine.layout.innerBlock pos = true →
      engine.emission pos ≠ 0 → engine.layout.centerBlock pos = true)
    (hpositions : ∀ pos, pos ∈ positions ↔
      engine.layout.innerBlock pos = true ∧ engine.emission pos ≠ 0) :
    (engine.flood engine.layout.innerBlock).Horizon maxLightLevel 0 engine.layout.centerGap := by
  refine horizon (fun _ => zero_le _) (fun _ _ _ _ _ => zero_le _) fun pos hpos => ?_
  by_contra hne
  have hmem := mem_seeds hpositions fun hzero => hne hzero.le
  obtain ⟨hinner, hemitted⟩ := (hpositions pos).1 (mem_reverse.1 hmem)
  rw [hcenter pos hinner hemitted] at hpos
  cases hpos

section Seeds

variable (engine) {light : LightLayerEdit}
  (hpresent : ∀ pos, light.presentAt engine.layout pos = engine.layout.innerBlock pos)
  (hdark : ∀ pos, light.levelAt engine.layout pos = 0)
  (hcenter : ∀ pos, engine.layout.innerBlock pos = true → engine.emission pos ≠ 0 →
    engine.layout.centerBlock pos = true)
  (hpositions : ∀ pos, pos ∈ positions ↔
    engine.layout.innerBlock pos = true ∧ engine.emission pos ≠ 0)

include hpresent hdark hcenter hpositions

theorem exists_seeded : ∃ s,
    engine.Sees engine.layout.innerBlock (engine.seedBlockLightSources positions (.new light)) s ∧
    (engine.flood engine.layout.innerBlock).Seeded positions.reverse s := by
  have hsees := (sees_new hpresent fun pos => (hdark pos).le.trans (zero_le _)
    ).seedBlockLightSources fun pos hpos => ((hpositions pos).1 hpos).1
  refine ⟨_, hsees, ?_⟩
  have hstart : (engine.flood engine.layout.innerBlock).Seeded []
      ⟨light.levelAt engine.layout, [], [], []⟩ := by
    constructor
    · intro pos
      exact hdark pos
    · rintro _ ⟨⟩
    · rintro _ ⟨⟩
    · rfl
    · rfl
  have hroom : ∀ pos ∈ positions, (engine.flood engine.layout.innerBlock).room pos = true := by
    intro pos hpos
    obtain ⟨hinner, hemitted⟩ := (hpositions pos).1 hpos
    exact room_of_center hinner (hcenter pos hinner hemitted)
  have hseeded := hstart.foldl_seed hroom
  rwa [append_nil] at hseeded

theorem reaches_seeds {context : LightContext} (hreach : Reaches engine.stepIncrease
      (engine.seedBlockLightSources positions (.new light)) context) :
    context.refused = [] ∧ (engine.stepIncrease context = none →
      engine.Balanced engine.emission (context.light.levelAt engine.layout)) := by
  obtain ⟨s, hsees, hseeded⟩ := exists_seeded engine hpresent hdark hcenter hpositions
  have hz := horizon_dark hcenter hpositions
  have hnear := hseeded.near hz fun pos hpos => by
    obtain ⟨hinner, hemitted⟩ := (hpositions pos).1 (mem_reverse.1 hpos)
    exact centerGap_eq_zero.2 (hcenter pos hinner hemitted)
  obtain ⟨hrefused, hend⟩ := hsees.reaches_increase hz hz.emission_le
    (fun field hc => hseeded.raising (fun pos => mem_seeds hpositions) hc)
    hnear (fun t ht => (hseeded.unwritten.reaches_increase ht).writesUp) hreach
  refine ⟨hrefused, fun hstuck => ?_⟩
  obtain ⟨hsettled, hlit⟩ := hend hstuck
  exact (balanced_iff hlit.level_le).2 hsettled

end Seeds

section Changes

variable {after : LightSectionReadCache S} {level : BlockCoords → ℕ}
  (hlevel : engine.Balanced engine.emission level)
  (hsame : ∀ pos ∉ positions, engine.layout.innerBlock pos = true →
    (engine.withSections after).blockState pos = engine.blockState pos)

include hlevel hsame

theorem Balanced.kept :
    ((engine.withSections after).flood engine.layout.innerBlock).Kept level positions := by
  obtain ⟨hclosed, hgrounded⟩ := (balanced_iff hlevel.level_le).1 hlevel
  have hemission : ∀ pos ∉ positions,
      ((engine.withSections after).flood engine.layout.innerBlock).emission pos =
        (engine.flood engine.layout.innerBlock).emission pos := by
    intro pos hpos
    cases hinner : engine.layout.innerBlock pos with
    | false => simp only [flood, hinner, Bool.false_eq_true, if_false]
    | true => exact emission_withSections (hsame pos hpos hinner) _
  constructor
  · intro pos hpos
    rw [hemission pos hpos]
    exact grounded_withSections hsame hgrounded hpos
  · intro pos hpos
    rw [hemission pos hpos]
    exact hclosed.source_le pos
  · exact fun pos hpos d hnot hopens => link_le_withSections hsame hclosed hpos hnot hopens

variable (hchanges : ∀ pos ∈ positions,
  engine.layout.centerBlock pos = true ∧ engine.layout.innerBlock pos = true)

include hchanges

theorem Balanced.horizon : ((engine.withSections after).flood engine.layout.innerBlock).Horizon
    maxLightLevel level engine.layout.centerGap := by
  have hkept := hlevel.kept hsame
  have hfar : ∀ pos, engine.layout.centerBlock pos = false → pos ∉ positions := by
    intro pos hpos hmem
    rw [(hchanges pos hmem).1] at hpos
    cases hpos
  refine LightEngine.horizon hlevel.level_le
    (fun pos d hopens hpos hnext => ?_) fun pos hpos => hkept.source_le pos (hfar pos hpos)
  exact hkept.link_le pos (hfar pos hpos) d (hfar _ hnext) hopens

variable {light : LightLayerEdit}
  (hpresent : ∀ pos, light.presentAt engine.layout pos = engine.layout.innerBlock pos)
  (hlight : light.levelAt engine.layout = level)

include hpresent hlight

theorem Balanced.exists_checked : ∃ s, (engine.withSections after).Sees engine.layout.innerBlock
      ((engine.withSections after).checkBlocks positions (.new light)) s ∧
    ((engine.withSections after).flood engine.layout.innerBlock).Checked maxLightLevel level
      positions.reverse s := by
  have hz := hlevel.horizon hsame hchanges
  have hle : ∀ pos, light.levelAt engine.layout pos ≤ maxLightLevel := by
    intro pos
    rw [hlight]
    exact hlevel.level_le pos
  have hsees := (@sees_new S (engine.withSections after) _ light hpresent hle).checkBlocks
    fun pos hpos => (hchanges pos hpos).2
  refine ⟨_, hsees, ?_⟩
  have hstart : ((engine.withSections after).flood engine.layout.innerBlock).Checked maxLightLevel
      level [] ⟨light.levelAt engine.layout, [], [], []⟩ := by
    constructor
    · intro pos
      exact congrFun hlight pos
    · rintro _ ⟨⟩
    · rintro _ ⟨⟩
    · rintro _ ⟨⟩
    · rintro _ ⟨⟩
    · rfl
  have hroom : ∀ pos ∈ positions,
      ((engine.withSections after).flood engine.layout.innerBlock).room pos = true := by
    intro pos hpos
    exact @room_of_center S (engine.withSections after) pos (hchanges pos hpos).2
      (hchanges pos hpos).1
  have hchecked := hstart.foldl_check hlevel.level_le hz.emission_le hroom
  rwa [append_nil] at hchecked

/-- Where no level is written over a higher one, the change leaves the light that the blocks should
have. -/
theorem Balanced.checkBlocks {final middle : LightContext}
    (hreach : Reaches (engine.withSections after).stepDecrease
      ((engine.withSections after).checkBlocks positions (.new light)) middle)
    (hend : (engine.withSections after).stepDecrease middle = none)
    (hreach' : Reaches (engine.withSections after).stepIncrease middle final)
    (hend' : (engine.withSections after).stepIncrease final = none)
    (hup : ∀ context, Reaches (engine.withSections after).stepIncrease middle context →
      (engine.withSections after).writesUp context = true) :
    (engine.withSections after).Balanced (engine.withSections after).emission
      (final.light.levelAt engine.layout) := by
  obtain ⟨s, hsees, hchecked⟩ := hlevel.exists_checked hsame hchanges hpresent hlight
  have hz := hlevel.horizon hsame hchanges
  have hkept : ((engine.withSections after).flood engine.layout.innerBlock).Kept level
      positions.reverse :=
    hlevel.kept fun pos hpos => hsame pos fun hmem => hpos (mem_reverse.2 hmem)
  have hnear := hchecked.near hz fun pos hpos =>
    centerGap_eq_zero.2 (hchanges pos (mem_reverse.1 hpos)).1
  obtain ⟨t, _, hmiddle, hraising, hnear'⟩ := hsees.reaches_decrease hz (fun _ => .inl rfl)
    (fun _ => le_refl _) (hchecked.lowering hkept hlevel.level_le hz.emission_le) hnear hreach
    hend
  obtain ⟨hsettled, hlit⟩ := (hmiddle.reaches_increase hz hz.emission_le hraising hnear'
    (fun _ ht => hmiddle.reaches_writesUp hup ht) hreach').2 hend'
  exact (balanced_iff hlit.level_le).2 hsettled

end Changes

end LightEngine

section Corridor

open LightEngine

def corridor (first second : Fin 16) (pos : BlockCoords) : Fin 16 × Fin 16 :=
  if pos = ⟨0, 0, 0⟩ then (first, 0) else if pos = ⟨1, 0, 0⟩ then (second, 0) else (0, 15)

def corridorSections (first second : Fin 16) : LightSectionReadCache (Fin 16 × Fin 16) :=
  .ofStates smallLayout (corridor first second)

def corridorLevel (first second : ℕ) (pos : BlockCoords) : ℕ :=
  if pos = ⟨0, 0, 0⟩ then first else if pos = ⟨1, 0, 0⟩ then second else 0

def corridorEngine (first second : Fin 16) : LightEngine (Fin 16 × Fin 16) :=
  blockLightEngine plainBlocks smallLayout (corridorSections first second)

variable {first second : Fin 16}

theorem corridor_blockState {pos : BlockCoords} (h : smallLayout.innerBlock pos = true) :
    (corridorEngine first second).blockState pos = corridor first second pos := by
  obtain ⟨block, hblock⟩ := exists_cachedBlock_of_innerBlock h
  exact (corridorEngine first second).blockState_ofStates rfl hblock

theorem corridor_balanced {level₁ level₂ : ℕ}
    (h₁ : level₁ ≤ 15 ∧ level₁ = max ((corridorEngine first second).emission ⟨0, 0, 0⟩)
      ((corridorEngine first second).gathered (corridorLevel level₁ level₂) ⟨0, 0, 0⟩))
    (h₂ : level₂ ≤ 15 ∧ level₂ = max ((corridorEngine first second).emission ⟨1, 0, 0⟩)
      ((corridorEngine first second).gathered (corridorLevel level₁ level₂) ⟨1, 0, 0⟩)) :
    (corridorEngine first second).Balanced (corridorEngine first second).emission
      (corridorLevel level₁ level₂) := by
  have hle : ∀ pos, corridorLevel level₁ level₂ pos ≤ maxLightLevel := by
    intro pos
    unfold corridorLevel
    split_ifs
    · exact h₁.1
    · exact h₂.1
    · exact zero_le _
  constructor
  · exact hle
  · intro pos hpos
    unfold corridorLevel
    rw [if_neg, if_neg]
    · rintro rfl
      exact absurd (show smallLayout.innerBlock ⟨1, 0, 0⟩ = false from hpos) (by decide)
    · rintro rfl
      exact absurd (show smallLayout.innerBlock ⟨0, 0, 0⟩ = false from hpos) (by decide)
  · intro pos hpos
    by_cases hfirst : pos = ⟨0, 0, 0⟩
    · subst hfirst
      exact h₁.2
    · by_cases hsecond : pos = ⟨1, 0, 0⟩
      · subst hsecond
        exact h₂.2
      · have hstate : (corridorEngine first second).blockState pos = (0, 15) := by
          rw [corridor_blockState hpos, corridor, if_neg hfirst, if_neg hsecond]
        have hgathered : (corridorEngine first second).gathered (corridorLevel level₁ level₂) pos =
            0 := by
          refine le_zero.1 (Finset.sup_le fun d _ => ?_)
          rw [hstate]
          split_ifs
          · exact Nat.le_refl _
          · exact (Nat.sub_eq_zero_of_le (hle _)).le
        have hemission : (corridorEngine first second).emission pos = 0 := by
          rw [LightEngine.emission, hstate]
          rfl
        rw [hgathered, hemission, corridorLevel, if_neg hfirst, if_neg hsecond]
        rfl

theorem corridor_emission (pos : BlockCoords) (h : smallLayout.innerBlock pos = true) :
    (corridorEngine first second).emission pos = (if pos = ⟨0, 0, 0⟩ then (first : ℕ) &&& 15
      else if pos = ⟨1, 0, 0⟩ then (second : ℕ) &&& 15 else 0) := by
  rw [LightEngine.emission, corridor_blockState h, corridor]
  split_ifs <;> rfl

theorem corridor_levelAt (level₁ level₂ : ℕ) :
    (LightLayerEdit.ofLevels smallLayout (corridorLevel level₁ level₂)).levelAt smallLayout =
      corridorLevel level₁ level₂ := by
  funext pos
  rw [levelAt_ofLevels]
  split_ifs with hinner
  · rfl
  · unfold corridorLevel
    rw [if_neg, if_neg]
    · rintro rfl
      exact hinner (by decide)
    · rintro rfl
      exact hinner (by decide)

theorem corridor_same {first' : Fin 16} (pos : BlockCoords)
    (hpos : pos ∉ [(⟨0, 0, 0⟩ : BlockCoords)]) (hinner : smallLayout.innerBlock pos = true) :
    (corridorEngine first' second).blockState pos = (corridorEngine first second).blockState pos
    := by
  rw [corridor_blockState hinner, corridor_blockState hinner]
  unfold corridor
  rw [if_neg (fun h => hpos (mem_singleton.2 h)), if_neg (fun h => hpos (mem_singleton.2 h))]

theorem corridor_changes : ∀ pos ∈ [(⟨0, 0, 0⟩ : BlockCoords)],
    smallLayout.centerBlock pos = true ∧ smallLayout.innerBlock pos = true := by
  decide

end Corridor

section BlockLight

open LightEngine

variable {blocks : LightBlocks S} {layout : LightCacheLayout}

/-- Lighting a chunk gives each block the light that it should have, whatever the order of the
sources, and no queue runs out of room. -/
theorem seedBlockLightSources_balanced (sections : LightSectionReadCache S)
    (light : LightLayerEdit) (hpresent : ∀ pos, light.presentAt layout pos = layout.innerBlock pos)
    (hdark : ∀ pos, light.levelAt layout pos = 0)
    (hcenter : ∀ pos, layout.innerBlock pos = true →
      (blockLightEngine blocks layout sections).emission pos ≠ 0 → layout.centerBlock pos = true)
    (positions : List BlockCoords) (hpositions : ∀ pos, pos ∈ positions ↔
      layout.innerBlock pos = true ∧ (blockLightEngine blocks layout sections).emission pos ≠ 0) :
    (∃ fuel final, (blockLightEngine blocks layout sections).performLightIncrease fuel
      ((blockLightEngine blocks layout sections).seedBlockLightSources positions (.new light)) =
        some final) ∧
    (∀ fuel final, (blockLightEngine blocks layout sections).performLightIncrease fuel
      ((blockLightEngine blocks layout sections).seedBlockLightSources positions (.new light)) =
        some final → ∀ level, (blockLightEngine blocks layout sections).Balanced
          (blockLightEngine blocks layout sections).emission level ↔
            level = final.light.levelAt layout) ∧
    ∀ context, Reaches (blockLightEngine blocks layout sections).stepIncrease
      ((blockLightEngine blocks layout sections).seedBlockLightSources positions (.new light))
      context → context.refused = [] := by
  refine ⟨?_, ?_, fun context hreach => ?_⟩
  · obtain ⟨s, hsees, _⟩ := exists_seeded (blockLightEngine blocks layout sections) hpresent hdark
      hcenter hpositions
    exact hsees.performLightIncrease
  · intro fuel final hfinal level
    obtain ⟨hreach, hend⟩ := reaches_of_loop hfinal
    have hbalanced := (reaches_seeds (blockLightEngine blocks layout sections) hpresent hdark
      hcenter hpositions hreach).2 hend
    constructor
    · exact fun h => h.unique hbalanced
    · rintro rfl
      exact hbalanced
  · exact (reaches_seeds (blockLightEngine blocks layout sections) hpresent hdark hcenter
      hpositions hreach).1

/-- Two lamps, put into the queue in any order. -/
theorem seedBlockLightSources_corridor :
    (∃ fuel final, (corridorEngine 15 5).performLightIncrease fuel
      ((corridorEngine 15 5).seedBlockLightSources [⟨1, 0, 0⟩, ⟨0, 0, 0⟩, ⟨1, 0, 0⟩]
        (.new (.ofLevels smallLayout (corridorLevel 0 0)))) = some final) ∧
    (∀ fuel final, (corridorEngine 15 5).performLightIncrease fuel
      ((corridorEngine 15 5).seedBlockLightSources [⟨1, 0, 0⟩, ⟨0, 0, 0⟩, ⟨1, 0, 0⟩]
        (.new (.ofLevels smallLayout (corridorLevel 0 0)))) = some final →
      ∀ level, (corridorEngine 15 5).Balanced (corridorEngine 15 5).emission level ↔
        level = final.light.levelAt smallLayout) ∧
    ∀ context, Reaches (corridorEngine 15 5).stepIncrease
      ((corridorEngine 15 5).seedBlockLightSources [⟨1, 0, 0⟩, ⟨0, 0, 0⟩, ⟨1, 0, 0⟩]
        (.new (.ofLevels smallLayout (corridorLevel 0 0)))) context → context.refused = [] := by
  have hemission : ∀ pos, smallLayout.innerBlock pos = true →
      (corridorEngine 15 5).emission pos ≠ 0 → pos = ⟨0, 0, 0⟩ ∨ pos = ⟨1, 0, 0⟩ := by
    intro pos hinner hne
    rw [corridor_emission pos hinner] at hne
    split_ifs at hne with hfirst hsecond
    · exact .inl hfirst
    · exact .inr hsecond
    · exact absurd rfl hne
  refine seedBlockLightSources_balanced (corridorSections 15 5) _
    (presentAt_ofLevels _) ?_ ?_ _ ?_
  · intro pos
    rw [corridor_levelAt]
    unfold corridorLevel
    split_ifs <;> rfl
  · intro pos hinner hne
    rcases hemission pos hinner hne with rfl | rfl
    · decide
    · decide
  · intro pos
    constructor
    · intro hmem
      simp only [mem_cons, not_mem_nil, or_false] at hmem
      rcases hmem with rfl | rfl | rfl
      · exact ⟨by decide, by decide +kernel⟩
      · exact ⟨by decide, by decide +kernel⟩
      · exact ⟨by decide, by decide +kernel⟩
    · rintro ⟨hinner, hne⟩
      rcases hemission pos hinner hne with rfl | rfl
      · decide
      · decide

/-- A change to blocks ends, and it leaves the light that the blocks should have if no source is
written over a higher level. -/
theorem performLightDecrease_balanced (before after : LightSectionReadCache S)
    (light : LightLayerEdit) (hpresent : ∀ pos, light.presentAt layout pos = layout.innerBlock pos)
    (hlevel : (blockLightEngine blocks layout before).Balanced
      (blockLightEngine blocks layout before).emission (light.levelAt layout))
    (positions : List BlockCoords) (hpositions : ∀ pos ∈ positions,
      layout.centerBlock pos = true ∧ layout.innerBlock pos = true)
    (hsame : ∀ pos ∉ positions, layout.innerBlock pos = true →
      (blockLightEngine blocks layout after).blockState pos =
        (blockLightEngine blocks layout before).blockState pos) :
    (∃ fuel final, (blockLightEngine blocks layout after).performLightDecrease fuel
      ((blockLightEngine blocks layout after).checkBlocks positions (.new light)) = some final) ∧
    ((∀ context, (blockLightEngine blocks layout after).SpreadsAgain
        ((blockLightEngine blocks layout after).checkBlocks positions (.new light)) context →
        (blockLightEngine blocks layout after).writesUp context = true) →
      ∀ fuel final, (blockLightEngine blocks layout after).performLightDecrease fuel
        ((blockLightEngine blocks layout after).checkBlocks positions (.new light)) = some final →
        ∀ level, (blockLightEngine blocks layout after).Balanced
          (blockLightEngine blocks layout after).emission level ↔
            level = final.light.levelAt layout) := by
  constructor
  · obtain ⟨s, hsees, _⟩ := hlevel.exists_checked hsame hpositions hpresent rfl
    exact hsees.performLightDecrease
  · intro hup fuel final hfinal level
    obtain ⟨middle, hreach, hend, hreach', hend'⟩ := reaches_performLightDecrease hfinal
    have hbalanced := hlevel.checkBlocks hsame hpositions hpresent rfl hreach hend hreach' hend'
      fun context hcontext => hup context ⟨middle, hreach, hend, hcontext⟩
    constructor
    · exact fun h => h.unique hbalanced
    · rintro rfl
      exact hbalanced

/-- A lamp gets darker, and the block next to it emits nothing. -/
theorem performLightDecrease_corridor :
    (∃ fuel final, (corridorEngine 10 0).performLightDecrease fuel
      ((corridorEngine 10 0).checkBlocks [⟨0, 0, 0⟩]
        (.new (.ofLevels smallLayout (corridorLevel 15 14)))) = some final) ∧
    ∀ fuel final, (corridorEngine 10 0).performLightDecrease fuel
      ((corridorEngine 10 0).checkBlocks [⟨0, 0, 0⟩]
        (.new (.ofLevels smallLayout (corridorLevel 15 14)))) = some final →
      ∀ level, (corridorEngine 10 0).Balanced (corridorEngine 10 0).emission level ↔
        level = final.light.levelAt smallLayout := by
  have hlevel : (corridorEngine 15 0).Balanced (corridorEngine 15 0).emission
      ((LightLayerEdit.ofLevels smallLayout (corridorLevel 15 14)).levelAt smallLayout) := by
    rw [corridor_levelAt]
    exact corridor_balanced (by decide +kernel) (by decide +kernel)
  obtain ⟨hends, hbalanced⟩ := performLightDecrease_balanced (corridorSections 15 0)
    (corridorSections 10 0) _ (presentAt_ofLevels _) hlevel [⟨0, 0, 0⟩]
    corridor_changes corridor_same
  exact ⟨hends, hbalanced fun context hspreads =>
    writesUp_of_spreadsUp 20 (by decide +kernel) hspreads⟩

/-- A lamp gets darker, and the block next to it has a source of its own. The lamp still gives it
nine, but it is left with the five of its own source, which were written last. -/
theorem performLightDecrease_not_balanced :
    (corridorEngine 15 5).Balanced (corridorEngine 15 5).emission
      ((LightLayerEdit.ofLevels smallLayout (corridorLevel 15 14)).levelAt smallLayout) ∧
    (∀ pos ∉ [(⟨0, 0, 0⟩ : BlockCoords)], smallLayout.innerBlock pos = true →
      (corridorEngine 10 5).blockState pos = (corridorEngine 15 5).blockState pos) ∧
    ∃ final, (corridorEngine 10 5).performLightDecrease 20
      ((corridorEngine 10 5).checkBlocks [⟨0, 0, 0⟩]
        (.new (.ofLevels smallLayout (corridorLevel 15 14)))) = some final ∧
      final.light.levelAt smallLayout ⟨1, 0, 0⟩ = 5 ∧
      (corridorEngine 10 5).gathered (final.light.levelAt smallLayout) ⟨1, 0, 0⟩ = 9 ∧
      ¬ (corridorEngine 10 5).Balanced (corridorEngine 10 5).emission
        (final.light.levelAt smallLayout) := by
  refine ⟨?_, corridor_same, ?_⟩
  · rw [corridor_levelAt]
    exact corridor_balanced (by decide +kernel) (by decide +kernel)
  · have hrun : ((corridorEngine 10 5).performLightDecrease 20
        ((corridorEngine 10 5).checkBlocks [⟨0, 0, 0⟩]
          (.new (.ofLevels smallLayout (corridorLevel 15 14))))).map (fun final =>
        (final.light.levelAt smallLayout ⟨1, 0, 0⟩,
          (corridorEngine 10 5).gathered (final.light.levelAt smallLayout) ⟨1, 0, 0⟩)) =
        some (5, 9) := by
      decide +kernel
    obtain ⟨final, hfinal, hpair⟩ := Option.map_eq_some_iff.1 hrun
    obtain ⟨hlevel, hgathered⟩ := Prod.mk.inj hpair
    refine ⟨final, hfinal, hlevel, hgathered, fun hbalanced => ?_⟩
    have hinside := hbalanced.inside ⟨1, 0, 0⟩ (by decide)
    omega

end BlockLight

end Steel
