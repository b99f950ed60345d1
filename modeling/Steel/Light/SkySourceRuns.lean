import Steel.Light.SkySourceUpdates

/-! # The sky-light sources over runs

Updates keep the highest occluded edge of a column while single blocks change.
-/

namespace Steel

open List Option

namespace ChunkSkyLightSources

/-- The sections are recounted, and the sources filled from them. -/
def initializeLightSources (blocks : SkyBlocks) (sections : List ChunkSection)
    (sources : ChunkSkyLightSources) : Option (List ChunkSection × ChunkSkyLightSources) := do
  let sections ← sections.mapM (ChunkSection.recalculateCounts blocks.countsForState)
  some (sections, fillFromSections blocks sources sections)

structure BlockChange where
  x : Fin 16
  y : ℤ
  z : Fin 16
  state : BlockStateId

namespace BlockChange

/-- A change inside the world, to a state that exists. -/
structure Valid (blocks : SkyBlocks) (minY : ℤ) (count : ℕ) (change : BlockChange) : Prop where
  low : minY ≤ change.y
  high : change.y < minY + (16 * count : ℕ)
  registered : (blocks.countsForState change.state).isSome = true

def write (blocks : SkyBlocks) (minY : ℤ) (sections : List ChunkSection) (change : BlockChange) :
    Option (List ChunkSection) := do
  let offset := (change.y - minY).toNat
  let s ← sections[offset / 16]?
  let (_, s') ← s.setBlockState blocks.countsForState change.x
    ⟨offset % 16, Nat.mod_lt _ (by decide)⟩ change.z change.state
  some (sections.set (offset / 16) s')

/-- A change of a block, and the update of the sources after it. -/
def run (blocks : SkyBlocks) (change : BlockChange) (sections : List ChunkSection)
    (sources : ChunkSkyLightSources) :
    Option (Bool × List ChunkSection × ChunkSkyLightSources) := do
  let minY := sources.minY + 1
  let sections ← change.write blocks minY sections
  let (changed, sources) := update blocks sources change.x change.z (stateAt blocks minY sections)
    change.y
  some (changed, sections, sources)

end BlockChange

def runChanges (blocks : SkyBlocks) : List BlockChange → List ChunkSection →
    ChunkSkyLightSources → Option (List ChunkSection × ChunkSkyLightSources)
  | [], sections, sources => some (sections, sources)
  | change :: changes, sections, sources => do
    let (_, sections, sources) ← change.run blocks sections sources
    runChanges blocks changes sections sources

/-- Every occluded edge that filling does not look at is below one that it looks at. -/
def Shows (blocks : SkyBlocks) (sections : List ChunkSection) (x z : Fin 16) : Prop :=
  ∀ i < 16 * sections.length + 1, occludedEdge blocks sections x z i = true →
    skippedEdge sections i = true →
    ∃ j, i < j ∧ j < 16 * sections.length + 1 ∧ occludedEdge blocks sections x z j = true ∧
      skippedEdge sections j = false

def Tracked (blocks : SkyBlocks) (sections : List ChunkSection) (sources : ChunkSkyLightSources)
    (x z : Fin 16) : Prop :=
  ∃ h : ℕ, sources.get (index x z) = sources.minY + h ∧
    IsSurface (occludedEdge blocks sections x z) (16 * sections.length + 1) h

variable {blocks : SkyBlocks} {sources : ChunkSkyLightSources} {sections : List ChunkSection}
  {x z : Fin 16}

theorem Tracked.eq_fill_iff (htracked : Tracked blocks sections sources x z)
    (hcounted : Counted blocks sections)
    (hbase : ∀ i : ℕ, sectionToBlockCoord (sources.sectionYFromIndex i) =
      sources.minY + (16 * i + 1 : ℕ)) :
    sources.get (index x z) = (fillFromSections blocks sources sections).get (index x z) ↔
      Shows blocks sections x z := by
  obtain ⟨h, hget, hs⟩ := htracked
  obtain ⟨h', hfill, hs'⟩ := fillFromSections_spec hcounted hbase x z
  rw [hget, hfill, add_right_inj, Nat.cast_inj]
  exact hs.eq_iff_of_hidden hs'

@[simp] theorem fillFromSections_minY :
    (fillFromSections blocks sources sections).minY = sources.minY := by
  rw [fillFromSections]
  split <;> rfl

theorem Shows.tracked (hshows : Shows blocks sections x z) (hcounted : Counted blocks sections)
    (hbase : ∀ i : ℕ, sectionToBlockCoord (sources.sectionYFromIndex i) =
      sources.minY + (16 * i + 1 : ℕ)) :
    Tracked blocks sections (fillFromSections blocks sources sections) x z := by
  obtain ⟨h', hfill, hs'⟩ := fillFromSections_spec hcounted hbase x z
  have hs := isSurface_surface (occludedEdge blocks sections x z) (16 * sections.length + 1)
  refine ⟨h', by rw [hfill, fillFromSections_minY], ?_⟩
  rwa [← (hs.eq_iff_of_hidden hs').2 hshows]

theorem update_set (stateAt : Fin 16 → ℤ → Fin 16 → BlockStateId) (y : ℤ) :
    ∃ value, (update blocks sources x z stateAt y).2 = sources.set (index x z) value := by
  have hkeep : sources = sources.set (index x z) (sources.get (index x z)) := set_get _ |>.symm
  have hedge (checkedEdgeY bottomY : ℤ) (topState bottomState : BlockStateId) :
      ∃ value, (updateEdge blocks sources x z stateAt (sources.get (index x z)) checkedEdgeY
        topState bottomY bottomState).2 = sources.set (index x z) value := by
    unfold updateEdge
    split_ifs
    · exact ⟨_, rfl⟩
    · exact ⟨_, hkeep⟩
    · exact ⟨_, rfl⟩
    · exact ⟨_, hkeep⟩
  rw [update_eq]
  rcases checkedI32 (y + 1) with _ | upperEdgeY
  · exact ⟨_, hkeep⟩
  · dsimp only
    split_ifs
    · exact ⟨_, hkeep⟩
    · exact hedge _ _ _ _
    · rcases checkedI32 (y - 1) with _ | bottomY
      · exact ⟨_, hkeep⟩
      · exact hedge _ _ _ _

theorem index_inj {x' z' : Fin 16} : index x z = index x' z' ↔ x = x' ∧ z = z' := by
  simp only [index, Fin.ext_iff]
  omega

theorem get_set_of_ne {column column' : Fin 256} (hne : column' ≠ column) (value : ℤ) :
    (sources.set column value).get column' = sources.get column' :=
  Function.update_of_ne hne _ _

@[simp] theorem get_set_self (column : Fin 256) (value : ℤ) :
    (sources.set column value).get column = value :=
  Function.update_self _ _ _

theorem BlockChange.write_spec (hcounted : Counted blocks sections) {minY : ℤ}
    {change : BlockChange} (hvalid : change.Valid blocks minY sections.length) :
    ∃ sections', change.write blocks minY sections = some sections' ∧
      sections'.length = sections.length ∧ Counted blocks sections' ∧
      ∀ x z i, cell blocks sections' x z i =
        if x = change.x ∧ z = change.z ∧ i = (change.y - minY).toNat then change.state
        else cell blocks sections x z i := by
  obtain ⟨cx, y, cz, state⟩ := change
  obtain ⟨hlow, hhigh, hregistered⟩ := hvalid
  dsimp only at hlow hhigh hregistered ⊢
  obtain ⟨s, hget⟩ : ∃ s, sections[(y - minY).toNat / 16]? = some s :=
    ⟨_, List.getElem?_eq_getElem (by omega)⟩
  obtain ⟨hbuilding, cube, hcube⟩ := hcounted s (mem_of_getElem? hget)
  obtain ⟨s', hset, hbuilding', hcube'⟩ := hcube.setBlockState cx
    ⟨(y - minY).toNat % 16, Nat.mod_lt _ (by decide)⟩ cz hregistered
  refine ⟨sections.set ((y - minY).toNat / 16) s', ?_, length_set, ?_, ?_⟩
  · rw [write, hget, bind_eq_bind, bind_some, hset]
    rfl
  · intro t hmem
    rcases mem_or_eq_of_mem_set hmem with hmem | rfl
    · exact hcounted t hmem
    · exact ⟨hbuilding', _, hcube'⟩
  · intro x z i
    rw [cell, List.getElem?_set]
    by_cases hi : (y - minY).toNat / 16 = i / 16
    · have hlt : (y - minY).toNat / 16 < sections.length := by omega
      have hget' := hi ▸ hget
      rw [if_pos hi, if_pos hlt, cell, hget']
      dsimp only
      rw [PalettedContainer.get_eq hcube'.represents, PalettedContainer.get_eq hcube.represents]
      refine if_congr ?_ rfl rfl
      simp only [Fin.ext_iff]
      omega
    · rw [if_neg hi, if_neg (by omega), cell]

theorem occludedEdge_congr {sections' : List ChunkSection} {i : ℕ}
    (hcell : ∀ j, i = j ∨ i = j + 1 → cell blocks sections' x z j = cell blocks sections x z j) :
    occludedEdge blocks sections x z i = occludedEdge blocks sections' x z i := by
  cases i with
  | zero => rw [occludedEdge, occludedEdge, hcell 0 (.inl rfl)]
  | succ i => rw [occludedEdge, occludedEdge, hcell _ (.inl rfl), hcell i (.inr rfl)]

/-- What a change keeps of the chunk. -/
structure Kept (blocks : SkyBlocks) (minY : ℤ) (count : ℕ) (sections : List ChunkSection)
    (sources : ChunkSkyLightSources) : Prop where
  counted : Counted blocks sections
  length : sections.length = count
  minY : sources.minY + 1 = minY

/-- A change keeps the highest occluded edge of every column, and tells whether it has changed
that of its own. -/
theorem BlockChange.run_spec {minY : ℤ} {count : ℕ} (hlow : -2 ^ 31 ≤ minY - 1)
    (hhigh : minY + (16 * count : ℕ) < 2 ^ 31) (hkept : Kept blocks minY count sections sources)
    {change : BlockChange} (hvalid : change.Valid blocks minY count) :
    ∃ changed sections' sources',
      change.run blocks sections sources = some (changed, sections', sources') ∧
      Kept blocks minY count sections' sources' ∧
      (changed = true ↔ sources'.get (index change.x change.z) ≠
        sources.get (index change.x change.z)) ∧
      ∀ x z, Tracked blocks sections sources x z → Tracked blocks sections' sources' x z := by
  obtain ⟨hcounted, rfl, rfl⟩ := hkept
  obtain ⟨sections', hwrite, hlength, hcounted', hcell⟩ := write_spec hcounted hvalid
  obtain ⟨cx, y, cz, state⟩ := change
  obtain ⟨hmin, hmax, -⟩ := hvalid
  dsimp only at hmin hmax hcell ⊢
  obtain ⟨offset, rfl⟩ : ∃ offset : ℕ, y = sources.minY + 1 + offset :=
    ⟨(y - (sources.minY + 1)).toNat, by omega⟩
  rw [add_sub_cancel_left, Int.toNat_natCast] at hcell
  have hfits : Fits sources sections' := by
    constructor
    · omega
    · rwa [hlength]
  obtain ⟨value, hset⟩ : ∃ value, (update blocks sources cx cz
      (stateAt blocks (sources.minY + 1) sections') (sources.minY + 1 + offset)).2 =
        sources.set (index cx cz) value := update_set _ _
  refine ⟨(update blocks sources cx cz (stateAt blocks (sources.minY + 1) sections')
      (sources.minY + 1 + offset)).1, sections', (update blocks sources cx cz
      (stateAt blocks (sources.minY + 1) sections') (sources.minY + 1 + offset)).2, ?_,
    ⟨hcounted', hlength, by rw [hset]; rfl⟩, ?_, ?_⟩
  · rw [run]
    dsimp only
    rw [hwrite]
    rfl
  · rw [update_changed _ (by omega), hset, get_set_self]
    refine not_congr ⟨fun heq => ?_, fun heq => by rw [heq, set_get]⟩
    have hself : (sources.set (index cx cz) value).get (index cx cz) = value := get_set_self _ _
    rw [← hself, heq]
  · rintro x z ⟨h, hget, hs⟩
    by_cases hcolumn : x = cx ∧ z = cz
    · obtain ⟨rfl, rfl⟩ := hcolumn
      rw [← hlength] at hs
      have hoffset : offset < 16 * sections'.length := by omega
      obtain ⟨h', hset', hs'⟩ := update_spec hfits hoffset hget hs
        fun i hne hne' => occludedEdge_congr fun j hj => by rw [hcell, if_neg (by omega)]
      rw [hset']
      exact ⟨h', get_set_self _ _, hs'⟩
    · rw [hset]
      refine ⟨h, ?_, ?_⟩
      · rw [get_set_of_ne (mt index_inj.1 hcolumn), hget]
        rfl
      · rw [hlength]
        refine hs.congr fun i _ => occludedEdge_congr fun j _ => ?_
        rw [hcell, if_neg fun h => hcolumn ⟨h.1, h.2.1⟩]

theorem runChanges_spec {minY : ℤ} {count : ℕ} (hlow : -2 ^ 31 ≤ minY - 1)
    (hhigh : minY + (16 * count : ℕ) < 2 ^ 31) (changes : List BlockChange) :
    ∀ {sections : List ChunkSection} {sources : ChunkSkyLightSources},
      (∀ change ∈ changes, change.Valid blocks minY count) →
      Kept blocks minY count sections sources →
      ∃ sections' sources', runChanges blocks changes sections sources =
          some (sections', sources') ∧
        Kept blocks minY count sections' sources' ∧
        ∀ x z, Tracked blocks sections sources x z → Tracked blocks sections' sources' x z := by
  induction changes with
  | nil => exact fun _ hkept => ⟨_, _, rfl, hkept, fun _ _ htracked => htracked⟩
  | cons change changes ih =>
    intro sections sources hvalid hkept
    obtain ⟨_, sections₁, sources₁, hrun, hkept₁, -, htracked₁⟩ :=
      BlockChange.run_spec hlow hhigh hkept (hvalid change mem_cons_self)
    obtain ⟨sections₂, sources₂, hruns, hkept₂, htracked₂⟩ :=
      ih (fun c hc => hvalid c (mem_cons_of_mem _ hc)) hkept₁
    refine ⟨sections₂, sources₂, ?_, hkept₂, fun x z h => htracked₂ x z (htracked₁ x z h)⟩
    rw [runChanges, hrun, bind_eq_bind, bind_some]
    exact hruns

theorem recalculateCounts_counted (sections : List ChunkSection)
    (hcells : ∀ s ∈ sections, ∃ cube, s.states.Represents cube ∧
      Registered blocks.countsForState cube) :
    ∃ sections', sections.mapM (ChunkSection.recalculateCounts blocks.countsForState) =
        some sections' ∧ sections'.length = sections.length ∧ Counted blocks sections' := by
  induction sections with
  | nil => exact ⟨[], rfl, rfl, by simp [Counted]⟩
  | cons s sections ih =>
    obtain ⟨cube, hrep, hreg⟩ := hcells s mem_cons_self
    obtain ⟨s', hs', hbuilding, hcounted⟩ := ChunkSection.Counted.recalculateCounts hrep hreg
    obtain ⟨sections', hsections', hlength, hrest⟩ :=
      ih fun t ht => hcells t (mem_cons_of_mem _ ht)
    refine ⟨s' :: sections', ?_, congrArg Nat.succ hlength, ?_⟩
    · rw [mapM_cons, hs', hsections']
      rfl
    · intro t ht
      rcases mem_cons.1 ht with rfl | ht
      · exact ⟨hbuilding, cube, hcounted⟩
      · exact hrest t ht

theorem new_eq_some {minY height : ℤ} (hnew : new minY height = some sources) :
    sources.minY = minY - 1 ∧ -2 ^ 31 ≤ minY - 1 ∧ minY + height < 2 ^ 31 := by
  rw [new, ite_none_left_eq_some, not_or, not_or] at hnew
  obtain ⟨⟨-, hlow, hhigh⟩, hsources⟩ := hnew
  rw [checkedI32, ← ne_eq, ite_ne_right_iff] at hlow hhigh
  cases hsources
  exact ⟨rfl, hlow.1.1, hhigh.1.2⟩

def slabBlocks : SkyBlocks where
  air := 0
  lightEmission _ := 0
  lightDampening _ := 0
  canOcclude state := state != 0
  useShapeForLightOcclusion state := state != 0
  occlusionShape _ := ⟨[⟨false, fun face =>
    match face with
    | .down => Finset.univ
    | .up => ∅
    | _ => Finset.univ.filter fun cell => cell.2 < 8, nofun⟩], false, nofun⟩
  lightDampening_le _ := Nat.zero_le _
  canOcclude_air := rfl
  countsForState state := some ⟨state == 0, false, false, false⟩
  isAir_air := ⟨_, rfl, rfl⟩
  lightDampening_of_isAir _ _ _ _ := rfl
  canOcclude_of_isAir state counts hcounts hair := by
    cases hcounts
    simpa using hair

def airSection : ChunkSection := ⟨.homogeneous 0, .homogeneous 0, 0, 0, 0, 0⟩

/-- While single blocks change, the cached edge of a column is the one that filling gives exactly
as long as filling does not miss it, and an update tells whether it has changed the edge. -/
theorem update_eq_fill_iff_shows {minY : ℤ} (hnew : new minY (16 * sections.length : ℕ) =
      some sources) (haligned : (16 : ℤ) ∣ minY)
    (hcells : ∀ s ∈ sections, ∃ cube, s.states.Represents cube ∧
      Registered blocks.countsForState cube)
    (changes : List BlockChange)
    (hvalid : ∀ change ∈ changes, change.Valid blocks minY sections.length) :
    ∃ sections₀ sources₀ sections' sources',
      initializeLightSources blocks sections sources = some (sections₀, sources₀) ∧
      runChanges blocks changes sections₀ sources₀ = some (sections', sources') ∧
      (∀ x z, Shows blocks sections₀ x z → (sources'.get (index x z) =
          (fillFromSections blocks sources' sections').get (index x z) ↔
            Shows blocks sections' x z)) ∧
      ∀ change : BlockChange, change.Valid blocks minY sections.length →
        ∃ changed sections'' sources'',
          change.run blocks sections' sources' = some (changed, sections'', sources'') ∧
          (changed = true ↔ sources''.get (index change.x change.z) ≠
            sources'.get (index change.x change.z)) := by
  obtain ⟨hminY, hlow, hhigh⟩ := new_eq_some hnew
  obtain ⟨sections₀, hrecalculate, hlength, hcounted⟩ := recalculateCounts_counted sections hcells
  have hbase {sources : ChunkSkyLightSources} (hsources : sources.minY + 1 = minY) (i : ℕ) :
      sectionToBlockCoord (sources.sectionYFromIndex i) = sources.minY + (16 * i + 1 : ℕ) := by
    rw [sectionToBlockCoord, sectionYFromIndex, hsources]
    omega
  have hkept : Kept blocks minY sections.length sections₀
      (fillFromSections blocks sources sections₀) := by
    constructor
    · exact hcounted
    · exact hlength
    · rw [fillFromSections_minY, hminY, sub_add_cancel]
  obtain ⟨sections', sources', hrun, hkept', htracked⟩ :=
    runChanges_spec hlow hhigh changes hvalid hkept
  refine ⟨sections₀, _, sections', sources', ?_, hrun, fun x z hshows => ?_,
    fun change hchange => ?_⟩
  · rw [initializeLightSources, hrecalculate]
    rfl
  · have hfilled : Tracked blocks sections₀ (fillFromSections blocks sources sections₀) x z :=
      hshows.tracked hcounted (hbase (by rw [hminY, sub_add_cancel]))
    exact (htracked x z hfilled).eq_fill_iff hkept'.counted (hbase hkept'.minY)
  · obtain ⟨changed, sections'', sources'', hchanged, -, hiff, -⟩ :=
      BlockChange.run_spec hlow hhigh hkept' hchange
    exact ⟨changed, sections'', sources'', hchanged, hiff⟩

/-- A slab changes the edge below it. -/
theorem update_eq_fill_iff_shows_slab : ∃ sections₀ sources₀ sections' sources',
      initializeLightSources slabBlocks [airSection] ⟨-1, fun _ => -1⟩ =
        some (sections₀, sources₀) ∧
      runChanges slabBlocks [⟨0, 5, 0, 1⟩] sections₀ sources₀ = some (sections', sources') ∧
      (∀ x z, Shows slabBlocks sections₀ x z → (sources'.get (index x z) =
          (fillFromSections slabBlocks sources' sections').get (index x z) ↔
            Shows slabBlocks sections' x z)) ∧
      ∀ change : BlockChange, change.Valid slabBlocks 0 1 → ∃ changed sections'' sources'',
          change.run slabBlocks sections' sources' = some (changed, sections'', sources'') ∧
          (changed = true ↔ sources''.get (index change.x change.z) ≠
            sources'.get (index change.x change.z)) := by
  refine @update_eq_fill_iff_shows slabBlocks ⟨-1, fun _ => -1⟩ [airSection] 0 rfl (dvd_zero _) ?_
    _ ?_
  · intro s hs
    rw [mem_singleton] at hs
    subst hs
    exact ⟨.const 0, rfl, fun _ _ => rfl⟩
  · intro change hchange
    rw [mem_singleton] at hchange
    subst hchange
    exact ⟨by decide, by decide, rfl⟩

/-- A slab at the bottom of the world is found by an update, and missed when the sources are
filled. -/
theorem updates_ne_fill : new 0 16 = some ⟨-1, fun _ => -1⟩ ∧
    ((initializeLightSources slabBlocks [airSection] ⟨-1, fun _ => -1⟩).bind
      fun (sections, sources) => (runChanges slabBlocks [⟨0, 0, 0, 1⟩] sections sources).map
        fun (sections, sources) => (sources.get (index 0 0),
          (fillFromSections slabBlocks sources sections).get (index 0 0))) = some (0, -1) :=
  ⟨rfl, by decide +kernel⟩

end ChunkSkyLightSources

end Steel
