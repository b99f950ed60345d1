import Steel.Chunk.Heightmap

/-! # Priming finds the surface of every column

A block counts for a type of map if its opacity mask has the bit of the type.
-/

namespace Steel

open Function List HeightmapType Heightmap Nat

namespace HeightmapType

def bit : HeightmapType → ℕ
  | worldSurface => 0
  | motionBlocking => 1
  | motionBlockingNoLeaves => 2
  | oceanFloor => 3
  | worldSurfaceWg => 4
  | oceanFloorWg => 5

variable (mapType : HeightmapType)

theorem mask_eq : mapType.mask = BitVec.twoPow 8 mapType.bit := by
  cases mapType <;> rfl

theorem bit_lt : mapType.bit < 8 := by
  cases mapType <;> decide

theorem and_mask_ne_zero {mask : BitVec 8} {mapType : HeightmapType} :
    mask &&& mapType.mask ≠ 0 ↔ mask.getLsbD mapType.bit = true := by
  rw [mask_eq, BitVec.and_twoPow]
  cases mapType <;> cases mask.getLsbD _ <;> decide

theorem getLsbD_mask (j : ℕ) : mapType.mask.getLsbD j = true ↔ j = mapType.bit := by
  rw [mask_eq, BitVec.getLsbD_twoPow, Bool.and_eq_true, decide_eq_true_eq, decide_eq_true_eq]
  constructor
  · rintro ⟨-, rfl⟩
    rfl
  · rintro rfl
    exact ⟨mapType.bit_lt, rfl⟩

end HeightmapType

namespace HeightmapFacts

variable (facts : HeightmapFacts)

theorem heightmapOpacityMask_eq (state : BlockStateId) (requestedMask : BitVec 8) :
    facts.heightmapOpacityMask state requestedMask =
      facts.stateOpacityMask state &&& requestedMask := by
  unfold heightmapOpacityMask worldSurfaceOpacityMask stateOpacityMask
  generalize facts.isAir state = isAir
  generalize facts.blocksMotion state = blocksMotion
  generalize facts.hasFluid state = hasFluid
  generalize facts.isLeaves state = isLeaves
  revert requestedMask
  cases isAir <;> cases blocksMotion <;> cases hasFluid <;> cases isLeaves <;> decide +kernel

theorem isOpaque_eq (mapType : HeightmapType) (state : BlockStateId) :
    facts.isOpaque mapType state = (facts.stateOpacityMask state).getLsbD mapType.bit := by
  rw [isOpaque, heightmapOpacityMask_eq, Bool.eq_iff_iff, decide_eq_true_eq,
    and_mask_ne_zero]

theorem isOpaque_of_isAir {state : BlockStateId} (h : facts.isAir state = true)
    (mapType : HeightmapType) : facts.isOpaque mapType state = false := by
  rw [isOpaque_eq, stateOpacityMask, if_pos h]
  exact BitVec.getLsbD_zero

end HeightmapFacts

namespace ChunkHeightmaps

theorem get_store (maps : ChunkHeightmaps) (map : Heightmap) (mapType mapType' : HeightmapType) :
    (maps.store map mapType).get mapType' =
      if mapType' = mapType then some map else maps.get mapType' := by
  cases mapType <;> cases mapType' <;> rfl

theorem get_getOrInsert (maps : ChunkHeightmaps) (mapType mapType' : HeightmapType)
    (minY height : ℤ) :
    (maps.getOrInsert mapType minY height).get mapType' =
      if mapType' = mapType then some ((maps.get mapType).getD (.new mapType minY height))
      else maps.get mapType' := by
  rw [getOrInsert]
  cases hget : maps.get mapType with
  | some map =>
    split_ifs with heq
    · rw [heq, hget]
      rfl
    · rfl
  | none =>
    dsimp only
    rw [get_store]
    rfl

/-- The block of a column at a height above the bottom of the chunk. -/
def columnState (sections : List BlockPalette) (columnIndex : Fin 256) (offset : ℕ) :
    BlockStateId :=
  match sections[offset / 16]? with
  | some states => layerState states ⟨offset % 16, mod_lt _ (by decide)⟩ columnIndex
  | none => 0

def marked (facts : HeightmapFacts) (sections : List BlockPalette) (mapType : HeightmapType)
    (columnIndex : Fin 256) (offset : ℕ) : Bool :=
  facts.isOpaque mapType (columnState sections columnIndex offset)

section Prime

variable (facts : HeightmapFacts) (types : List HeightmapType) (minY height : ℤ)
  (sections : List BlockPalette) (before : ChunkHeightmaps)

/-- Every column has been looked at down to its height in `seen`. -/
structure PrimedTo (seen : Fin 256 → ℕ) (priming : Priming) : Prop where
  found : ∀ mapType ∈ types, ∃ map, priming.maps.get mapType = some map ∧
    map.mapType = mapType ∧ map.minY = minY ∧ map.height = height ∧
    ∀ c, IsSurface (markedFrom (marked facts sections mapType c) (seen c)) (16 * sections.length)
        (map.data c).toNat ∧
      ((priming.pendingMasks c).getLsbD mapType.bit = true ↔ (map.data c).toNat = 0)
  pending : ∀ c j, (priming.pendingMasks c).getLsbD j = true → ∃ mapType ∈ types, j = mapType.bit
  columns : priming.pendingColumns = (Finset.univ.filter fun c => priming.pendingMasks c ≠ 0).card
  other : ∀ mapType ∉ types, priming.maps.get mapType = before.get mapType

variable {facts types minY height sections before} {seen : Fin 256 → ℕ} {priming : Priming}

theorem getIndex_divMod (c : Fin 256) (hx : (c : ℕ) % 16 < 16) (hz : (c : ℕ) / 16 < 16) :
    getIndex ⟨c % 16, hx⟩ ⟨c / 16, hz⟩ = c := by
  ext
  simp only [getIndex]
  omega

theorem setHeight_offset (map : Heightmap) (x z : Fin 16) (offset : ℕ) :
    map.setHeight x z (map.minY + offset) =
      { map with data := Function.update map.data (getIndex x z) (.ofNat offset) } := by
  have hcast : UInt16.ofInt offset = UInt16.ofNat offset := by
    apply UInt16.toNat.inj
    simp only [UInt16.ofInt, UInt16.toNat_ofNat']
    omega
  rw [setHeight, add_sub_cancel_left, hcast]

theorem setHeight_setHeight (map : Heightmap) (x z : Fin 16) (y : ℤ) :
    (map.setHeight x z y).setHeight x z y = map.setHeight x z y := by
  simp [setHeight]

/-- The heights of all types that have found a block in a column are stored. -/
theorem exists_foldlM_setPrimedHeight (matchedMask : BitVec 8) (x z : Fin 16) (y : ℤ)
    (entries : List HeightmapType) : ∀ maps : ChunkHeightmaps,
      (∀ mapType ∈ entries, (maps.get mapType).isSome) →
      ∃ maps' : ChunkHeightmaps, (entries.map fun mapType => (mapType, mapType.mask)).foldlM
        (fun (maps : ChunkHeightmaps) entry =>
          if matchedMask &&& entry.2 ≠ 0 then maps.setPrimedHeight entry.1 x z y else some maps)
        maps = some maps' ∧
        ∀ mapType, maps'.get mapType =
          if mapType ∈ entries ∧ matchedMask.getLsbD mapType.bit = true then
            (maps.get mapType).map fun map => map.setHeight x z y
          else maps.get mapType := by
  induction entries with
  | nil =>
    intro maps _
    exact ⟨maps, rfl, fun mapType => by simp⟩
  | cons entry entries ih =>
    intro maps hsome
    obtain ⟨hentry, hentries⟩ := forall_mem_cons.1 hsome
    obtain ⟨map, hget⟩ := Option.isSome_iff_exists.1 hentry
    rw [map_cons, foldlM_cons]
    by_cases hmatched : matchedMask.getLsbD entry.bit = true
    · have hset : maps.setPrimedHeight entry x z y =
          some (maps.store (map.setHeight x z y) entry) := by
        rw [setPrimedHeight, hget, Option.map_some]
      rw [if_pos (and_mask_ne_zero.2 hmatched), hset]
      obtain ⟨maps', hfold, hget'⟩ := ih (maps.store (map.setHeight x z y) entry) (by
        intro mapType hmem
        rw [get_store]
        split_ifs
        · rfl
        · exact hentries mapType hmem)
      refine ⟨maps', hfold, fun mapType => ?_⟩
      rw [hget', get_store]
      by_cases heq : mapType = entry
      · subst heq
        simp [hget, hmatched, setHeight_setHeight]
      · simp [heq]
    · rw [if_neg (mt and_mask_ne_zero.1 hmatched)]
      obtain ⟨maps', hfold, hget'⟩ := ih maps hentries
      refine ⟨maps', hfold, fun mapType => ?_⟩
      rw [hget']
      by_cases heq : mapType = entry
      · subst heq
        simp [hmatched]
      · simp [heq]

variable {c : Fin 256} {k sectionIdx : ℕ} {stateAt : Fin 256 → BlockStateId} {states : BlockPalette}

theorem getLsbD_matchedMask {state : BlockStateId} (hstate : state = columnState sections c k)
    (pendingMask : BitVec 8) (mapType : HeightmapType) :
    (facts.heightmapOpacityMask state pendingMask).getLsbD mapType.bit = true ↔
      marked facts sections mapType c k = true ∧ pendingMask.getLsbD mapType.bit = true := by
  rw [facts.heightmapOpacityMask_eq, BitVec.getLsbD_and, Bool.and_eq_true, ← facts.isOpaque_eq,
    hstate, marked]

theorem PrimedTo.of_unmatched (h : PrimedTo facts types minY height sections before seen priming)
    (hseen : seen c = k + 1) (hk : k < 16 * sections.length)
    (hunmatched : ∀ mapType ∈ types, (priming.pendingMasks c).getLsbD mapType.bit = true →
      marked facts sections mapType c k = false) :
    PrimedTo facts types minY height sections before (Function.update seen c k) priming where
  found mapType hmem := by
    obtain ⟨map, hget, htype, hminY, hheight, hcolumns⟩ := h.found mapType hmem
    refine ⟨map, hget, htype, hminY, hheight, fun c' => ⟨?_, (hcolumns c').2⟩⟩
    obtain ⟨hsurface, hpending⟩ := hcolumns c'
    by_cases hc : c' = c
    · subst hc
      rw [hseen] at hsurface
      rw [update_self]
      have hstep := hsurface.markedFrom_step hk
      rwa [if_neg] at hstep
      rintro ⟨hzero, hmarked⟩
      rw [hunmatched mapType hmem (hpending.2 hzero)] at hmarked
      cases hmarked
    · rwa [update_of_ne hc]
  pending := h.pending
  columns := h.columns
  other := h.other

theorem card_pending_update {pendingMasks : Fin 256 → BitVec 8} {mask : BitVec 8}
    (hne : pendingMasks c ≠ 0) :
    (Finset.univ.filter fun c' => Function.update pendingMasks c mask c' ≠ 0).card =
      if mask = 0 then (Finset.univ.filter fun c' => pendingMasks c' ≠ 0).card - 1
      else (Finset.univ.filter fun c' => pendingMasks c' ≠ 0).card := by
  have hmem : c ∈ Finset.univ.filter fun c' => pendingMasks c' ≠ 0 := by simpa using hne
  split_ifs with hmask
  · rw [← Finset.card_erase_of_mem hmem]
    congr 1
    ext c'
    by_cases hc : c' = c <;> simp [hc, hmask]
  · congr 1
    ext c'
    by_cases hc : c' = c
    · subst hc
      simp only [Finset.mem_filter, Finset.mem_univ, true_and, update_self]
      exact iff_of_true hmask hne
    · simp [hc]

theorem exists_primeColumn (h : PrimedTo facts types minY height sections before seen priming)
    (hlen : 16 * sections.length ≤ 65535) (hseen : seen c = k + 1) (hk : k < 16 * sections.length)
    (hstate : stateAt c = columnState sections c k) :
    ∃ priming', primeColumn facts (types.map fun mapType => (mapType, mapType.mask)) (minY + k)
        stateAt priming c = some priming' ∧
      PrimedTo facts types minY height sections before (Function.update seen c k) priming' := by
  have hmatched (mapType : HeightmapType) :
      (facts.heightmapOpacityMask (stateAt c) (priming.pendingMasks c)).getLsbD mapType.bit = true ↔
        marked facts sections mapType c k = true ∧
          (priming.pendingMasks c).getLsbD mapType.bit = true :=
    getLsbD_matchedMask hstate _ mapType
  unfold primeColumn
  by_cases hpending : priming.pendingMasks c = 0
  · refine ⟨priming, if_pos hpending, h.of_unmatched hseen hk ?_⟩
    intro mapType _ hbit
    simp [hpending] at hbit
  · by_cases hzero : facts.heightmapOpacityMask (stateAt c) (priming.pendingMasks c) = 0
    · refine ⟨priming, by simp only [hpending, hzero, if_true, if_false], ?_⟩
      refine h.of_unmatched hseen hk fun mapType _ hbit => ?_
      rw [← Bool.not_eq_true]
      intro hmarked
      have hbit' := (hmatched mapType).2 ⟨hmarked, hbit⟩
      simp [hzero] at hbit'
    · simp only [hpending, hzero, if_false]
      obtain ⟨maps, hfold, hget⟩ := exists_foldlM_setPrimedHeight
        (facts.heightmapOpacityMask (stateAt c) (priming.pendingMasks c))
        ⟨c % 16, by omega⟩ ⟨c / 16, by omega⟩ (minY + k + 1) types priming.maps (by
          intro mapType hmem
          obtain ⟨map, hmap, -⟩ := h.found mapType hmem
          rw [hmap]
          rfl)
      rw [hfold]
      refine ⟨_, rfl, ?_⟩
      constructor
      · intro mapType hmem
        obtain ⟨map, hmap, htype, hminY, hheight, hcolumns⟩ := h.found mapType hmem
        obtain ⟨hsurface, hbit⟩ := hcolumns c
        rw [hseen] at hsurface
        have hstep := hsurface.markedFrom_step hk
        by_cases hfound : (facts.heightmapOpacityMask (stateAt c)
            (priming.pendingMasks c)).getLsbD mapType.bit = true
        · have hset : maps.get mapType =
              some { map with data := Function.update map.data c (.ofNat (k + 1)) } := by
            rw [hget, if_pos ⟨hmem, hfound⟩, hmap, Option.map_some, ← hminY, add_assoc]
            exact congrArg some ((setHeight_offset map _ _ (k + 1)).trans (by rw [getIndex_divMod]))
          refine ⟨_, hset, htype, hminY, hheight, fun c' => ?_⟩
          by_cases hc : c' = c
          · subst hc
            have hmarked := (hmatched mapType).1 hfound
            rw [if_pos ⟨hbit.1 hmarked.2, hmarked.1⟩] at hstep
            dsimp only
            rw [update_self, update_self, update_self,
              UInt16.toNat_ofNat', mod_eq_of_lt (by omega)]
            refine ⟨hstep, ?_⟩
            simp [hfound]
          · dsimp only
            rw [update_of_ne hc, update_of_ne hc, update_of_ne hc]
            exact hcolumns c'
        · have hkept : maps.get mapType = some map := by
            rw [hget, if_neg fun hboth => hfound hboth.2, hmap]
          refine ⟨map, hkept, htype, hminY, hheight, fun c' => ?_⟩
          by_cases hc : c' = c
          · subst hc
            dsimp only
            rw [update_self, update_self]
            rw [if_neg fun hboth => hfound ((hmatched mapType).2 ⟨hboth.2, hbit.2 hboth.1⟩)]
              at hstep
            refine ⟨hstep, ?_⟩
            rw [← hbit, BitVec.getLsbD_and, BitVec.getLsbD_not, Bool.eq_false_of_not_eq_true hfound]
            simp [mapType.bit_lt]
          · dsimp only
            rw [update_of_ne hc, update_of_ne hc]
            exact hcolumns c'
      · intro c' j hj
        dsimp only at hj
        by_cases hc : c' = c
        · subst hc
          rw [update_self, BitVec.getLsbD_and, Bool.and_eq_true] at hj
          exact h.pending c' j hj.1
        · rw [update_of_ne hc] at hj
          exact h.pending c' j hj
      · rw [card_pending_update hpending, h.columns]
      · intro mapType hmem
        rw [hget, if_neg fun hfound => hmem hfound.1]
        exact h.other mapType hmem

section

variable (hlen : 16 * sections.length ≤ 65535) (hk : k < 16 * sections.length)
  (hstate : ∀ c, stateAt c = columnState sections c k)

include hlen hk hstate

theorem exists_foldlM_primeColumn (l : List (Fin 256)) :
    ∀ {seen : Fin 256 → ℕ} {priming : Priming}, l.Nodup → (∀ c ∈ l, seen c = k + 1) →
      PrimedTo facts types minY height sections before seen priming →
      ∃ priming', l.foldlM (primeColumn facts
          (types.map fun mapType => (mapType, mapType.mask)) (minY + k) stateAt) priming =
          some priming' ∧
        PrimedTo facts types minY height sections before (fun c => if c ∈ l then k else seen c)
          priming' := by
  induction l with
  | nil =>
    intro seen priming _ _ h
    exact ⟨priming, rfl, by simpa using h⟩
  | cons c l ih =>
    intro seen priming hnodup hseen h
    obtain ⟨hc, hl⟩ := nodup_cons.1 hnodup
    obtain ⟨priming', hcolumn, h'⟩ :=
      exists_primeColumn h hlen (hseen c mem_cons_self) hk (hstate c)
    obtain ⟨priming'', hfold, h''⟩ := ih hl (fun c' hmem => by
      rw [update_of_ne (by rintro rfl; exact hc hmem)]
      exact hseen c' (mem_cons_of_mem _ hmem)) h'
    refine ⟨priming'', by rw [foldlM_cons, hcolumn]; exact hfold, ?_⟩
    convert h'' using 2
    rename_i c'
    by_cases heq : c' = c
    · simp [heq, hc]
    · simp [heq]

theorem exists_primeLayer
    (h : PrimedTo facts types minY height sections before (fun _ => k + 1) priming) :
    ∃ priming', primeLayer facts (types.map fun mapType => (mapType, mapType.mask)) (minY + k)
        stateAt priming = some priming' ∧
      PrimedTo facts types minY height sections before (fun _ => k) priming' := by
  obtain ⟨priming', hfold, h'⟩ := exists_foldlM_primeColumn hlen hk hstate (List.finRange 256)
    (nodup_finRange 256) (fun _ _ => rfl) h
  exact ⟨priming', hfold, by simpa using h'⟩

end

theorem PrimedTo.of_pendingColumns
    (h : PrimedTo facts types minY height sections before (fun _ => k) priming)
    (hdone : priming.pendingColumns = 0) :
    PrimedTo facts types minY height sections before (fun _ => 0) priming where
  found mapType hmem := by
    obtain ⟨map, hget, htype, hminY, hheight, hcolumns⟩ := h.found mapType hmem
    refine ⟨map, hget, htype, hminY, hheight, fun c => ⟨?_, (hcolumns c).2⟩⟩
    obtain ⟨hsurface, hpending⟩ := hcolumns c
    refine hsurface.of_markedFrom_pos ?_ (zero_le k)
    rw [pos_iff_ne_zero]
    intro hzero
    have hbit := hpending.2 hzero
    have hmask : priming.pendingMasks c = 0 := by
      have hempty := Finset.card_eq_zero.1 (h.columns.symm.trans hdone)
      by_contra hne
      exact Finset.notMem_empty c (hempty ▸ Finset.mem_filter.2 ⟨Finset.mem_univ c, hne⟩)
    rw [hmask] at hbit
    simp at hbit
  pending := h.pending
  columns := h.columns
  other := h.other

theorem columnState_add (hget : sections[sectionIdx]? = some states) (localY : Fin 16)
    (c : Fin 256) :
    columnState sections c (sectionIdx * 16 + localY) = layerState states localY c := by
  have hdiv : (sectionIdx * 16 + localY) / 16 = sectionIdx := by omega
  have hmod : (sectionIdx * 16 + localY) % 16 = localY := by omega
  simp only [columnState, hdiv, hget, hmod]

theorem exists_primeLayers (hlen : 16 * sections.length ≤ 65535)
    (hget : sections[sectionIdx]? = some states) (layers : List (Fin 16)) :
    ∀ {priming : Priming}, layers.map Fin.val = (List.range layers.length).reverse →
      PrimedTo facts types minY height sections before
        (fun _ => sectionIdx * 16 + layers.length) priming →
      ∃ done priming', primeLayers facts (types.map fun mapType => (mapType, mapType.mask)) minY
          sectionIdx states layers priming = some (done, priming') ∧
        PrimedTo facts types minY height sections before
          (fun _ => if done then 0 else sectionIdx * 16) priming' := by
  induction layers with
  | nil =>
    intro priming _ h
    exact ⟨false, priming, rfl, h⟩
  | cons localY layers ih =>
    intro priming hlayers h
    rw [length_cons, range_succ, reverse_append, map_cons] at hlayers
    obtain ⟨hlocalY, hrest⟩ := List.cons.inj hlayers
    obtain ⟨hidx, -⟩ := List.getElem?_eq_some_iff.1 hget
    have hy : sectionIdx * 16 + layers.length = sectionIdx * 16 + localY := by rw [hlocalY]
    have hstate (c : Fin 256) : layerState states localY c =
        columnState sections c (sectionIdx * 16 + layers.length) := by
      rw [hy, columnState_add hget]
    obtain ⟨priming', hlayer, h'⟩ := exists_primeLayer hlen (by omega) hstate h
    rw [hy] at hlayer
    rw [primeLayers]
    simp only [hlayer, bind, Option.bind]
    by_cases hdone : priming'.pendingColumns = 0
    · rw [if_pos hdone]
      exact ⟨true, priming', rfl, h'.of_pendingColumns hdone⟩
    · rw [if_neg hdone]
      exact ih hrest h'

theorem PrimedTo.of_unmarked {k' : ℕ}
    (h : PrimedTo facts types minY height sections before (fun _ => k) priming) (hk : k' ≤ k)
    (hunmarked : ∀ mapType c i, k' ≤ i → i < k → marked facts sections mapType c i = false) :
    PrimedTo facts types minY height sections before (fun _ => k') priming where
  found mapType hmem := by
    obtain ⟨map, hget, htype, hminY, hheight, hcolumns⟩ := h.found mapType hmem
    refine ⟨map, hget, htype, hminY, hheight, fun c => ⟨?_, (hcolumns c).2⟩⟩
    refine (hcolumns c).1.congr fun i _ => ?_
    rcases lt_or_ge i k with hi | hi
    · rw [markedFrom, decide_eq_false (not_le.2 hi), Bool.false_and, markedFrom]
      rcases lt_or_ge i k' with hi' | hi'
      · rw [decide_eq_false (not_le.2 hi'), Bool.false_and]
      · rw [hunmarked mapType c i hi' hi, Bool.and_false]
    · rw [markedFrom, markedFrom, decide_eq_true hi, decide_eq_true (le_trans hk hi)]
  pending := h.pending
  columns := h.columns
  other := h.other

theorem marked_of_isHomogeneousAir (hget : sections[sectionIdx]? = some states)
    (hair : isHomogeneousAir facts states = true) (mapType : HeightmapType) (c : Fin 256) {i : ℕ}
    (hle : sectionIdx * 16 ≤ i) (hlt : i < sectionIdx * 16 + 16) :
    marked facts sections mapType c i = false := by
  obtain ⟨localY, rfl⟩ := Nat.exists_eq_add_of_le hle
  cases states with
  | homogeneous state =>
    rw [marked, columnState_add hget ⟨localY, by omega⟩ c]
    exact facts.isOpaque_of_isAir hair mapType
  | heterogeneous data => cases hair
  | building cube => cases hair

theorem exists_primeSections (hlen : 16 * sections.length ≤ 65535) (count : ℕ) :
    ∀ {priming : Priming}, count ≤ sections.length →
      PrimedTo facts types minY height sections before (fun _ => count * 16) priming →
      ∃ priming', primeSections facts (types.map fun mapType => (mapType, mapType.mask)) minY
          (sections.take count).reverse priming = some priming' ∧
        PrimedTo facts types minY height sections before (fun _ => 0) priming' := by
  induction count with
  | zero =>
    intro priming _ h
    exact ⟨priming, rfl, by simpa using h⟩
  | succ count ih =>
    intro priming hcount h
    obtain ⟨states, hget⟩ : ∃ states, sections[count]? = some states :=
      ⟨_, List.getElem?_eq_getElem hcount⟩
    have htake : (sections.take (count + 1)).reverse = states :: (sections.take count).reverse := by
      rw [take_add_one, hget, Option.toList_some, reverse_append]
      rfl
    have hlength : (sections.take count).reverse.length = count := by
      rw [length_reverse, length_take, min_eq_left (le_of_succ_le hcount)]
    rw [succ_mul] at h
    rw [htake, primeSections, hlength]
    by_cases hair : isHomogeneousAir facts states = true
    · rw [if_pos hair]
      refine ih (le_of_succ_le hcount) (h.of_unmarked (le_add_right _ _) ?_)
      intro mapType c i hle hlt
      exact marked_of_isHomogeneousAir hget hair mapType c hle hlt
    · rw [if_neg hair]
      obtain ⟨done, priming', hlayers, h'⟩ := exists_primeLayers hlen hget
        (List.finRange 16).reverse (by decide) h
      simp only [hlayers, bind, Option.bind]
      cases done with
      | true => exact ⟨priming', rfl, h'⟩
      | false => exact ih (le_of_succ_le hcount) h'

end Prime

theorem get_foldl_getOrInsert (minY height : ℤ) (entries : List HeightmapType) :
    ∀ (maps : ChunkHeightmaps) (mapType : HeightmapType),
      (∀ t ∈ entries, maps.get t = none ∨ maps.get t = some (.new t minY height)) →
      ((entries.map fun mapType => (mapType, mapType.mask)).foldl
        (fun (maps : ChunkHeightmaps) entry => maps.getOrInsert entry.1 minY height) maps).get
        mapType = if mapType ∈ entries then some (.new mapType minY height)
          else maps.get mapType := by
  induction entries with
  | nil =>
    simp
  | cons entry entries ih =>
    intro maps mapType hnew
    obtain ⟨hentry, hentries⟩ := forall_mem_cons.1 hnew
    have hget (t : HeightmapType) : (maps.getOrInsert entry minY height).get t =
        if t = entry then some (.new t minY height) else maps.get t := by
      rw [get_getOrInsert]
      split_ifs with heq
      · subst heq
        rcases hentry with hentry | hentry <;> rw [hentry] <;> rfl
      · rfl
    rw [map_cons, foldl_cons, ih]
    · rw [hget]
      by_cases hmem : mapType ∈ entries
      · simp [hmem]
      · by_cases heq : mapType = entry <;> simp [heq, hmem]
    · intro t hmem
      rw [hget]
      split_ifs
      · exact .inr rfl
      · exact hentries t hmem

theorem getLsbD_foldl_or (entries : List HeightmapType) (mask : BitVec 8) (j : ℕ) :
    ((entries.map fun mapType => (mapType, mapType.mask)).foldl
      (fun (mask : BitVec 8) entry => mask ||| entry.2) mask).getLsbD j = true ↔
      mask.getLsbD j = true ∨ ∃ mapType ∈ entries, j = mapType.bit := by
  induction entries generalizing mask with
  | nil => simp
  | cons entry entries ih =>
    rw [map_cons, foldl_cons, ih, BitVec.getLsbD_or, Bool.or_eq_true, getLsbD_mask]
    simp [or_assoc]

/-- Missing maps are primed with the surfaces of the columns; the others are kept. -/
theorem exists_primeFromSections (facts : HeightmapFacts) (maps : ChunkHeightmaps)
    (types : List HeightmapType) (minY height : ℤ) {sections : List BlockPalette}
    (hlen : 16 * sections.length ≤ 65535) :
    ∃ maps', primeFromSections facts maps types minY height sections = some maps' ∧
      (∀ mapType ∈ types, maps.get mapType = none → ∃ map, maps'.get mapType = some map ∧
        map.mapType = mapType ∧ map.minY = minY ∧ map.height = height ∧
        ∀ c, IsSurface (marked facts sections mapType c) (16 * sections.length)
          (map.data c).toNat) ∧
      ∀ mapType, mapType ∉ types ∨ (maps.get mapType).isSome →
        maps'.get mapType = maps.get mapType := by
  obtain ⟨toPrime, htoPrime⟩ : ∃ toPrime, toPrime =
      types.filter fun mapType => (maps.get mapType).isNone := ⟨_, rfl⟩
  have hmem (mapType : HeightmapType) :
      mapType ∈ toPrime ↔ mapType ∈ types ∧ maps.get mapType = none := by
    rw [htoPrime, mem_filter, Option.isNone_iff_eq_none]
  unfold primeFromSections
  rw [← htoPrime]
  by_cases hempty : toPrime = []
  · refine ⟨maps, if_pos (by rw [hempty]; rfl), ?_, fun _ _ => rfl⟩
    intro mapType htype hnone
    rw [hempty] at hmem
    cases (hmem mapType).2 ⟨htype, hnone⟩
  · have hcreated := get_foldl_getOrInsert minY height toPrime maps
    have hnone (t : HeightmapType) (ht : t ∈ toPrime) :
        maps.get t = none ∨ maps.get t = some (.new t minY height) := .inl ((hmem t).1 ht).2
    have hbase := getLsbD_foldl_or toPrime 0
    have hstart : PrimedTo facts toPrime minY height sections maps (fun _ => sections.length * 16)
        ⟨(toPrime.map fun mapType => (mapType, mapType.mask)).foldl
          (fun (maps : ChunkHeightmaps) entry => maps.getOrInsert entry.1 minY height) maps,
          fun _ => (toPrime.map fun mapType => (mapType, mapType.mask)).foldl
            (fun (mask : BitVec 8) entry => mask ||| entry.2) 0, 256⟩ := by
      constructor
      · intro mapType ht
        refine ⟨.new mapType minY height, by rw [hcreated mapType hnone, if_pos ht], rfl, rfl, rfl,
          fun c => ⟨?_, ?_⟩⟩
        · rw [mul_comm sections.length]
          exact isSurface_markedFrom_top _ _
        · exact iff_of_true ((hbase _).2 (.inr ⟨mapType, ht, rfl⟩)) rfl
      · intro c j hj
        exact ((hbase j).1 hj).resolve_left (by simp)
      · have hne : (toPrime.map fun mapType => (mapType, mapType.mask)).foldl
            (fun (mask : BitVec 8) entry => mask ||| entry.2) 0 ≠ 0 := by
          obtain ⟨mapType, ht⟩ := exists_mem_of_ne_nil toPrime hempty
          intro hzero
          have hbit := (hbase _).2 (.inr ⟨mapType, ht, rfl⟩)
          rw [hzero] at hbit
          simp at hbit
        rw [Finset.filter_true_of_mem fun _ _ => hne, Finset.card_univ, Fintype.card_fin]
      · intro mapType ht
        rw [hcreated mapType hnone, if_neg ht]
    obtain ⟨priming, hsections, h⟩ :=
      exists_primeSections hlen sections.length (le_refl _) hstart
    rw [take_length] at hsections
    refine ⟨priming.maps, ?_, ?_, ?_⟩
    · rw [if_neg (by simpa using hempty)]
      exact congrArg (Option.map (·.maps)) hsections
    · intro mapType htype hget
      obtain ⟨map, hmap, hmapType, hminY, hheight, hcolumns⟩ :=
        h.found mapType ((hmem mapType).2 ⟨htype, hget⟩)
      refine ⟨map, hmap, hmapType, hminY, hheight, fun c => ?_⟩
      exact isSurface_markedFrom_zero.1 (hcolumns c).1
    · intro mapType hkept
      refine h.other mapType fun ht => ?_
      obtain ⟨htype, hget⟩ := (hmem mapType).1 ht
      rcases hkept with hkept | hkept
      · exact hkept htype
      · rw [hget] at hkept
        cases hkept

end ChunkHeightmaps

end Steel
