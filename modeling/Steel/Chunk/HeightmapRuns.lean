import Steel.Chunk.HeightmapPriming
import Steel.Chunk.PaletteInvariant

/-! # Heightmaps over runs

While blocks of a chunk change and its heightmap is updated after each change, the map stays what
priming it on the current sections gives: the surface of every column.
-/

namespace Steel

open Heightmap (getIndex)

open ChunkHeightmaps List BitVec BitPack PalettedContainer Function Nat
open UInt16 (toNat_ofNat')

/-- The block at a position of the chunk. Other positions are not asked for. -/
def blockAt (minY : ℤ) (sections : List BlockPalette) (localX : Fin 16) (y : ℤ) (localZ : Fin 16) :
    BlockStateId :=
  let offset := (y - minY).toNat
  match sections[offset / 16]? with
  | some states => states.get localX ⟨offset % 16, mod_lt _ (by decide)⟩ localZ
  | none => 0

structure BlockChange where
  localX : Fin 16
  y : ℤ
  localZ : Fin 16
  state : BlockStateId

namespace BlockChange

def InRange (change : BlockChange) (minY : ℤ) (count : ℕ) : Prop :=
  minY ≤ change.y ∧ change.y < minY + (16 * count : ℕ)

def write (change : BlockChange) (minY : ℤ) (sections : List BlockPalette) : List BlockPalette :=
  let offset := (change.y - minY).toNat
  sections.modify (offset / 16) fun states =>
    (states.set change.localX ⟨offset % 16, mod_lt _ (by decide)⟩ change.localZ
      change.state).2

end BlockChange

def Heightmap.change (facts : HeightmapFacts) (map : Heightmap) (sections : List BlockPalette)
    (change : BlockChange) : Bool × Heightmap :=
  map.update facts change.localX change.y change.localZ change.state
    (blockAt map.minY (change.write map.minY sections))

def heightmapRun (facts : HeightmapFacts) :
    List BlockChange → List BlockPalette × Heightmap → List BlockPalette × Heightmap
  | [], state => state
  | change :: changes, (sections, map) =>
    heightmapRun facts changes
      (change.write map.minY sections, (map.change facts sections change).2)

def WellFormed (sections : List BlockPalette) : Prop :=
  ∀ states ∈ sections, ∃ cube, PalettedContainer.Represents states cube

theorem index_eq (localX localY localZ : Fin 16) (h : (localY : ℕ) * 16 * 16 +
    getIndex localX localZ < 16 * 16 * 16) :
    (⟨localY * 16 * 16 + getIndex localX localZ, h⟩ : Fin (16 * 16 * 16)) =
      Cube.index localX localY localZ := by
  ext
  simp only [getIndex, Cube.index]
  omega

theorem layerState_getIndex (states : BlockPalette) (localX localY localZ : Fin 16) :
    layerState states localY (getIndex localX localZ) =
      states.get localX localY localZ := by
  unfold layerState
  rw [index_eq]
  cases states with
  | homogeneous state => rfl
  | heterogeneous data => exact Cube.atIndex_index ..
  | building cube => exact Cube.atIndex_index ..

theorem exists_getIndex (c : Fin 256) :
    ∃ localX localZ : Fin 16, getIndex localX localZ = c :=
  ⟨⟨c % 16, by omega⟩, ⟨c / 16, by omega⟩, getIndex_divMod c _ _⟩

theorem getIndex_inj {x x' z z' : Fin 16} :
    getIndex x z = getIndex x' z' ↔ x = x' ∧ z = z' := by
  simp only [getIndex, Fin.ext_iff]
  omega

theorem blockAt_eq (minY : ℤ) (sections : List BlockPalette) (x z : Fin 16) (offset : ℕ) :
    blockAt minY sections x (minY + offset) z =
      columnState sections (getIndex x z) offset := by
  have hoffset : (minY + offset - minY).toNat = offset := by omega
  simp only [blockAt, columnState, hoffset]
  cases sections[offset / 16]? with
  | none => rfl
  | some states => exact (layerState_getIndex states x _ z).symm

section Write

variable {minY : ℤ} {sections : List BlockPalette} {change : BlockChange}

@[simp] theorem length_write : (change.write minY sections).length = sections.length :=
  length_modify _ _ _

theorem WellFormed.write (h : WellFormed sections) : WellFormed (change.write minY sections) := by
  intro states hmem
  obtain ⟨i, hi⟩ := mem_iff_getElem?.1 hmem
  rw [BlockChange.write, List.getElem?_modify] at hi
  obtain ⟨before, hget, rfl⟩ := Option.map_eq_some_iff.1 hi
  obtain ⟨cube, hcube⟩ := h before (mem_of_getElem? hget)
  split_ifs
  · exact ⟨_, (represents_set (by decide) hcube _ _ _ _).2⟩
  · exact ⟨cube, hcube⟩

theorem get_set {states : BlockPalette} {cube : Cube BlockStateId 16}
    (h : PalettedContainer.Represents states cube) (x y z x' y' z' : Fin 16)
    (state : BlockStateId) :
    (states.set x y z state).2.get x' y' z' =
      if y' = y ∧ z' = z ∧ x' = x then state else states.get x' y' z' := by
  rw [get_eq (represents_set (by decide) h x y z state).2,
    get_eq h]
  rfl

theorem columnState_write (hwell : WellFormed sections) {offset : ℕ}
    (hy : change.y = minY + offset) (hoffset : offset < 16 * sections.length) (c : Fin 256)
    (i : ℕ) :
    columnState (change.write minY sections) c i =
      if c = getIndex change.localX change.localZ ∧ i = offset then change.state
      else columnState sections c i := by
  obtain ⟨x, z, rfl⟩ := exists_getIndex c
  obtain ⟨states, hget⟩ : ∃ states, sections[offset / 16]? = some states :=
    ⟨_, List.getElem?_eq_getElem (by omega)⟩
  obtain ⟨cube, hcube⟩ := hwell states (mem_of_getElem? hget)
  have hchange : (change.y - minY).toNat = offset := by omega
  simp only [columnState, BlockChange.write, hchange, List.getElem?_modify, getIndex_inj]
  by_cases hi : offset / 16 = i / 16
  · simp only [← hi, hget, if_true, Option.map_eq_map, Option.map_some, layerState_getIndex]
    rw [get_set hcube]
    refine if_congr ?_ rfl rfl
    simp only [Fin.ext_iff]
    omega
  · rw [if_neg (by omega)]
    simp [hi]

end Write

namespace Heightmap

variable {facts : HeightmapFacts} {map : Heightmap} {sections : List BlockPalette}

/-- The map of a chunk has the surface of every column. -/
structure Correct (facts : HeightmapFacts) (sections : List BlockPalette) (map : Heightmap) :
    Prop where
  height : map.height = (16 * sections.length : ℕ)
  surface : ∀ c, IsSurface (marked facts sections map.mapType c) (16 * sections.length)
    (map.data c).toNat

theorem scanDown_eq (blockAt : ℤ → BlockStateId) (offset : ℕ) : scanDown facts map blockAt offset =
      map.minY + surface (fun i => facts.isOpaque map.mapType (blockAt (map.minY + i))) offset := by
  induction offset with
  | zero => simp [scanDown, surface]
  | succ offset ih =>
    rw [scanDown, surface]
    split_ifs
    · push_cast
      ring
    · exact ih

theorem Correct.setHeight {sections' : List BlockPalette} {x z : Fin 16} {h : ℕ}
    (hcorrect : Correct facts sections map) (hlength : sections'.length = sections.length)
    (hlen : 16 * sections.length ≤ 65535)
    (hother : ∀ c i, c ≠ getIndex x z →
      marked facts sections map.mapType c i = marked facts sections' map.mapType c i)
    (hself : IsSurface (marked facts sections' map.mapType (getIndex x z))
      (16 * sections'.length) h) :
    Correct facts sections' (map.setHeight x z (map.minY + h)) where
  height := hcorrect.height.trans (by rw [hlength])
  surface c := by
    rw [setHeight_offset]
    dsimp only
    by_cases hc : c = getIndex x z
    · subst hc
      have hle := hself.le
      rw [update_self, toNat_ofNat', mod_eq_of_lt (by omega)]
      exact hself
    · rw [update_of_ne hc, hlength]
      exact (hcorrect.surface c).congr fun i _ => hother c i hc

theorem setHeight_ne {x z : Fin 16} {h : ℕ} (hle : h ≤ 65535)
    (hne : h ≠ (map.data (getIndex x z)).toNat) : map.setHeight x z (map.minY + h) ≠ map := by
  rw [setHeight_offset]
  intro heq
  have hdata := congrFun (congrArg Heightmap.data heq) (getIndex x z)
  dsimp only at hdata
  rw [update_self] at hdata
  have hnat := congrArg UInt16.toNat hdata
  rw [toNat_ofNat', mod_eq_of_lt (by omega)] at hnat
  exact hne hnat

/-- An update after a change of one block keeps the map correct, and tells whether it has stored
another height. -/
theorem Correct.change (hcorrect : Correct facts sections map) (hwell : WellFormed sections)
    (hlen : 16 * sections.length ≤ 65535) {change : BlockChange}
    (hrange : change.InRange map.minY sections.length) :
    Correct facts (change.write map.minY sections) (map.change facts sections change).2 ∧
      ((map.change facts sections change).1 = true ↔
        (map.change facts sections change).2 ≠ map) := by
  obtain ⟨x, y, z, state⟩ := change
  obtain ⟨hmin, hmax⟩ := hrange
  dsimp only at hmin hmax
  obtain ⟨offset, rfl⟩ : ∃ offset : ℕ, y = map.minY + offset := ⟨(y - map.minY).toNat, by omega⟩
  have hoffset : offset < 16 * sections.length := by omega
  have hwrite (c : Fin 256) (i : ℕ) :
      columnState (BlockChange.write ⟨x, map.minY + offset, z, state⟩ map.minY sections) c i =
        if c = getIndex x z ∧ i = offset then state else columnState sections c i :=
    columnState_write hwell rfl hoffset c i
  rw [Heightmap.change]
  generalize hsections : BlockChange.write _ map.minY sections = sections' at hwrite ⊢
  have hlength : sections'.length = sections.length := by rw [← hsections, length_write]
  have hother (c : Fin 256) (i : ℕ) (hne : ¬ (c = getIndex x z ∧ i = offset)) :
      marked facts sections map.mapType c i = marked facts sections' map.mapType c i := by
    rw [marked, marked, hwrite, if_neg hne]
  have hnew : marked facts sections' map.mapType (getIndex x z) offset =
      facts.isOpaque map.mapType state := by
    rw [marked, hwrite, if_pos ⟨rfl, rfl⟩]
  have heq (i : ℕ) (hne : i ≠ offset) := hother (getIndex x z) i fun hboth => hne hboth.2
  have hs := hcorrect.surface (getIndex x z)
  have hkeep (hs' : IsSurface (marked facts sections' map.mapType (getIndex x z))
      (16 * sections.length) (map.data (getIndex x z)).toNat) :
      Correct facts sections' map ∧ (false = true ↔ map ≠ map) := by
    refine ⟨⟨hcorrect.height.trans (by rw [hlength]), fun c => ?_⟩, by simp⟩
    by_cases hc : c = getIndex x z
    · rw [hc, hlength]
      exact hs'
    · rw [hlength]
      exact (hcorrect.surface c).congr fun i _ => hother c i fun hboth => hc hboth.1
  have hstore {h : ℕ} (hs' : IsSurface (marked facts sections' map.mapType (getIndex x z))
      (16 * sections.length) h) (hne : h ≠ (map.data (getIndex x z)).toNat) :
      Correct facts sections' (map.setHeight x z (map.minY + h)) ∧
        (true = true ↔ map.setHeight x z (map.minY + h) ≠ map) := by
    refine ⟨hcorrect.setHeight hlength hlen ?_ (by rwa [hlength]), ?_⟩
    · exact fun c i hc => hother c i fun hboth => hc hboth.1
    · have hle := hs'.le
      exact iff_of_true rfl (setHeight_ne (by omega) hne)
  generalize hh : (map.data (getIndex x z)).toNat = h at hs hkeep hstore
  unfold update
  rw [getFirstAvailable, hh]
  by_cases hlow : map.minY + (offset : ℤ) ≤ h + map.minY - 2
  · rw [if_pos hlow]
    exact hkeep (hs.of_lt heq (by omega) (by omega))
  · rw [if_neg hlow]
    by_cases hopaque : facts.isOpaque map.mapType state = true
    · rw [if_pos hopaque]
      by_cases habove : map.minY + (offset : ℤ) ≥ h + map.minY
      · rw [if_pos habove, add_assoc]
        have hs' := hs.of_marked heq (by omega) hoffset (hnew.trans hopaque)
        have hne : offset + 1 ≠ h := by omega
        exact hstore hs' hne
      · rw [if_neg habove]
        exact hkeep (hs.of_lt heq (by omega) fun _ => hnew.trans hopaque)
    · rw [if_neg hopaque]
      have hclear := hnew.trans (Bool.eq_false_of_not_eq_true hopaque)
      by_cases htop : (h : ℤ) + map.minY - 1 = map.minY + offset
      · obtain rfl : h = offset + 1 := by omega
        rw [if_pos htop, add_sub_cancel_left, Int.toNat_natCast, scanDown_eq]
        have hscan : (fun i : ℕ => facts.isOpaque map.mapType
            (blockAt map.minY sections' x (map.minY + i) z)) =
            marked facts sections' map.mapType (getIndex x z) := by
          funext i
          rw [blockAt_eq, marked]
        rw [hscan]
        have hbelow := (isSurface_surface (marked facts sections' map.mapType (getIndex x z))
          offset).le
        exact hstore (hs.of_unmarked_top heq hclear) (by omega)
      · rw [if_neg htop]
        exact hkeep (hs.of_unmarked_above heq (by omega) hclear)

theorem change_minY_mapType (change : BlockChange) :
    (map.change facts sections change).2.minY = map.minY ∧
      (map.change facts sections change).2.mapType = map.mapType := by
  rw [Heightmap.change]
  unfold update
  dsimp only
  split_ifs <;> exact ⟨rfl, rfl⟩

theorem Correct.run (hlen : 16 * sections.length ≤ 65535) (changes : List BlockChange) :
    ∀ {sections' : List BlockPalette} {map : Heightmap}, sections'.length = sections.length →
      (∀ change ∈ changes, change.InRange map.minY sections.length) → WellFormed sections' →
      Correct facts sections' map →
      Correct facts (heightmapRun facts changes (sections', map)).1
          (heightmapRun facts changes (sections', map)).2 ∧
        WellFormed (heightmapRun facts changes (sections', map)).1 ∧
        (heightmapRun facts changes (sections', map)).1.length = sections.length ∧
        (heightmapRun facts changes (sections', map)).2.minY = map.minY ∧
        (heightmapRun facts changes (sections', map)).2.mapType = map.mapType := by
  induction changes with
  | nil =>
    intro sections' map hlength _ hwell hcorrect
    exact ⟨hcorrect, hwell, hlength, rfl, rfl⟩
  | cons change changes ih =>
    intro sections' map hlength hrange hwell hcorrect
    obtain ⟨hchange, hchanges⟩ := forall_mem_cons.1 hrange
    obtain ⟨hminY, htype⟩ := change_minY_mapType change
    obtain ⟨hcorrect', -⟩ := hcorrect.change hwell (by rwa [hlength]) (by rwa [hlength])
    have hrun := ih (length_write.trans hlength) (by rwa [hminY]) hwell.write hcorrect'
    rwa [hminY, htype] at hrun

theorem Correct.eq_of_minY {map' : Heightmap} (h : Correct facts sections map)
    (h' : Correct facts sections map') (hminY : map.minY = map'.minY)
    (htype : map.mapType = map'.mapType) : map = map' := by
  have hdata : map.data = map'.data := by
    funext c
    have hs := h.surface c
    rw [htype] at hs
    exact UInt16.toNat.inj (hs.unique (h'.surface c))
  obtain ⟨data', mapType', minY', height'⟩ := map'
  cases hdata
  cases hminY
  cases htype
  cases h.height.trans h'.height.symm
  rfl

theorem calculateBitsPerValue_spec {n : ℕ} (hn : n ≤ 65535) :
    0 < calculateBitsPerValue n ∧ calculateBitsPerValue n ≤ 16 ∧
      n < 2 ^ calculateBitsPerValue n := by
  have hcast : BitVec.ofInt 32 n = BitVec.ofNat 32 n := ofInt_natCast 32 n
  have htoNat : (BitVec.ofNat 32 n).toNat = n := by
    rw [toNat_ofNat, mod_eq_of_lt (by omega)]
  have hmax : (BitVec.ofNat 32 n + 1).toNat = n + 1 := by
    have hone : (1 : BitVec 32).toNat = 1 := rfl
    rw [toNat_add, htoNat, hone]
    exact mod_eq_of_lt (by omega)
  unfold calculateBitsPerValue
  rw [hcast]
  dsimp only
  split_ifs with hle
  · have hzero : n + 1 ≤ 1 := hmax ▸ le_def.1 hle
    omega
  · have hne : BitVec.ofNat 32 n ≠ 0 := by
      intro hzero
      rw [hzero] at hle
      exact hle (by decide)
    rw [BitVec.add_sub_cancel]
    have hlow := two_pow_sub_clz_le_toNat_of_ne_zero (by decide) hne
    have hhigh := (BitVec.ofNat 32 n).toNat_lt_two_pow_sub_clz
    have hclz : (BitVec.ofNat 32 n).clz.toNat < 32 := clz_lt_iff_ne_zero.mpr hne
    rw [htoNat] at hlow hhigh
    refine ⟨by omega, ?_, hhigh⟩
    by_contra hbig
    have hpow : 2 ^ 16 ≤ 2 ^ (32 - 1 - (BitVec.ofNat 32 n).clz.toNat) :=
      Nat.pow_le_pow_right (by decide) (by omega)
    omega

theorem and_mask_eq {v bits : ℕ} (hle : bits ≤ 16) (hv : v < 2 ^ bits) :
    BitVec.ofNat 64 v &&& ((1 : BitVec 64) <<< bits - 1) = BitVec.ofNat 64 v := by
  have hpow : 2 ^ bits ≤ 2 ^ 16 := Nat.pow_le_pow_right (by decide) hle
  have hpos : 0 < 2 ^ bits := Nat.two_pow_pos bits
  have hmod : v % 2 ^ 64 = v := Nat.mod_eq_of_lt (by omega)
  have hshift : ((1 : BitVec 64) <<< bits).toNat = 2 ^ bits := by
    have hone : (1 : BitVec 64).toNat = 1 := rfl
    rw [toNat_shiftLeft, hone, one_shiftLeft, mod_eq_of_lt (by omega)]
  have hmask : ((1 : BitVec 64) <<< bits - 1).toNat = 2 ^ bits - 1 := by
    have hone : (1 : BitVec 64) ≤ (1 : BitVec 64) <<< bits := by
      rw [le_def, hshift]
      exact hpos
    rw [toNat_sub_of_le hone, hshift]
    rfl
  apply eq_of_toNat_eq
  rw [toNat_and, hmask, and_two_pow_sub_one_eq_mod, toNat_ofNat, hmod, mod_eq_of_lt hv]

theorem holds_getRawData (hlen : 16 * sections.length ≤ 65535)
    (hcorrect : Correct facts sections map) :
    BitPack.Holds (calculateBitsPerValue map.height) map.getRawData
      ((List.ofFn map.data).map UInt16.toNat) := by
  obtain ⟨hpos, hle, hfit⟩ := calculateBitsPerValue_spec hlen
  unfold getRawData
  rw [hcorrect.height]
  generalize calculateBitsPerValue _ = bits at hpos hle hfit ⊢
  have hvalues : ∀ v ∈ (List.ofFn map.data).map UInt16.toNat, v < 2 ^ bits := by
    intro v hv
    obtain ⟨value, hvalue, rfl⟩ := mem_map.1 hv
    obtain ⟨c, rfl⟩ := mem_ofFn.1 hvalue
    exact lt_of_le_of_lt (hcorrect.surface c).le hfit
  have hperWord : 0 < perWord bits := div_pos (by omega) hpos
  have hholds := holds_scatter (n := 256 ⌈/⌉ perWord bits) hperWord hvalues (by
    rw [length_map, length_ofFn, mul_comm]
    exact le_smul_ceilDiv hperWord)
  rw [scatter, zipIdx_map, foldl_map] at hholds
  have hentries : ∀ entry ∈ (List.ofFn map.data).zipIdx, entry.1.toNat < 2 ^ bits := by
    intro entry hentry
    exact hvalues _ (mem_map_of_mem (fst_mem_of_mem_zipIdx hentry))
  generalize (List.ofFn map.data).zipIdx = entries at hholds hentries ⊢
  have hfold : entries.foldl (fun result entry =>
      result.modify (entry.2 / (64 / bits)) fun word => word |||
        (BitVec.ofNat 64 entry.1.toNat &&& ((1 : BitVec 64) <<< bits - 1)) <<<
          (entry.2 % (64 / bits) * bits)) (List.replicate (256 ⌈/⌉ (64 / bits)) 0) =
      entries.foldl (fun words entry =>
        words.modify ((Prod.map UInt16.toNat id entry).2 / perWord bits)
          (· ||| place bits (Prod.map UInt16.toNat id entry).1
            ((Prod.map UInt16.toNat id entry).2 % perWord bits)))
        (List.replicate (256 ⌈/⌉ perWord bits) 0) := by
    refine foldl_ext _ _ _ fun words entry hentry => ?_
    rw [and_mask_eq hle (hentries entry hentry)]
    rfl
  rw [hfold]
  exact hholds

/-- A map at the start of a run: it has been primed, or it is new and the chunk is all air. -/
inductive Starts (facts : HeightmapFacts) (minY : ℤ) (sections : List BlockPalette) :
    Heightmap → Prop where
  | primed {before after : ChunkHeightmaps} {types : List HeightmapType} {map : Heightmap}
      (hmem : map.mapType ∈ types) (hmissing : before.get map.mapType = none)
      (hprime : primeFromSections facts before types minY (16 * sections.length : ℕ) sections =
        some after)
      (hget : after.get map.mapType = some map) : Starts facts minY sections map
  | air (mapType : HeightmapType)
      (hair : ∀ x z, ∀ offset < 16 * sections.length,
        facts.isAir (blockAt minY sections x (minY + offset) z) = true) :
      Starts facts minY sections (.new mapType minY (16 * sections.length : ℕ))

theorem Starts.correct {minY : ℤ} (hlen : 16 * sections.length ≤ 65535)
    (h : Starts facts minY sections map) : Correct facts sections map ∧ map.minY = minY := by
  cases h with
  | primed hmem hmissing hprime hget =>
    obtain ⟨after', hprime', hprimed, -⟩ :=
      exists_primeFromSections facts _ _ minY (16 * sections.length : ℕ) hlen
    cases hprime.symm.trans hprime'
    obtain ⟨map', hget', -, hminY, hheight, hsurface⟩ := hprimed _ hmem hmissing
    cases hget.symm.trans hget'
    exact ⟨⟨hheight, hsurface⟩, hminY⟩
  | air mapType hair =>
    refine ⟨⟨rfl, fun c => .of_unmarked fun offset hoffset => ?_⟩, rfl⟩
    obtain ⟨x, z, rfl⟩ := exists_getIndex c
    rw [marked, ← blockAt_eq minY]
    exact facts.isOpaque_of_isAir (hair x z offset hoffset) mapType

theorem Correct.primed (hlen : 16 * sections.length ≤ 65535) (hcorrect : Correct facts sections map)
    (before : ChunkHeightmaps) (types : List HeightmapType) (hmem : map.mapType ∈ types)
    (hmissing : before.get map.mapType = none) :
    ∃ after, primeFromSections facts before types map.minY (16 * sections.length : ℕ) sections =
      some after ∧ after.get map.mapType = some map := by
  obtain ⟨after, hprime, hprimed, -⟩ :=
    exists_primeFromSections facts before types map.minY (16 * sections.length : ℕ) hlen
  obtain ⟨map', hget, htype, hminY, hheight, hsurface⟩ := hprimed _ hmem hmissing
  rw [← htype] at hsurface
  have heq := hcorrect.eq_of_minY ⟨hheight, hsurface⟩ hminY.symm htype.symm
  exact ⟨after, hprime, heq ▸ hget⟩

theorem Correct.getFirstAvailable (hcorrect : Correct facts sections map) (x z : Fin 16) :
    ((∀ y, map.minY ≤ y → y < map.minY + (16 * sections.length : ℕ) →
        facts.isOpaque map.mapType (blockAt map.minY sections x y z) = false) →
      map.getFirstAvailable x z = map.minY) ∧
    ∀ y, map.minY ≤ y → y < map.minY + (16 * sections.length : ℕ) →
      facts.isOpaque map.mapType (blockAt map.minY sections x y z) = true →
      (∀ y' > y, y' < map.minY + (16 * sections.length : ℕ) →
        facts.isOpaque map.mapType (blockAt map.minY sections x y' z) = false) →
      map.getFirstAvailable x z = y + 1 := by
  have hs := hcorrect.surface (getIndex x z)
  have hmarked (offset : ℕ) : marked facts sections map.mapType (getIndex x z) offset =
      facts.isOpaque map.mapType (blockAt map.minY sections x (map.minY + offset) z) := by
    rw [blockAt_eq, marked]
  rw [Heightmap.getFirstAvailable]
  constructor
  · intro hall
    have hzero := hs.eq_zero_iff.2 fun offset hoffset => by
      rw [hmarked]
      exact hall _ (by omega) (by omega)
    rw [hzero, cast_zero, zero_add]
  · intro y hmin hmax hopaque habove
    obtain ⟨offset, rfl⟩ : ∃ offset : ℕ, y = map.minY + offset := ⟨(y - map.minY).toNat, by omega⟩
    have hsurface : IsSurface (marked facts sections map.mapType (getIndex x z))
        (16 * sections.length) (offset + 1) := by
      constructor
      · omega
      · intro i hle hlt
        rw [hmarked]
        exact habove _ (by omega) (by omega)
      · rintro i hi
        cases hi
        rwa [hmarked]
    rw [hs.unique hsurface]
    push_cast
    ring

theorem updates_eq_primed (facts : HeightmapFacts) (minY : ℤ) (sections : List BlockPalette)
    (hlen : 16 * sections.length ≤ 65535) (hwell : WellFormed sections) (map : Heightmap)
    (hstart : Starts facts minY sections map) (changes : List BlockChange)
    (hchanges : ∀ change ∈ changes, change.InRange minY sections.length) :
    let final := heightmapRun facts changes (sections, map)
    (∀ x z,
      ((∀ y, minY ≤ y → y < minY + (16 * sections.length : ℕ) →
          facts.isOpaque map.mapType (blockAt minY final.1 x y z) = false) →
        final.2.getFirstAvailable x z = minY) ∧
      ∀ y, minY ≤ y → y < minY + (16 * sections.length : ℕ) →
        facts.isOpaque map.mapType (blockAt minY final.1 x y z) = true →
        (∀ y' > y, y' < minY + (16 * sections.length : ℕ) →
          facts.isOpaque map.mapType (blockAt minY final.1 x y' z) = false) →
        final.2.getFirstAvailable x z = y + 1) ∧
    (∀ before types, map.mapType ∈ types → before.get map.mapType = none →
      ∃ after, primeFromSections facts before types minY (16 * sections.length : ℕ) final.1 =
        some after ∧ after.get map.mapType = some final.2) ∧
    (∀ change : BlockChange, change.InRange minY sections.length →
      ((final.2.change facts final.1 change).1 = true ↔
        (final.2.change facts final.1 change).2 ≠ final.2)) ∧
    ∀ c : Fin 256, entryAt (calculateBitsPerValue (16 * sections.length : ℕ))
      final.2.getRawData c = some (final.2.data c).toNat := by
  intro final
  obtain ⟨hcorrect, rfl⟩ := hstart.correct hlen
  obtain ⟨hfinal, hwellFinal, hlength, hminY, htype⟩ :=
    Correct.run hlen changes rfl hchanges hwell hcorrect
  have hlenFinal : 16 * final.1.length ≤ 65535 := by rwa [hlength]
  refine ⟨fun x z => ?_, ?_, ?_, ?_⟩
  · have hfirst := hfinal.getFirstAvailable x z
    rw [hlength, hminY, htype] at hfirst
    exact hfirst
  · intro before types hmem hmissing
    have hprimed := hfinal.primed hlenFinal before types
    rw [hlength, hminY, htype] at hprimed
    exact hprimed hmem hmissing
  · intro change hrange
    rw [← hminY, ← hlength] at hrange
    exact (hfinal.change hwellFinal hlenFinal hrange).2
  · intro c
    have hholds := holds_getRawData hlenFinal hfinal
    rw [hfinal.height, hlength] at hholds
    refine hholds c _ ?_
    rw [List.getElem?_map, List.getElem?_ofFn]
    simp [final]

/-- Two blocks are placed in an empty column, and the upper one is taken away. -/
theorem updates_eq_primed_threeChanges : let facts : HeightmapFacts :=
      ⟨fun state => state = 0, fun state => state ≠ 0, fun _ => false, fun _ => false⟩
    let changes : List BlockChange := [⟨3, 7, 5, 1⟩, ⟨3, 2, 5, 1⟩, ⟨3, 7, 5, 0⟩]
    let final := heightmapRun facts changes ([.homogeneous 0], .new .oceanFloor 0 16)
    ∃ after, primeFromSections facts .empty [.worldSurface, .oceanFloor] 0 16 final.1 =
      some after ∧ after.get .oceanFloor = some final.2 := by
  intro facts changes final
  have hwell : WellFormed [.homogeneous 0] := by
    intro states hmem
    rw [mem_singleton.1 hmem]
    exact ⟨_, rfl⟩
  have hair : ∀ x z, ∀ offset < 16,
      facts.isAir (blockAt 0 [.homogeneous 0] x (0 + (offset : ℕ)) z) = true := by
    intro x z offset hoffset
    have hsection : (0 + (offset : ℤ) - 0).toNat / 16 = 0 := by omega
    simp only [blockAt, hsection]
    rfl
  refine (updates_eq_primed facts 0 [.homogeneous 0] (by decide) hwell _
    (.air .oceanFloor hair) changes ?_).2.1 .empty _ (by decide) rfl
  simp [changes, BlockChange.InRange]

end Heightmap

end Steel
