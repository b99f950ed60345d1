import Mathlib.Data.List.Count
import Mathlib.Algebra.Order.BigOperators.Group.List
import Steel.Chunk.Section

/-! # The counters of a section are exact

In every run of writes, recounts and generation writes the counters of a
section are the numbers of cells with the counted traits, except while its
palette is being built.
-/

namespace Steel

open List Option PalettedContainer Steel.Cube

namespace Tallies

variable {α : Type} [DecidableEq α] {l : List α} {t : List (α × UInt16)}

theorem sum_map (p : α → Bool) (h : Tallies l t) :
    (t.map fun e => if p e.1 then e.2.toNat else 0).sum = l.countP p := by
  induction t generalizing l with
  | nil =>
    have hnil : l = [] := by
      rw [eq_nil_iff_forall_not_mem]
      intro v hv
      simpa using h.complete v hv
    simp [hnil]
  | cons e t ih =>
    obtain ⟨v, c⟩ := e
    have hc : c.toNat = l.count v := ((h.mem_iff v c).mp mem_cons_self).2
    rw [map_cons, sum_cons, ih h.tail, countP_split p l v, ← hc]

end Tallies

/-- The traits that are counted. -/
inductive Trait where
  | nonEmpty
  | fluid
  | tickingBlock
  | tickingFluid
  deriving DecidableEq

def Trait.of : Trait → BlockStateSectionCounts → Bool
  | .nonEmpty, counts => !counts.isAir
  | .fluid, counts => counts.hasFluid
  | .tickingBlock, counts => counts.randomlyTickingBlock
  | .tickingFluid, counts => counts.randomlyTickingFluid

def SectionCounters.get (c : SectionCounters) : Trait → UInt16
  | .nonEmpty => c.nonEmpty
  | .fluid => c.fluid
  | .tickingBlock => c.tickingBlocks
  | .tickingFluid => c.tickingFluids

def ChunkSection.count (s : ChunkSection) : Trait → UInt16
  | .nonEmpty => s.nonEmptyBlockCount
  | .fluid => s.fluidCount
  | .tickingBlock => s.tickingBlockCount
  | .tickingFluid => s.tickingFluidCount

theorem ChunkSection.ext_count {s s' : ChunkSection} (hstates : s.states = s'.states)
    (hbiomes : s.biomes = s'.biomes) (hcount : ∀ t, s.count t = s'.count t) : s = s' := by
  obtain ⟨_, _, _, _, _, _⟩ := s
  obtain ⟨_, _, _, _, _, _⟩ := s'
  obtain rfl := hstates
  obtain rfl := hbiomes
  obtain rfl := hcount .nonEmpty
  obtain rfl := hcount .fluid
  obtain rfl := hcount .tickingBlock
  obtain rfl := hcount .tickingFluid
  rfl

section Counters

variable (countsForState : BlockStateId → Option BlockStateSectionCounts)

def Trait.has (t : Trait) (state : BlockStateId) : Bool := (countsForState state).any t.of

def Trait.cells (t : Trait) (cube : Cube BlockStateId 16) : ℕ :=
  cube.flat.countP (t.has countsForState)

def Trait.weight (t : Trait) (palette : List (BlockStateId × UInt16)) : ℕ :=
  (palette.map fun e => if t.has countsForState e.1 then e.2.toNat else 0).sum

def Registered (cube : Cube BlockStateId 16) : Prop :=
  ∀ v ∈ cube.flat, (countsForState v).isSome = true

end Counters

variable {countsForState : BlockStateId → Option BlockStateSectionCounts}

theorem Trait.cells_le (t : Trait) (cube : Cube BlockStateId 16) :
    t.cells countsForState cube ≤ 4096 :=
  countP_le_length.trans_eq cube.length_flat

theorem Trait.has_eq {state : BlockStateId} {counts : BlockStateSectionCounts}
    (h : countsForState state = some counts) (t : Trait) :
    t.has countsForState state = t.of counts := by
  rw [Trait.has, h]
  rfl

theorem addCount_spec (flag : Bool) {n count : UInt16} (h : count.toNat + n.toNat < 2 ^ 16) :
    ∃ count', addCount flag n count = some count' ∧
      count'.toNat = count.toNat + if flag then n.toNat else 0 := by
  cases flag with
  | false => exact ⟨count, rfl, rfl⟩
  | true =>
    refine ⟨count + n, if_pos h, ?_⟩
    rw [UInt16.toNat_add, Nat.mod_eq_of_lt h]
    rfl

theorem accumulateCounterTraits_spec {c : SectionCounters} {n : UInt16}
    (counts : BlockStateSectionCounts) (h : ∀ t, (c.get t).toNat + n.toNat < 2 ^ 16) :
    ∃ c', accumulateCounterTraits c counts n = some c' ∧
      ∀ t, (c'.get t).toNat = (c.get t).toNat + if t.of counts then n.toNat else 0 := by
  obtain ⟨a, ha, ha'⟩ := addCount_spec (!counts.isAir) (h .nonEmpty)
  obtain ⟨b, hb, hb'⟩ := addCount_spec counts.hasFluid (h .fluid)
  obtain ⟨k, hk, hk'⟩ := addCount_spec counts.randomlyTickingBlock (h .tickingBlock)
  obtain ⟨f, hf, hf'⟩ := addCount_spec counts.randomlyTickingFluid (h .tickingFluid)
  simp only [SectionCounters.get] at ha hb hk hf
  refine ⟨⟨a, b, k, f⟩, ?_, ?_⟩
  · simp [accumulateCounterTraits, ha, hb, hk, hf]
  · rintro (_ | _ | _ | _)
    · exact ha'
    · exact hb'
    · exact hk'
    · exact hf'

variable {palette : List (BlockStateId × UInt16)}

theorem accumulatePalette_spec
    (hreg : ∀ e ∈ palette, (countsForState e.1).isSome = true) (c : SectionCounters)
    (hlen : ∀ t, (c.get t).toNat + (palette.map fun e => e.2.toNat).sum < 2 ^ 16) :
    ∃ c', accumulatePalette countsForState c palette = some c' ∧
      ∀ t, (c'.get t).toNat = (c.get t).toNat + t.weight countsForState palette := by
  induction palette generalizing c with
  | nil => exact ⟨c, rfl, fun t => rfl⟩
  | cons e palette ih =>
    obtain ⟨state, count⟩ := e
    obtain ⟨counts, hcounts⟩ := isSome_iff_exists.mp (hreg _ mem_cons_self)
    simp only [map_cons, sum_cons] at hlen
    obtain ⟨c₁, hc₁, hget₁⟩ := accumulateCounterTraits_spec (c := c) (n := count) counts
      fun t => by have := hlen t; omega
    have hlen₁ : ∀ t, (c₁.get t).toNat + (palette.map fun e => e.2.toNat).sum < 2 ^ 16 := by
      intro t
      have := hlen t
      rw [hget₁]
      split_ifs <;> omega
    obtain ⟨c₂, hc₂, hget₂⟩ := ih (fun e he => hreg e (mem_cons_of_mem _ he)) c₁ hlen₁
    refine ⟨c₂, ?_, fun t => ?_⟩
    · simp only at hcounts
      simp [accumulatePalette, hcounts, hc₁, hc₂]
    · rw [hget₂, hget₁, Trait.weight, Trait.weight, map_cons, sum_cons,
        t.has_eq hcounts, Nat.add_assoc]

theorem accumulatePalette_take {cube : Cube BlockStateId 16}
    {palette : List (BlockStateId × UInt16)} (ht : Tallies cube.flat palette)
    (hreg : Registered countsForState cube) (n : ℕ) :
    ∃ c, accumulatePalette countsForState ⟨0, 0, 0, 0⟩ (palette.take n) = some c ∧
      ∀ t, (c.get t).toNat = t.weight countsForState (palette.take n) ∧ (c.get t).toNat ≤ 4096 := by
  have hsub : (palette.take n).Sublist palette := take_sublist n palette
  have htotal : (palette.map fun e => e.2.toNat).sum = 4096 := by
    have hsum := ht.sum_map fun _ => true
    rw [countP_true, cube.length_flat] at hsum
    simpa using hsum
  have hsum : ((palette.take n).map fun e => e.2.toNat).sum ≤ 4096 := by
    rw [← htotal]
    exact (hsub.map _).sum_le_sum fun _ _ => Nat.zero_le _
  have hzero : ∀ t, ((⟨0, 0, 0, 0⟩ : SectionCounters).get t).toNat = 0 := by
    rintro (_ | _ | _ | _) <;> rfl
  have hstates : ∀ e ∈ palette.take n, (countsForState e.1).isSome = true := fun e he =>
    hreg _ (ht.mem_fst_iff.mp (List.mem_map_of_mem (hsub.mem he)))
  obtain ⟨c, hc, hget⟩ := accumulatePalette_spec hstates ⟨0, 0, 0, 0⟩ fun t => by rw [hzero]; omega
  refine ⟨c, hc, fun t => ?_⟩
  have hw : t.weight countsForState (palette.take n) ≤
      t.weight countsForState palette := (hsub.map _).sum_le_sum fun _ _ => Nat.zero_le _
  have hcells : t.weight countsForState palette = t.cells countsForState cube := ht.sum_map _
  have hle : t.cells countsForState cube ≤ 4096 := t.cells_le cube
  rw [hget, hzero, Nat.zero_add]
  exact ⟨rfl, by omega⟩

namespace ChunkSection

variable {s : ChunkSection} {cube : Cube BlockStateId 16}

/-- The counters are the numbers of cells with the traits. -/
def Exact (countsForState : BlockStateId → Option BlockStateSectionCounts) (s : ChunkSection)
    (cube : Cube BlockStateId 16) : Prop :=
  ∀ t, (s.count t).toNat = t.cells countsForState cube

theorem isBuilding_eq_false (h : ∀ cells, s.states ≠ .building cells) : s.isBuilding = false := by
  unfold isBuilding
  split
  case h_1 cells hs => exact absurd hs (h cells)
  case h_2 => rfl

theorem ne_building_of_isBuilding (h : s.isBuilding = false) (cells : Cube BlockStateId 16) :
    s.states ≠ .building cells := by
  intro hs
  simp [isBuilding, hs] at h

theorem exact_of_get {c : SectionCounters} (states : BlockPalette) (biomes : BiomePalette)
    (h : ∀ t, (c.get t).toNat = t.cells countsForState cube) :
    Exact countsForState ⟨states, biomes, c.nonEmpty, c.fluid, c.tickingBlocks, c.tickingFluids⟩
      cube := by
  rintro (_ | _ | _ | _)
  · exact h .nonEmpty
  · exact h .fluid
  · exact h .tickingBlock
  · exact h .tickingFluid

theorem accumulatePalette_exact
    (ht : Tallies cube.flat palette) (hreg : Registered countsForState cube) :
    ∃ c, accumulatePalette countsForState ⟨0, 0, 0, 0⟩ palette = some c ∧
      ∀ t, (c.get t).toNat = t.cells countsForState cube := by
  obtain ⟨c, hc, hget⟩ := accumulatePalette_take ht hreg palette.length
  rw [take_length] at hc hget
  exact ⟨c, hc, fun t => (hget t).1.trans (ht.sum_map _)⟩

theorem tallies_const (v : BlockStateId) :
    Tallies (const v : Cube BlockStateId 16).flat [(v, blocksPerSection)] := by
  have hnil : Tallies ([] : List BlockStateId) [] := Tallies.nil
  have hadd := hnil.add (n := blocksPerSection) (by decide) (by decide) v
  have hsize : blocksPerSection.toNat = 16 * 16 * 16 := rfl
  rw [append_nil, hsize] at hadd
  rw [flat_const]
  exact hadd

theorem recalculateCounts_spec (hrep : s.states.Represents cube)
    (hreg : Registered countsForState cube) :
    ∃ s', s.recalculateCounts countsForState = some s' ∧
      s'.states = s.states.finalizeBuilding ∧ s'.biomes = s.biomes ∧
      s'.Exact countsForState cube := by
  have hfinal : s.states.finalizeBuilding.Represents cube :=
    represents_finalizeBuilding (by decide) (by decide) hrep
  cases hstates : s.states.finalizeBuilding with
  | homogeneous v =>
    rw [hstates] at hfinal
    obtain rfl : cube = .const v := hfinal
    obtain ⟨c, hc, hget⟩ := accumulatePalette_exact (tallies_const v) hreg
    refine ⟨⟨.homogeneous v, s.biomes, c.nonEmpty, c.fluid, c.tickingBlocks, c.tickingFluids⟩,
      ?_, rfl, rfl, exact_of_get _ _ hget⟩
    simp [recalculateCounts, hstates, hc]
  | heterogeneous data =>
    rw [hstates] at hfinal
    obtain ⟨rfl, ht, -⟩ := hfinal
    obtain ⟨c, hc, hget⟩ := accumulatePalette_exact ht hreg
    refine ⟨⟨.heterogeneous data, s.biomes, c.nonEmpty, c.fluid, c.tickingBlocks,
      c.tickingFluids⟩, ?_, rfl, rfl, exact_of_get _ _ hget⟩
    simp [recalculateCounts, hstates, hc]
  | building cells => exact absurd hstates (finalizeBuilding_ne_building _ _)

theorem changeCount_spec (old new : Bool) {count : UInt16} {n : ℕ}
    (hle : count.toNat ≤ 4096) (hold : old = true → 0 < count.toNat)
    (hn : n + old.toNat = count.toNat + new.toNat) :
    ∃ count', changeCount old new count = some count' ∧ count'.toNat = n := by
  cases old <;> cases new
  · exact ⟨count, rfl, by simpa using hn.symm⟩
  · have hlt : count.toNat < 65535 := by omega
    refine ⟨count + 1, by simp [changeCount, hlt], ?_⟩
    rw [UInt16.toNat_add, Nat.mod_eq_of_lt (by simp; omega)]
    simpa using hn.symm
  · have hpos := hold rfl
    have hne : count ≠ 0 := by
      rintro rfl
      exact absurd hpos (by decide)
    refine ⟨count - 1, if_neg hne, ?_⟩
    have h1 : (1 : UInt16) ≤ count := UInt16.le_iff_toNat_le.mpr hpos
    rw [UInt16.toNat_sub_of_le _ _ h1]
    simp at hn ⊢
    omega
  · exact ⟨count, rfl, by simpa using hn.symm⟩

theorem cells_set (t : Trait) (x y z : Fin 16) (v : BlockStateId) :
    t.cells countsForState (cube.set x y z v) + (t.has countsForState (cube y z x)).toNat =
      t.cells countsForState cube + (t.has countsForState v).toNat := by
  have hmem : cube y z x ∈ v :: cube.flat :=
    mem_cons_of_mem _ (mem_flat.mpr ⟨x, y, z, rfl⟩)
  have hperm := (perm_cons_erase hmem).countP_eq (t.has countsForState)
  have hbool : ∀ b : Bool, (if b = true then 1 else 0) = b.toNat := by decide
  rw [countP_cons, countP_cons, hbool, hbool] at hperm
  rw [Trait.cells, (flat_set_perm x y z cube v).countP_eq]
  exact hperm.symm

variable {v : BlockStateId}

theorem applyCountChange_spec {x y z : Fin 16}
    {old new : BlockStateSectionCounts} (h : s.Exact countsForState cube)
    (hold : countsForState (cube y z x) = some old) (hnew : countsForState v = some new) :
    ∃ s', s.applyCountChange old new = some s' ∧ s'.states = s.states ∧ s'.biomes = s.biomes ∧
      s'.Exact countsForState (cube.set x y z v) := by
  have hchange : ∀ t : Trait, ∃ count', changeCount (t.of old) (t.of new) (s.count t) =
      some count' ∧ count'.toNat = t.cells countsForState (cube.set x y z v) := by
    intro t
    have hset : _ = t.cells countsForState cube + _ := cells_set t x y z v
    rw [t.has_eq hold, t.has_eq hnew, ← h t] at hset
    refine changeCount_spec _ _ ((h t).trans_le (t.cells_le cube)) (fun ht => ?_) hset
    rw [h t]
    exact countP_pos_iff.mpr ⟨_, mem_flat.mpr ⟨x, y, z, rfl⟩, (t.has_eq hold).trans ht⟩
  obtain ⟨a, ha, ha'⟩ := hchange .nonEmpty
  obtain ⟨b, hb, hb'⟩ := hchange .fluid
  obtain ⟨k, hk, hk'⟩ := hchange .tickingBlock
  obtain ⟨f, hf, hf'⟩ := hchange .tickingFluid
  simp only [Trait.of, count] at ha hb hk hf
  refine ⟨⟨s.states, s.biomes, a, b, k, f⟩, ?_, rfl, rfl, ?_⟩
  · simp [applyCountChange, ha, hb, hk, hf]
  · rintro (_ | _ | _ | _)
    · exact ha'
    · exact hb'
    · exact hk'
    · exact hf'

/-- What holds between any two operations. -/
structure Counted (countsForState : BlockStateId → Option BlockStateSectionCounts)
    (s : ChunkSection) (cube : Cube BlockStateId 16) : Prop where
  represents : s.states.Represents cube
  registered : Registered countsForState cube
  exact : s.isBuilding = false → s.Exact countsForState cube
  le : ∀ t, (s.count t).toNat ≤ 4096

theorem Exact.counted (h : s.Exact countsForState cube) (hrep : s.states.Represents cube)
    (hreg : Registered countsForState cube) : s.Counted countsForState cube :=
  ⟨hrep, hreg, fun _ => h, fun t => (h t).trans_le (t.cells_le cube)⟩

theorem Exact.withStates (h : s.Exact countsForState cube) (states : BlockPalette) :
    ({ s with states } : ChunkSection).Exact countsForState cube := by
  rintro (_ | _ | _ | _)
  · exact h .nonEmpty
  · exact h .fluid
  · exact h .tickingBlock
  · exact h .tickingFluid

theorem registered_set {x y z : Fin 16} (h : Registered countsForState cube)
    (hv : (countsForState v).isSome = true) : Registered countsForState (cube.set x y z v) := by
  intro w hw
  have hmem := mem_of_mem_erase ((flat_set_perm x y z cube v).mem_iff.mp hw)
  rcases mem_cons.mp hmem with rfl | hmem
  · exact hv
  · exact h w hmem

namespace Counted

theorem recalculateCounts (hrep : s.states.Represents cube)
    (hreg : Registered countsForState cube) :
    ∃ s', s.recalculateCounts countsForState = some s' ∧ s'.isBuilding = false ∧
      s'.Counted countsForState cube := by
  obtain ⟨s', hs', hstates, -, hexact⟩ := recalculateCounts_spec hrep hreg
  have hne : ∀ cells, s'.states ≠ .building cells := by
    rw [hstates]
    exact finalizeBuilding_ne_building _
  have hrep' : s'.states.Represents cube := by
    rw [hstates]
    exact represents_finalizeBuilding (by decide) (by decide) hrep
  exact ⟨s', hs', isBuilding_eq_false hne, hexact.counted hrep' hreg⟩

variable (h : s.Counted countsForState cube)
include h

theorem ensureCounterReadyForDelta :
    ∃ s', s.ensureCounterReadyForDelta countsForState = some s' ∧ s'.isBuilding = false ∧
      s'.Counted countsForState cube := by
  unfold ChunkSection.ensureCounterReadyForDelta
  by_cases hb : s.isBuilding = true
  · rw [if_pos hb]
    exact Counted.recalculateCounts h.represents h.registered
  · rw [if_neg hb]
    exact ⟨s, rfl, by simpa using hb, h⟩

/-- A write that follows the counters keeps them exact, and returns the cell's old state. -/
theorem setBlockState (x y z : Fin 16) (hv : (countsForState v).isSome = true) :
    ∃ s', s.setBlockState countsForState x y z v = some (cube y z x, s') ∧
      s'.isBuilding = false ∧ s'.Counted countsForState (cube.set x y z v) := by
  obtain ⟨s₁, hs₁, hb₁, h₁⟩ := h.ensureCounterReadyForDelta
  obtain ⟨hfst, hrep⟩ := represents_set (by decide) h₁.represents x y z v
  have hne := set_ne_building (ne_building_of_isBuilding hb₁) x y z v
  have hreg : Registered countsForState (cube.set x y z v) := registered_set h.registered hv
  obtain ⟨old, hold⟩ := isSome_iff_exists.mp (h.registered _ (mem_flat.mpr ⟨x, y, z, rfl⟩))
  obtain ⟨new, hnew⟩ := isSome_iff_exists.mp hv
  rcases hset : s₁.states.set x y z v with ⟨oldState, states⟩
  rw [hset] at hfst hrep hne
  obtain rfl : oldState = cube y z x := hfst
  have hexact₁ := (h₁.exact hb₁).withStates states
  simp only [ChunkSection.setBlockState, hs₁, bind_eq_bind, bind_some, hset]
  by_cases heq : cube y z x = v
  · rw [if_neg (not_not.mpr heq)]
    refine ⟨_, rfl, isBuilding_eq_false hne, Exact.counted ?_ hrep hreg⟩
    rw [← heq, set_self]
    exact hexact₁
  · rw [if_pos heq]
    obtain ⟨s₂, hs₂, hstates₂, -, hexact₂⟩ := applyCountChange_spec hexact₁ hold hnew
    rw [hold, hnew, bind_some, bind_some, hs₂, bind_some]
    refine ⟨s₂, rfl, isBuilding_eq_false ?_, hexact₂.counted ?_ hreg⟩
    · rw [hstates₂]
      exact hne
    · rw [hstates₂]
      exact hrep

theorem setBlockStateForGeneration (x y z : Fin 16) (hv : (countsForState v).isSome = true) :
    (s.setBlockStateForGeneration x y z v).2.Counted countsForState (cube.set x y z v) := by
  have hrep := represents_enterBuildingMode h.represents
  obtain ⟨-, hrep'⟩ := represents_set (by decide) hrep x y z v
  refine ⟨hrep', registered_set h.registered hv, fun hb => ?_, h.le⟩
  cases hs : s.states <;>
    simp [ChunkSection.setBlockStateForGeneration, isBuilding, hs,
      PalettedContainer.enterBuildingMode, PalettedContainer.set] at hb

theorem recalculateCounts_eq (hb : s.isBuilding = false) :
    s.recalculateCounts countsForState = some s := by
  obtain ⟨s', hs', hstates, hbiomes, hexact⟩ := recalculateCounts_spec h.represents h.registered
  rw [hs']
  have hfinal : s.states.finalizeBuilding = s.states := by
    cases hs : s.states with
    | homogeneous v => rfl
    | heterogeneous data => rfl
    | building cells => exact absurd hs (ne_building_of_isBuilding hb cells)
  refine congrArg some (ext_count (hstates.trans hfinal) hbiomes fun t => ?_)
  exact UInt16.toNat_inj.mp ((hexact t).trans (h.exact hb t).symm)

end Counted

inductive Op where
  | setBlockState (x y z : Fin 16) (newState : BlockStateId)
  | setBlockStateForGeneration (x y z : Fin 16) (newState : BlockStateId)
  | recalculateCounts
  | finalizeGenerationCountsIfNeeded

namespace Op

def step (countsForState : BlockStateId → Option BlockStateSectionCounts) (s : ChunkSection) :
    Op → Option ChunkSection
  | .setBlockState x y z newState => (s.setBlockState countsForState x y z newState).map Prod.snd
  | .setBlockStateForGeneration x y z newState =>
    some (s.setBlockStateForGeneration x y z newState).2
  | .recalculateCounts => s.recalculateCounts countsForState
  | .finalizeGenerationCountsIfNeeded => s.finalizeGenerationCountsIfNeeded countsForState

def write (cube : Cube BlockStateId 16) : Op → Cube BlockStateId 16
  | .setBlockState x y z newState => cube.set x y z newState
  | .setBlockStateForGeneration x y z newState => cube.set x y z newState
  | _ => cube

def WritesRegistered (countsForState : BlockStateId → Option BlockStateSectionCounts) : Op → Prop
  | .setBlockState _ _ _ newState => (countsForState newState).isSome = true
  | .setBlockStateForGeneration _ _ _ newState => (countsForState newState).isSome = true
  | _ => True

end Op

theorem Counted.step (h : s.Counted countsForState cube) {op : Op}
    (hop : op.WritesRegistered countsForState) :
    ∃ s', op.step countsForState s = some s' ∧ s'.Counted countsForState (op.write cube) := by
  cases op with
  | setBlockState x y z v =>
    obtain ⟨s', hs', -, h'⟩ := h.setBlockState x y z hop
    exact ⟨s', by rw [Op.step, hs']; rfl, h'⟩
  | setBlockStateForGeneration x y z v =>
    exact ⟨_, rfl, h.setBlockStateForGeneration x y z hop⟩
  | recalculateCounts =>
    obtain ⟨s', hs', -, h'⟩ := Counted.recalculateCounts h.represents h.registered
    exact ⟨s', hs', h'⟩
  | finalizeGenerationCountsIfNeeded =>
    obtain ⟨s', hs', -, h'⟩ := h.ensureCounterReadyForDelta
    exact ⟨s', hs', h'⟩

theorem Counted.run (h : s.Counted countsForState cube) {ops : List Op}
    (hops : ∀ op ∈ ops, op.WritesRegistered countsForState) :
    ∃ s', ops.foldlM (Op.step countsForState) s = some s' ∧
      s'.Counted countsForState (runSteps Op.write cube ops) := by
  induction ops generalizing s cube with
  | nil => exact ⟨s, rfl, h⟩
  | cons op ops ih =>
    obtain ⟨s₁, hs₁, h₁⟩ := h.step (hops op mem_cons_self)
    obtain ⟨s', hs', h'⟩ := ih h₁ fun op' hop' => hops op' (mem_cons_of_mem op hop')
    refine ⟨s', ?_, h'⟩
    rw [foldlM_cons, hs₁]
    exact hs'

/-- A section that is new, or any section of registered states right after a recount. -/
def Started (countsForState : BlockStateId → Option BlockStateSectionCounts) (s : ChunkSection)
    (cube : Cube BlockStateId 16) : Prop :=
  (∃ plainsId, s = newEmpty plainsId ∧ cube = .const 0) ∨
    ∃ s₀ : ChunkSection, s₀.states.Represents cube ∧ Registered countsForState cube ∧
      s₀.recalculateCounts countsForState = some s

theorem Started.counted (hair : countsForState 0 = some ⟨true, false, false, false⟩)
    (h : s.Started countsForState cube) : s.Counted countsForState cube := by
  rcases h with ⟨plainsId, rfl, rfl⟩ | ⟨s₀, hrep, hreg, hs⟩
  · have hreg : Registered countsForState (.const 0) := by
      intro v hv
      rw [flat_const] at hv
      rw [eq_of_mem_replicate hv, hair]
      rfl
    refine Exact.counted (fun t => ?_) rfl hreg
    rw [Trait.cells, flat_const, countP_replicate, t.has_eq hair]
    cases t <;> rfl
  · obtain ⟨s', hs', -, h'⟩ := Counted.recalculateCounts hrep hreg
    obtain rfl := Option.some.inj (hs'.symm.trans hs)
    exact h'

/-- The counters never drift: no sequence of operations panics, the counters stay within 4096 and,
unless the palette is being built, are the numbers of cells with their traits. The next recount
only passes through totals of at most 4096, and the next write leaves what a recount would. -/
theorem counters_never_drift (hair : countsForState 0 = some ⟨true, false, false, false⟩)
    (s : ChunkSection) (cube : Cube BlockStateId 16) (hs : s.Started countsForState cube)
    (ops : List Op) (hops : ∀ op ∈ ops, op.WritesRegistered countsForState) :
    ∃ s', ops.foldlM (Op.step countsForState) s = some s' ∧
      s'.states.Represents (runSteps Op.write cube ops) ∧
      (s'.isBuilding = false → s'.Exact countsForState (runSteps Op.write cube ops)) ∧
      (∀ t, (s'.count t).toNat ≤ 4096) ∧
      (∀ data, s'.states.finalizeBuilding = .heterogeneous data → ∀ n,
        ∃ c, accumulatePalette countsForState ⟨0, 0, 0, 0⟩ (data.palette.take n) = some c ∧
          ∀ t, (c.get t).toNat ≤ 4096) ∧
      ∀ x y z v, (countsForState v).isSome = true → ∃ s'', s'.setBlockState countsForState x y z v =
            some (runSteps Op.write cube ops y z x, s'') ∧
          s''.recalculateCounts countsForState = some s'' := by
  obtain ⟨s', hrun, h⟩ := (hs.counted hair).run hops
  refine ⟨s', hrun, h.represents, h.exact, h.le, ?_, ?_⟩
  · intro data hdata n
    have hrep := represents_finalizeBuilding (by decide) (by decide) h.represents
    rw [hdata] at hrep
    obtain ⟨c, hc, hget⟩ := accumulatePalette_take hrep.2.1 h.registered n
    exact ⟨c, hc, fun t => (hget t).2⟩
  · intro x y z v hv
    obtain ⟨s'', hs'', hb, h''⟩ := h.setBlockState x y z hv
    exact ⟨s'', hs'', h''.recalculateCounts_eq hb⟩

def airAndStone : BlockStateId → Option BlockStateSectionCounts
  | 0 => some ⟨true, false, false, false⟩
  | 1 => some ⟨false, false, false, false⟩
  | _ => none

/-- A stone written during generation is removed and placed again. -/
def replaceStone : List Op :=
  [.setBlockStateForGeneration 0 0 0 1, .setBlockState 0 0 0 0, .setBlockState 0 0 0 1]

theorem counters_never_drift_stone :
    ∃ s', replaceStone.foldlM (Op.step airAndStone) (newEmpty 40) = some s' ∧
      (s'.isBuilding = false →
        s'.Exact airAndStone (runSteps Op.write (.const 0) replaceStone)) := by
  have hops : ∀ op ∈ replaceStone, op.WritesRegistered airAndStone := by
    simp [replaceStone, Op.WritesRegistered, airAndStone]
  obtain ⟨s', hrun, -, hexact, -⟩ := counters_never_drift rfl
    (newEmpty 40) (.const 0) (.inl ⟨40, rfl, rfl⟩) replaceStone hops
  exact ⟨s', hrun, hexact⟩

end ChunkSection

end Steel
