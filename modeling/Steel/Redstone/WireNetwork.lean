import Mathlib.Data.ZMod.Defs
import Mathlib.Tactic.FinCases
import Steel.Lib.Relaxation
import Steel.Redstone.WireEvaluator

/-! # Wires settle

The blocks around a finite set of wires do not change. Then the updates of the wires are a
relaxation: a wire feeds those whose target depends on it, and its updates reach all of them.
-/

namespace Steel

open WireUpdates SignalBehaviors FeedNetwork Direction Finset Nat

open Function (update_self update_of_ne update)

/-- Wires among blocks that do not change. -/
structure WireNetwork (β : Type) where
  behaviors : SignalBehaviors β
  blocks : BlockPos → Option β
  wires : Finset BlockPos

namespace WireNetwork

variable {β : Type} (n : WireNetwork β)

def level (power : BlockPos → Fin 16) : RedstoneLevel β := fun pos =>
  if pos ∈ n.wires then .wire (power pos)
  else
    match n.blocks pos with
    | some block => .other block
    | none => .air

/-- All wires are supported, and what the other blocks give to each of them and whether they are
conductors does not depend on the wires. -/
structure Steady (input : BlockPos → ℕ) : Prop where
  supported : ∀ power, ∀ w ∈ n.wires, n.behaviors.canSurvive (n.level power) w
  nonWireInput : ∀ power, ∀ w ∈ n.wires, n.behaviors.nonWireInput (n.level power) w = input w
  input_le : ∀ w ∈ n.wires, input w ≤ 15
  conductor : ∀ power power' pos,
    n.behaviors.isConductorAt (n.level power) pos = n.behaviors.isConductorAt (n.level power') pos

/-- The target of the second wire depends on the power of the first one. -/
def Feeds (v w : BlockPos) : Prop :=
  v ∈ n.wires ∧ w ∈ n.wires ∧ ∃ power strength,
    n.behaviors.calculateTargetStrength (n.level (update power v strength)) w ≠
      n.behaviors.calculateTargetStrength (n.level power) w

def notified (w : BlockPos) : Finset BlockPos :=
  wiresBeside (n.level 0) (javaHashSetUpdateOrder w)

def heard (w : BlockPos) : Finset BlockPos :=
  ((horizontal.filterMap (n.behaviors.heardOn (n.level 0) w)).toFinset).filter
    (· ∈ n.wires)

variable {n} {input : BlockPos → ℕ} {power : BlockPos → Fin 16} {v w : BlockPos}

theorem isWire_level (pos : BlockPos) : (n.level power pos).isWire = decide (pos ∈ n.wires) := by
  unfold level
  split
  case isTrue hmem => simp [RedstoneState.isWire, hmem]
  case isFalse hmem =>
    cases n.blocks pos <;> simp [RedstoneState.isWire, hmem]

theorem getWireSignal_level (pos : BlockPos) :
    (n.level power pos).getWireSignal = if pos ∈ n.wires then ((power pos).val : ℤ) else 0 := by
  unfold level
  split
  case isTrue => rfl
  case isFalse => cases n.blocks pos <;> rfl

theorem level_update (hw : w ∈ n.wires) (strength : Fin 16) :
    n.level (update power w strength) =
      update (n.level power) w (.wire strength) := by
  funext pos
  by_cases hpos : pos = w
  · subst hpos
    simp [level, hw]
  · simp [level, update_of_ne hpos]

namespace Steady

variable (h : n.Steady input)

include h

theorem heardOn_eq (direction : Direction) : n.behaviors.heardOn (n.level power) w direction =
      n.behaviors.heardOn (n.level 0) w direction := by
  simp only [heardOn, isWire_level, h.conductor power 0]

variable (power) in
theorem mem_heard : v ∈ n.heard w ↔ v ∈ n.wires ∧ ∃ direction ∈ horizontal,
      v ∈ n.behaviors.heardOn (n.level power) w direction := by
  simp only [heard, mem_filter, List.mem_toFinset, List.mem_filterMap, h.heardOn_eq,
    Option.mem_def]
  exact and_comm

end Steady

end WireNetwork

theorem BlockPos.ne_relative_horizontal {direction : Direction}
    (hd : direction ∈ horizontal) (pos : BlockPos) :
    pos.relative direction ≠ pos ∧ (pos.relative direction).relative .up ≠ pos ∧
      (pos.relative direction).relative .down ≠ pos := by
  obtain ⟨x, y, z⟩ := pos
  cases direction <;> simp [horizontal] at hd <;>
    simp only [BlockPos.relative, offset, ne_eq, BlockPos.mk.injEq] <;> grind

namespace WireNetwork

variable {β : Type} {n : WireNetwork β} {input : BlockPos → ℕ} {power : BlockPos → Fin 16}
  {v w : BlockPos}

theorem mem_wiresBeside {level : RedstoneLevel β} {positions : List BlockPos} {pos : BlockPos} :
    pos ∈ wiresBeside level positions ↔
      (∃ p ∈ positions, ∃ direction ∈ updateOrder, p.relative direction = pos) ∧
        (level pos).isWire := by
  simp [wiresBeside]

theorem wiresBeside_level (positions : List BlockPos) :
    wiresBeside (n.level power) positions =
      wiresBeside (n.level 0) positions := by
  ext pos
  rw [mem_wiresBeside, mem_wiresBeside, isWire_level, isWire_level]

theorem mem_updateOrder (direction : Direction) : direction ∈ updateOrder := by
  cases direction <;> decide

theorem notified_subset (w : BlockPos) : n.notified w ⊆ n.wires := by
  intro v hv
  have hwire := (mem_wiresBeside.mp hv).2
  rw [isWire_level] at hwire
  exact of_decide_eq_true hwire

/-- The updates of a wire reach the wires beside it and beside the blocks above and below. -/
theorem mem_notified (hv : v ∈ n.wires) (direction : Direction) {p : BlockPos}
    (hp : p = w ∨ p = w.relative .up ∨ p = w.relative .down) (heq : p.relative direction = v) :
    v ∈ n.notified w := by
  refine mem_wiresBeside.mpr ⟨⟨p, ?_, direction, mem_updateOrder direction, heq⟩, ?_⟩
  · rw [javaHashSetUpdateOrder, mem_sortStable]
    simp only [List.mem_cons]
    rcases hp with hp | hp | hp
    · exact .inl hp
    · exact .inr (.inr (.inl hp))
    · exact .inr (.inl hp)
  · rw [isWire_level]
    exact decide_eq_true hv

namespace Steady

variable (h : n.Steady input)

include h

theorem ne_of_mem_heard (hv : v ∈ n.heard w) : v ≠ w := by
  obtain ⟨-, direction, hd, hmem⟩ := (h.mem_heard 0).mp hv
  obtain ⟨hbeside, habove, hbelow⟩ := BlockPos.ne_relative_horizontal hd w
  simp only [heardOn] at hmem
  split_ifs at hmem <;> cases hmem
  · exact hbeside
  · exact habove
  · exact hbelow

theorem mem_notified_of_mem_heard (hv : v ∈ n.heard w) (hw : w ∈ n.wires) : w ∈ n.notified v := by
  obtain ⟨-, direction, hd, hmem⟩ := (h.mem_heard 0).mp hv
  have hback := w.relative_opposite direction
  simp only [heardOn] at hmem
  split_ifs at hmem <;> cases hmem
  · exact mem_notified hw direction.opposite (.inl rfl) hback
  · refine mem_notified hw direction.opposite (.inr (.inr rfl)) ?_
    exact (congrArg (·.relative direction.opposite)
      ((w.relative direction).relative_opposite .up)).trans hback
  · refine mem_notified hw direction.opposite (.inr (.inl rfl)) ?_
    exact (congrArg (·.relative direction.opposite)
      ((w.relative direction).relative_opposite .down)).trans hback

def feedNetwork : FeedNetwork BlockPos where
  nodes := n.wires
  source := input
  feeders w := if w ∈ n.wires ∧ input w ≤ 13 then n.heard w else ∅
  top := 15
  source_le := h.input_le
  feeders_subset := by
    intro w hw v hv
    split_ifs at hv
    · exact ((h.mem_heard 0).mp hv).1
    · exact absurd hv (notMem_empty v)
  not_mem_feeders := by
    intro w hw
    split_ifs at hw
    · exact h.ne_of_mem_heard hw rfl
    · exact absurd hw (notMem_empty w)

theorem mem_feeders : v ∈ h.feedNetwork.feeders w ↔ w ∈ n.wires ∧ input w ≤ 13 ∧ v ∈ n.heard w := by
  simp only [feedNetwork]
  split_ifs with hw
  · simp [hw]
  · simp
    grind

theorem target_eq (hw : w ∈ n.wires) : (h.feedNetwork.target (fun v => (power v).val) w : ℤ) =
      n.behaviors.calculateTargetStrength (n.level power) w := by
  have hinput := h.nonWireInput power w hw
  have hle := h.input_le w hw
  have htarget := n.behaviors.le_calculateTargetStrength_iff (n.level power) w (by omega)
  rw [hinput] at htarget
  have hnonneg := (htarget 0).mpr (.inl (by omega))
  have hiff : ∀ k : ℕ, 0 < k → (k ≤ h.feedNetwork.target (fun v => (power v).val) w ↔
      (k : ℤ) ≤ n.behaviors.calculateTargetStrength (n.level power) w) := by
    intro k hk
    rw [le_target_iff hk, htarget]
    constructor
    · rintro (hsource | ⟨v, hv, hpower⟩)
      · exact .inl (by exact_mod_cast hsource)
      · obtain ⟨-, -, hheard⟩ := h.mem_feeders.mp hv
        obtain ⟨hwire, direction, hd, hmem⟩ := (h.mem_heard power).mp hheard
        refine .inr ⟨direction, hd, v, hmem, ?_⟩
        rw [getWireSignal_level, if_pos hwire]
        omega
    · rintro (hsource | ⟨direction, hd, v, hmem, hpower⟩)
      · exact .inl (by exact_mod_cast hsource)
      · rw [getWireSignal_level] at hpower
        split_ifs at hpower with hwire
        · have hlt := (power v).isLt
          by_cases hlow : input w ≤ 13
          · have hheard := (h.mem_heard power).mpr ⟨hwire, direction, hd, hmem⟩
            exact .inr ⟨v, h.mem_feeders.mpr ⟨hw, hlow, hheard⟩, by omega⟩
          · exact .inl (by change k ≤ input w; omega)
        · omega
  have hupper := hiff (n.behaviors.calculateTargetStrength (n.level power) w).toNat
  have hlower := hiff (h.feedNetwork.target (fun v => (power v).val) w)
  omega

/-- The feeders of the relaxation are the wires on which the target depends. -/
theorem feeds_iff : h.feedNetwork.Feeds v w ↔ n.Feeds v w := by
  constructor
  · intro hfeeds
    obtain ⟨hw, hlow, hheard⟩ := h.mem_feeders.mp hfeeds
    obtain ⟨hv, -⟩ := (h.mem_heard 0).mp hheard
    refine ⟨hv, hw, 0, 15, ?_⟩
    rw [← h.target_eq hw, ← h.target_eq hw]
    have hon : 14 ≤ h.feedNetwork.target (fun u =>
        (update (0 : BlockPos → Fin 16) v 15 u).val) w := by
      refine (le_target_iff (by decide)).mpr (.inr ⟨v, hfeeds, ?_⟩)
      rw [update_self]
      decide
    have hoff : ¬ 14 ≤ h.feedNetwork.target (fun u => ((0 : BlockPos → Fin 16) u).val) w := by
      rw [le_target_iff (by decide)]
      rintro (hsource | ⟨u, -, hu⟩)
      · exact absurd hlow (not_le.mpr hsource)
      · exact absurd hu (by simp)
    omega
  · rintro ⟨hv, hw, power, strength, hne⟩
    by_contra hnot
    apply hne
    rw [← h.target_eq hw, ← h.target_eq hw, target_congr]
    intro u hu
    rw [update_of_ne]
    rintro rfl
    exact hnot hu

theorem reaches : h.feedNetwork.Reaches n.notified where
  subset := fun w _ => notified_subset w
  feeds := by
    intro v hv w hw
    exact h.mem_notified_of_mem_heard (h.mem_feeders.mp hw).2.2 hv

/-- The powers and the pending wires are those of the relaxation. -/
structure Simulates (s : WireUpdates β) (t : Relaxing BlockPos) : Prop where
  level : ∃ power, s.level = n.level power ∧ t.power = fun v => (power v).val
  pending : s.pending = t.pending
  bounded : h.feedNetwork.Bounded t

variable [DecidableEq β]

theorem handleNeighborChanged_eq (hw : w ∈ n.wires) :
    let target := h.feedNetwork.target (fun v => (power v).val) w
    n.behaviors.handleNeighborChanged (n.level power) w (n.level power w) =
      if (power w).val = target then (n.level power, [])
      else (n.level (update power w (Fin.ofNat 16 target)),
          javaHashSetUpdateOrder w) := by
  intro target
  have htarget : (target : ℤ) = n.behaviors.calculateTargetStrength (n.level power) w :=
    h.target_eq hw
  have hsignal : (n.level power w).getWireSignal = ((power w).val : ℤ) := by
    rw [getWireSignal_level, if_pos hw]
  rw [handleNeighborChanged, if_pos (h.supported power w hw),
    updatePowerStrength, hsignal, ← htarget, level_update hw]
  simp

theorem simulates_step {s : WireUpdates β} {t : Relaxing BlockPos} (hsim : h.Simulates s t)
    (hw : w ∈ s.pending) :
    h.Simulates (s.step n.behaviors w) (h.feedNetwork.relax n.notified t w) := by
  obtain ⟨⟨power, hlevel, hpower⟩, hpending, hbounded⟩ := hsim
  have hwire : w ∈ n.wires := hbounded.pending_subset (hpending ▸ hw)
  have hnext := hbounded.relax (notified_subset w) (hpending ▸ hw)
  have htop := target_le hwire hbounded.le_top
  rw [step, hlevel, h.handleNeighborChanged_eq hwire, ← hpower]
  rw [relax] at hnext ⊢
  have hval : (power w).val = t.power w := by rw [hpower]
  rw [hval]
  split_ifs at hnext ⊢
  · refine ⟨⟨power, rfl, hpower⟩, ?_, hnext⟩
    simp [wiresBeside, hpending]
  · refine ⟨⟨_, rfl, ?_⟩, ?_, hnext⟩
    · funext v
      dsimp only
      by_cases hvw : v = w
      · subst hvw
        rw [update_self, update_self, Fin.val_ofNat, mod_eq_of_lt]
        exact lt_succ_of_le htop
      · rw [update_of_ne hvw, update_of_ne hvw, hpower]
    · dsimp only
      rw [wiresBeside_level, hpending]
      rfl

/-- In every order the updates end, and then each wire has what is left of the strongest input. -/
theorem settles {s : WireUpdates β} (hlevel : s.level = n.level power)
    (hpending : s.pending ⊆ n.wires)
    (hcovered : ∀ w ∈ n.wires, ((power w).val : ℤ) ≠
      n.behaviors.calculateTargetStrength s.level w → w ∈ s.pending) :
    (∀ v w, n.Feeds v w → w ∈ n.notified v) ∧
    ∃ bound, ∀ order, Guarded (step n.behaviors) (fun s w => w ∈ s.pending) s order →
      order.length ≤ bound ∧ ((runSteps (step n.behaviors) s order).pending = ∅ →
          ∃ final : BlockPos → Fin 16,
            (runSteps (step n.behaviors) s order).level = n.level final ∧
            ∀ w ∈ n.wires, IsGreatest {x | ∃ v ∈ n.wires, ∃ d,
              IsLeast {d | Chain n.Feeds d v w} d ∧ x = input v - d} (final w).val) := by
  constructor
  · rintro v w hfeeds
    exact h.reaches.feeds w hfeeds.2.1 v (h.feeds_iff.mpr hfeeds)
  · let t : Relaxing BlockPos := ⟨fun v => (power v).val, s.pending⟩
    have hbounded : h.feedNetwork.Bounded t :=
      ⟨fun v _ => le_of_lt_succ (power v).isLt, hpending⟩
    have hsim : h.Simulates s t := ⟨⟨power, hlevel, rfl⟩, rfl, hbounded⟩
    have hcover : h.feedNetwork.Covered t := by
      intro v hv hne
      apply hcovered v hv
      rw [hlevel, ← h.target_eq hv]
      exact_mod_cast hne
    refine ⟨h.feedNetwork.work t, fun order horder => ?_⟩
    have hguarded : Guarded (h.feedNetwork.relax n.notified) FeedNetwork.Takes t order := by
      refine Guarded.of_simulation (R := h.Simulates) ?_ horder hsim
      intro s t w hsim hw
      exact ⟨hsim.pending.subset hw, h.simulates_step hsim hw⟩
    have hend : h.Simulates (runSteps (step n.behaviors) s order)
        (runSteps (h.feedNetwork.relax n.notified) t order) := by
      refine Guarded.simulation (R := h.Simulates) ?_ horder hsim
      intro s t w hsim hw
      exact h.simulates_step hsim hw
    obtain ⟨hlength, hbounded', hcovered'⟩ := h.reaches.run hbounded hcover hguarded
    refine ⟨hlength, fun hempty => ?_⟩
    obtain ⟨final, hfinal, hpower⟩ := hend.level
    refine ⟨final, hfinal, fun w hw => ?_⟩
    have hsettled := hcovered'.settled (hend.pending ▸ hempty)
    have hgreatest := hsettled.isGreatest hbounded'.le_top hw
    have hsame : h.feedNetwork.Feeds = n.Feeds := by
      ext v w
      exact h.feeds_iff
    rw [hsame, hpower] at hgreatest
    exact hgreatest

end Steady

def twoWires : WireNetwork Bool where
  behaviors :=
    { getSignal := fun source _ _ _ => if source then 15 else 0
      getDirectSignal := fun _ _ _ _ => 0
      isRedstoneConductor := fun source _ _ => !source
      canSurviveOn := fun _ _ state => !state.isAir }
  blocks pos :=
    if pos = ⟨0, 63, 0⟩ then some true else if pos = ⟨1, 63, 0⟩ then some false else none
  wires := {⟨0, 64, 0⟩, ⟨1, 64, 0⟩}

theorem steady_twoWires : twoWires.Steady fun pos => if pos = ⟨0, 64, 0⟩ then 15 else 0 where
  supported := by
    intro power w hw
    fin_cases hw <;> rfl
  nonWireInput := by
    intro power w hw
    fin_cases hw <;> rfl
  input_le := by
    intro w _
    split_ifs <;> decide
  conductor := by
    intro power power' pos
    simp only [isConductorAt, level]
    split_ifs
    · rfl
    · cases twoWires.blocks pos <;> rfl

/-- The wire on the source has its strength, the one beside it one less. -/
theorem settles_twoWires :
    let near : BlockPos := ⟨0, 64, 0⟩
    let far : BlockPos := ⟨1, 64, 0⟩
    let run := runSteps (step twoWires.behaviors) ⟨twoWires.level 0, twoWires.wires⟩
    ∃ bound, ∀ order, Guarded (step twoWires.behaviors) (fun s w => w ∈ s.pending)
      ⟨twoWires.level 0, twoWires.wires⟩ order → order.length ≤ bound ∧
        ((run order).pending = ∅ → ∃ final, (run order).level = twoWires.level final ∧
          final near = 15 ∧ final far = 14) := by
  intro near far run
  obtain ⟨-, bound, hbound⟩ := steady_twoWires.settles (s := ⟨twoWires.level 0, twoWires.wires⟩)
    rfl (Finset.Subset.refl _) fun w hw _ => hw
  refine ⟨bound, fun order horder => ⟨(hbound order horder).1, fun hempty => ?_⟩⟩
  obtain ⟨final, hlevel, hgreatest⟩ := (hbound order horder).2 hempty
  have hfeeds : twoWires.Feeds near far := ⟨by decide, by decide, 0, 15, by decide⟩
  have hnear := (hgreatest near (by decide)).2
    ⟨near, by decide, 0, ⟨Chain.refl _, fun _ _ => zero_le _⟩, rfl⟩
  have hpos : ∀ d, Chain twoWires.Feeds d near far → 1 ≤ d := by
    intro d hchain
    refine one_le_iff_ne_zero.2 fun hzero => ?_
    have heq : ∀ v w, Chain twoWires.Feeds 0 v w → v = w := by
      rintro v w ⟨⟩
      rfl
    exact absurd (heq _ _ (hzero ▸ hchain)) (by decide)
  obtain ⟨⟨v, hv, d, hd, hfinal⟩, hfar⟩ := hgreatest far (by decide)
  have hle := hfar ⟨near, by decide, 1, ⟨Chain.step (Chain.refl _) hfeeds, hpos⟩, rfl⟩
  refine ⟨final, hlevel, Fin.ext (le_antisymm (final near).is_le hnear), Fin.ext ?_⟩
  refine le_antisymm ?_ hle
  rw [hfinal]
  rcases mem_insert.1 hv with rfl | hv
  · exact Nat.sub_le_sub_left (hpos d hd.1) 15
  · obtain rfl := mem_singleton.1 hv
    exact (sub_le 0 d).trans (zero_le _)

end WireNetwork

end Steel
