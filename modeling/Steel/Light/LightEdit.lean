import Steel.Light.LightCache

/-! # Light sections and block states of a cache window

The levels that are edited and the block states that are read are kept by section slot and local
index.
-/

namespace Steel

open Function (update_of_ne update)

abbrev LightSectionData := ℕ → ℕ

inductive LightSection where
  | missing
  | visible (data : LightSectionData)
  | internal (data : LightSectionData)

namespace LightSection

def isMissing : LightSection → Bool
  | missing => true
  | visible _ => false
  | internal _ => false

/-- `get_section_value` -/
def get : LightSection → ℕ → ℕ
  | missing, _ => 0
  | visible data, localIndex => data localIndex
  | internal data, localIndex => data localIndex

/-- `set_section_value`: a level has four bits. -/
def set : LightSection → ℕ → ℕ → LightSection
  | missing, _, _ => missing
  | visible data, localIndex, level => visible (update data localIndex (level &&& 15))
  | internal data, localIndex, level => internal (update data localIndex (level &&& 15))

theorem isMissing_set (lightSection : LightSection) (localIndex level : ℕ) :
    (lightSection.set localIndex level).isMissing = lightSection.isMissing := by
  cases lightSection <;> rfl

theorem get_set {lightSection : LightSection} (h : lightSection.isMissing = false)
    (localIndex level : ℕ) : (lightSection.set localIndex level).get =
      update lightSection.get localIndex (level &&& 15) := by
  cases lightSection with
  | missing => cases h
  | visible data => rfl
  | internal data => rfl

end LightSection

/-- The light of one layer while it is edited: the sections that were admitted, and the missing ones
that were taken out again. -/
structure LightLayerEdit where
  sections : ℕ → Option LightSection
  removedMissingSections : ℕ → Bool

namespace LightLayerEdit

def get (edit : LightLayerEdit) (block : CachedLightBlock) : ℕ :=
  match edit.sections block.sectionSlot with
  | none => 0
  | some lightSection => lightSection.get block.localIndex

def hasNonMissing (edit : LightLayerEdit) (block : CachedLightBlock) : Bool :=
  match edit.sections block.sectionSlot with
  | none => false
  | some lightSection => !lightSection.isMissing

def set (edit : LightLayerEdit) (block : CachedLightBlock) (level : ℕ) : LightLayerEdit :=
  match edit.sections block.sectionSlot with
  | none => edit
  | some lightSection =>
    if lightSection.isMissing then edit
    else { edit with
      sections := update edit.sections block.sectionSlot
        (some (lightSection.set block.localIndex level)) }

section Positions

variable (layout : LightCacheLayout) {edit : LightLayerEdit} {pos : BlockCoords}

/-- The level at a position. There is no light outside the sections. -/
def levelAt (edit : LightLayerEdit) (pos : BlockCoords) : ℕ :=
  match layout.cachedBlock pos with
  | none => 0
  | some block => edit.get block

def presentAt (edit : LightLayerEdit) (pos : BlockCoords) : Bool :=
  match layout.cachedBlock pos with
  | none => false
  | some block => edit.hasNonMissing block

variable {layout} {block : CachedLightBlock}

theorem levelAt_eq (h : layout.cachedBlock pos = some block) :
    edit.levelAt layout pos = edit.get block := by
  simp only [levelAt, h]

theorem presentAt_eq (h : layout.cachedBlock pos = some block) :
    edit.presentAt layout pos = edit.hasNonMissing block := by
  simp only [presentAt, h]

theorem exists_cachedBlock (h : edit.presentAt layout pos = true) :
    ∃ block, layout.cachedBlock pos = some block ∧ edit.hasNonMissing block = true := by
  unfold presentAt at h
  cases hblock : layout.cachedBlock pos with
  | none => simp [hblock] at h
  | some block =>
    simp only [hblock] at h
    exact ⟨block, rfl, h⟩

theorem exists_section (h : edit.hasNonMissing block = true) : ∃ lightSection,
    edit.sections block.sectionSlot = some lightSection ∧ lightSection.isMissing = false := by
  unfold hasNonMissing at h
  cases hsection : edit.sections block.sectionSlot with
  | none => simp [hsection] at h
  | some lightSection =>
    simp only [hsection, Bool.not_eq_true'] at h
    exact ⟨lightSection, rfl, h⟩

theorem levelAt_of_not_present (h : edit.presentAt layout pos = false) :
    edit.levelAt layout pos = 0 := by
  unfold presentAt hasNonMissing at h
  unfold levelAt get
  cases hblock : layout.cachedBlock pos with
  | none => rfl
  | some block =>
    simp only [hblock] at h
    cases hsection : edit.sections block.sectionSlot with
    | none => simp only [hsection]
    | some lightSection =>
      simp only [hsection, Bool.not_eq_false'] at h ⊢
      cases lightSection with
      | missing => rfl
      | visible data => cases h
      | internal data => cases h

theorem set_eq {lightSection : LightSection} (level : ℕ)
    (h : edit.sections block.sectionSlot = some lightSection)
    (hpresent : lightSection.isMissing = false) :
    edit.set block level = { edit with
      sections := update edit.sections block.sectionSlot
        (some (lightSection.set block.localIndex level)) } := by
  simp [set, h, hpresent]

theorem levelAt_set (hblock : layout.cachedBlock pos = some block)
    (hpresent : edit.hasNonMissing block = true) {level : ℕ} (hlevel : level ≤ 15) :
    (edit.set block level).levelAt layout = update (edit.levelAt layout) pos level := by
  obtain ⟨lightSection, hsection, hmissing⟩ := exists_section hpresent
  have hmask : level &&& 15 = level := by
    rw [show (15 : ℕ) = 2 ^ 4 - 1 from rfl, Nat.and_two_pow_sub_one_eq_mod]
    exact Nat.mod_eq_of_lt (Nat.lt_succ_of_le hlevel)
  rw [set_eq level hsection hmissing]
  funext pos'
  by_cases hpos : pos' = pos
  · subst hpos
    rw [Function.update_self, levelAt_eq hblock, get]
    simp [LightSection.get_set hmissing, hmask]
  · rw [update_of_ne hpos]
    unfold levelAt get
    cases hblock' : layout.cachedBlock pos' with
    | none => rfl
    | some block' =>
      by_cases hslot : block'.sectionSlot = block.sectionSlot
      · have hindex : block'.localIndex ≠ block.localIndex := fun hindex =>
          hpos (LightCacheLayout.cachedBlock_injective hblock' hblock hslot hindex)
        simp [hslot, hsection, LightSection.get_set hmissing, update_of_ne hindex]
      · simp only [update_of_ne hslot]

theorem presentAt_set (layout : LightCacheLayout) (edit : LightLayerEdit)
    (block : CachedLightBlock) (level : ℕ) :
    (edit.set block level).presentAt layout = edit.presentAt layout := by
  funext pos
  unfold presentAt
  cases layout.cachedBlock pos with
  | none => rfl
  | some block' =>
    simp only
    cases hsection : edit.sections block.sectionSlot with
    | none => simp only [set, hsection]
    | some lightSection =>
      cases hmissing : lightSection.isMissing with
      | true => simp only [set, hsection, hmissing, if_true]
      | false =>
        rw [set_eq level hsection hmissing]
        by_cases hslot : block'.sectionSlot = block.sectionSlot
        · simp [hasNonMissing, hslot, hsection, LightSection.isMissing_set]
        · simp only [hasNonMissing, update_of_ne hslot]

end Positions

end LightLayerEdit

/-- A section of block states. -/
structure ReadSection (S : Type*) where
  isEmpty : Bool
  states : ℕ → S

/-- The sections that light can read, by slot. -/
structure LightSectionReadCache (S : Type*) where
  sections : ℕ → Option (ReadSection S)

/-- A section that is not there, or that is empty, is air. -/
def LightSectionReadCache.getBlockState {S : Type*} (cache : LightSectionReadCache S) (air : S)
    (block : CachedLightBlock) : S :=
  match cache.sections block.sectionSlot with
  | none => air
  | some readSection => if readSection.isEmpty then air else readSection.states block.localIndex

end Steel
