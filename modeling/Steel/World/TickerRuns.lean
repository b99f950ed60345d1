import Mathlib.Data.List.Nodup
import Mathlib.Order.Nat
import Steel.World.BlockEntityTicker

/-! # Runs of the tickers

Between any two steps a wrapper that is bound stands in the list at one place, and the list is
ordered by the places of the wrappers.
-/

namespace Steel

open Prod (fst)

open Function WorldBlockEntityTickers Option List TickerHistory
open Nat (le_succ_of_le lt_succ_of_lt lt_succ_self)

variable {H P T : Type}

def TickerPhase.wrappers : TickerPhase H P T → List ℕ
  | .idle => []
  | .iterating iteration => iteration.kept ++ iteration.rest
  | .loaded iteration wrapper _ | .removing iteration wrapper _ | .called iteration wrapper =>
    iteration.kept ++ wrapper :: iteration.rest

def TickerPhase.ahead : TickerPhase H P T → List ℕ
  | .idle => []
  | .iterating iteration | .removing iteration _ _ | .called iteration _ => iteration.rest
  | .loaded iteration wrapper _ => wrapper :: iteration.rest

def TickerPhase.loadedPair : TickerPhase H P T → List (ℕ × BoundBlockEntityTicker H P T)
  | .loaded _ wrapper binding | .removing _ wrapper binding => [(wrapper, binding)]
  | .idle | .iterating _ | .called _ _ => []

def TickerPhase.next : TickerPhase H P T → List (ℕ × BoundBlockEntityTicker H P T)
  | .loaded _ wrapper binding => [(wrapper, binding)]
  | .idle | .iterating _ | .removing _ _ _ | .called _ _ => []

/-- The wrappers that the phase has been through, if it ticks them. -/
def TickerPhase.behind : TickerPhase H P T → List ℕ
  | .idle => []
  | .iterating iteration | .loaded iteration _ _ | .removing iteration _ _ =>
    if iteration.runsNormally then iteration.kept else []
  | .called iteration wrapper =>
    if iteration.runsNormally then wrapper :: iteration.kept else []

def TickerPhase.isIdle : TickerPhase H P T → Bool
  | .idle => true
  | .iterating _ | .loaded _ _ _ | .removing _ _ _ | .called _ _ => false

open TickerPhase (ahead behind isIdle iterating loadedPair)

def WorldBlockEntityTickers.order (t : WorldBlockEntityTickers H P T) : List ℕ :=
  t.state.active ++ t.phase.wrappers ++ t.state.pending

/-- A wrapper comes before another one if its place does or if it has been made before at the same
place. -/
def TickerHistory.Earlier (h : TickerHistory H P T) (w w' : ℕ) : Prop :=
  h.place w < h.place w' ∨ h.place w = h.place w' ∧ w < w'

/-- The map and the bindings belong together. -/
structure Bound (t : WorldBlockEntityTickers H P T) : Prop where
  bound : ∀ w b, t.bindings w = some b → t.state.byPos b.blockPos = some w
  mapped : ∀ p w, t.state.byPos p = some w → ∃ b, t.bindings w = some b ∧ b.blockPos = p
  lt : ∀ w b, t.bindings w = some b → w < t.wrappers ∧ b.address < t.addresses
  distinct : ∀ w w' b b', t.bindings w = some b → t.bindings w' = some b' →
    b.address = b'.address → w = w'

structure Ordered (t : WorldBlockEntityTickers H P T) (h : TickerHistory H P T) : Prop where
  ticking : t.state.ticking = !t.phase.isIdle
  active : t.phase.isIdle = false → t.state.active = []
  sorted : t.order.Pairwise h.Earlier
  lt : ∀ w ∈ t.order, w < t.wrappers
  active_le : ∀ w ∈ t.state.active, h.place w ≤ 2 * h.phases
  taken_lt : ∀ w ∈ t.phase.wrappers, h.place w < 2 * h.phases ∧ w < h.first
  pending_eq : ∀ w ∈ t.state.pending, h.place w = 2 * h.phases + 1
  first_le : h.first ≤ t.wrappers
  pending_ge : t.phase.isIdle = false → ∀ w ∈ t.state.pending, h.first ≤ w

/-- What the phase has seen of wrappers and positions. -/
structure Seen (t : WorldBlockEntityTickers H P T) (h : TickerHistory H P T) : Prop where
  sorted : (h.ticked.map fst ++ t.phase.ahead).Pairwise h.Earlier
  positions : ((h.ticked ++ t.phase.next).map fun pair => pair.2.blockPos).Nodup
  behind : ∀ w ∈ t.phase.behind, w ∈ h.ticked.map fst
  same : ∀ pair ∈ h.ticked ++ t.phase.loadedPair, ∀ b, t.bindings pair.1 = some b →
    b.blockPos = pair.2.blockPos
  only : ∀ pair ∈ h.ticked ++ t.phase.loadedPair, ∀ w b, w < h.first → t.bindings w = some b →
    b.blockPos = pair.2.blockPos → w = pair.1
  lt : ∀ pair ∈ h.ticked ++ t.phase.loadedPair, pair.1 < h.first
  address : ∀ pair ∈ t.phase.loadedPair, pair.2.address < t.addresses ∧
    ∀ w b, t.bindings w = some b → b.address = pair.2.address → w = pair.1

structure TickerInvariant (t : WorldBlockEntityTickers H P T) (h : TickerHistory H P T) : Prop where
  bound : Bound t
  ordered : Ordered t h
  seen : Seen t h
  listed : ∀ w b, t.bindings w = some b → w ∈ t.order
  registered : ∀ p, h.registered p = (t.state.byPos p).bind t.bindings

variable {t t' : WorldBlockEntityTickers H P T} {h : TickerHistory H P T}

theorem TickerHistory.Earlier.ne {w w' : ℕ} (hlt : h.Earlier w w') : w ≠ w' := by
  rintro rfl
  rcases hlt with hplace | ⟨-, hlt⟩
  · exact lt_irrefl _ hplace
  · exact lt_irrefl _ hlt

theorem Ordered.nodup (ho : Ordered t h) : t.order.Nodup := ho.sorted.imp fun hlt => hlt.ne

theorem tickerInvariant_new :
    TickerInvariant (WorldBlockEntityTickers.new : WorldBlockEntityTickers H P T)
      new where
  bound := ⟨nofun, nofun, nofun, nofun⟩
  ordered := ⟨rfl, fun _ => rfl, .nil, nofun, nofun, nofun, nofun, le_refl _, fun _ => nofun⟩
  seen := ⟨.nil, .nil, nofun, nofun, nofun, nofun, nofun⟩
  listed := nofun
  registered _ := rfl

/-- Bindings disappear, or come from the same wrapper and position, or are those of new wrappers. An
address that is not old is at least `n`. -/
def Evolves (n : ℕ) (t t' : WorldBlockEntityTickers H P T) : Prop :=
  ∀ w b', t'.bindings w = some b' →
    (∃ b, t.bindings w = some b ∧ b.blockPos = b'.blockPos ∧
      (b'.address = b.address ∨ n ≤ b'.address)) ∨
    t.wrappers ≤ w ∧ n ≤ b'.address

theorem Seen.evolve {n : ℕ} (hs : Seen t h) (hfirst : h.first ≤ t.wrappers)
    (hevolves : Evolves n t t') (hphase : t'.phase = t.phase)
    (haddresses : t.addresses ≤ t'.addresses)
    (hn : ∀ pair ∈ t.phase.loadedPair, pair.2.address < n) : Seen t' h := by
  constructor
  · rw [hphase]
    exact hs.sorted
  · rw [hphase]
    exact hs.positions
  · rw [hphase]
    exact hs.behind
  · rw [hphase]
    intro pair hpair b' hb'
    rcases hevolves _ _ hb' with ⟨b, hb, hpos, -⟩ | ⟨hnew, -⟩
    · exact hpos.symm.trans (hs.same pair hpair b hb)
    · exact absurd (hs.lt pair hpair) (not_lt.2 (hfirst.trans hnew))
  · rw [hphase]
    intro pair hpair w b' hw hb' hpos'
    rcases hevolves _ _ hb' with ⟨b, hb, hpos, -⟩ | ⟨hnew, -⟩
    · exact hs.only pair hpair w b hw hb (hpos.trans hpos')
    · exact absurd hw (not_lt.2 (hfirst.trans hnew))
  · rw [hphase]
    exact hs.lt
  · rw [hphase]
    intro pair hpair
    obtain ⟨hlt, honly⟩ := hs.address pair hpair
    refine ⟨hlt.trans_le haddresses, fun w b' hb' haddress => ?_⟩
    have hold := hn pair hpair
    rcases hevolves _ _ hb' with ⟨b, hb, -, heq | hge⟩ | ⟨-, hge⟩
    · exact honly w b hb (heq.symm.trans haddress)
    · exact absurd hold (not_lt.2 (haddress ▸ hge))
    · exact absurd hold (not_lt.2 (haddress ▸ hge))

section Primitives

variable [DecidableEq P] {p : P} {w : ℕ} {binding : BoundBlockEntityTicker H P T}

/-- The address of the binding is newer than all others. -/
structure FreshAddress (t : WorldBlockEntityTickers H P T)
    (binding : BoundBlockEntityTicker H P T) : Prop where
  lt : binding.address < t.addresses
  bound : ∀ w b, t.bindings w = some b → b.address < binding.address
  loaded : ∀ pair ∈ t.phase.loadedPair, pair.2.address < binding.address

variable {b : BoundBlockEntityTicker H P T} {w' : ℕ}

/-- A wrapper that is bound after another one has been unregistered has been bound before. -/
theorem bindings_of_unregister
    (hb : (t.unregister p w).bindings w' = some b) : w' ≠ w ∧ t.bindings w' = some b := by
  rw [bindings_unregister] at hb
  by_cases hne : w' = w
  · subst hne
    rw [update_self] at hb
    cases hb
  · rw [update_of_ne hne] at hb
    exact ⟨hne, hb⟩

omit [DecidableEq P] in
theorem Bound.ne_of_pos (hb : Bound t) {p' : P} (hw : t.state.byPos p = some w)
    (hw' : t.state.byPos p' = some w') (hne : p' ≠ p) : w' ≠ w := by
  rintro rfl
  obtain ⟨b, hbound, hpos⟩ := hb.mapped p w' hw
  obtain ⟨b', hbound', hpos'⟩ := hb.mapped p' w' hw'
  obtain rfl := Option.some.inj (hbound.symm.trans hbound')
  exact hne (hpos'.symm.trans hpos)

theorem Bound.unregister (hb : Bound t) (hw : t.state.byPos p = some w) :
    Bound (t.unregister p w) := by
  constructor
  · intro w' b hb'
    obtain ⟨hne, hbound⟩ := bindings_of_unregister hb'
    have hpos : b.blockPos ≠ p := by
      rintro rfl
      exact hne (Option.some.inj ((hb.bound w' b hbound).symm.trans hw))
    rw [byPos_unregister, update_of_ne hpos]
    exact hb.bound w' b hbound
  · intro p' w' hw'
    rw [byPos_unregister] at hw'
    have hne : p' ≠ p := by
      rintro rfl
      rw [update_self] at hw'
      cases hw'
    rw [update_of_ne hne] at hw'
    obtain ⟨b, hbound, hpos⟩ := hb.mapped p' w' hw'
    refine ⟨b, ?_, hpos⟩
    rwa [bindings_unregister,
      update_of_ne (hb.ne_of_pos hw hw' hne)]
  · exact fun w' b hb' => hb.lt w' b (bindings_of_unregister hb').2
  · intro w₁ w₂ b₁ b₂ h₁ h₂
    exact hb.distinct w₁ w₂ b₁ b₂ (bindings_of_unregister h₁).2 (bindings_of_unregister h₂).2

theorem evolves_unregister (n : ℕ) : Evolves n t (t.unregister p w) :=
  fun _ b hb => .inl ⟨b, (bindings_of_unregister hb).2, rfl, .inl rfl⟩

theorem TickerInvariant.unregister (hi : TickerInvariant t h) (hw : t.state.byPos p = some w) :
    TickerInvariant (t.unregister p w)
      { h with registered := update h.registered p none } := by
  constructor
  · exact hi.bound.unregister hw
  · exact { hi.ordered with }
  · exact { hi.seen.evolve hi.ordered.first_le (evolves_unregister t.addresses) rfl
      (le_refl _) fun pair hpair => (hi.seen.address pair hpair).1 with }
  · exact fun w' b hb => hi.listed w' b (bindings_of_unregister hb).2
  · intro p'
    rw [byPos_unregister, bindings_unregister]
    by_cases hp : p' = p
    · subst hp
      simp [update_self]
    · rw [update_of_ne hp]
      show update h.registered p none p' = _
      rw [update_of_ne hp, hi.registered p']
      cases hw' : t.state.byPos p' with
      | none => rfl
      | some w' =>
        rw [bind_some, bind_some,
          update_of_ne (hi.bound.ne_of_pos hw hw' hp)]

omit [DecidableEq P] in
/-- What is bound after a wrapper has been given a binding. -/
theorem bindings_of_update (hb : update t.bindings w (some binding) w' = some b) :
    w' = w ∧ b = binding ∨ w' ≠ w ∧ t.bindings w' = some b := by
  by_cases hne : w' = w
  · subst hne
    rw [update_self] at hb
    exact .inl ⟨rfl, (Option.some.inj hb).symm⟩
  · rw [update_of_ne hne] at hb
    exact .inr ⟨hne, hb⟩

omit [DecidableEq P] in
theorem Bound.distinct_update (hb : Bound t) (hfresh : FreshAddress t binding)
    (w₁ w₂ : ℕ) (b₁ b₂ : BoundBlockEntityTicker H P T)
    (h₁ : update t.bindings w (some binding) w₁ = some b₁)
    (h₂ : update t.bindings w (some binding) w₂ = some b₂)
    (heq : b₁.address = b₂.address) : w₁ = w₂ := by
  rcases bindings_of_update h₁ with ⟨rfl, rfl⟩ | ⟨-, h₁'⟩
  · rcases bindings_of_update h₂ with ⟨rfl, -⟩ | ⟨-, h₂'⟩
    · rfl
    · exact absurd heq.symm (Nat.ne_of_lt (hfresh.bound w₂ b₂ h₂'))
  · rcases bindings_of_update h₂ with ⟨rfl, rfl⟩ | ⟨-, h₂'⟩
    · exact absurd heq (Nat.ne_of_lt (hfresh.bound w₁ b₁ h₁'))
    · exact hb.distinct w₁ w₂ b₁ b₂ h₁' h₂' heq

theorem TickerInvariant.rebind (hi : TickerInvariant t h)
    (hw : t.state.byPos binding.blockPos = some w) (hfresh : FreshAddress t binding) :
    TickerInvariant (t.rebind w binding)
      { h with registered := update h.registered binding.blockPos (some binding) } := by
  obtain ⟨old, hold, hpos⟩ := hi.bound.mapped _ w hw
  have hevolves : Evolves binding.address t (t.rebind w binding) := by
    intro w' b hb
    rcases bindings_of_update hb with ⟨rfl, rfl⟩ | ⟨-, hb'⟩
    · exact .inl ⟨old, hold, hpos, .inr (le_refl _)⟩
    · exact .inl ⟨b, hb', rfl, .inl rfl⟩
  constructor
  · constructor
    · intro w' b hb
      rcases bindings_of_update hb with ⟨rfl, rfl⟩ | ⟨-, hb'⟩
      · exact hw
      · exact hi.bound.bound w' b hb'
    · intro p' w' hw'
      obtain ⟨b, hb, hpos'⟩ := hi.bound.mapped p' w' hw'
      rw [bindings_rebind]
      by_cases hne : w' = w
      · subst hne
        obtain rfl := Option.some.inj (hold.symm.trans hb)
        exact ⟨binding, update_self .., hpos.symm.trans hpos'⟩
      · exact ⟨b, by rwa [update_of_ne hne], hpos'⟩
    · intro w' b hb
      rcases bindings_of_update hb with ⟨rfl, rfl⟩ | ⟨-, hb'⟩
      · exact ⟨(hi.bound.lt w' old hold).1, hfresh.lt⟩
      · exact hi.bound.lt w' b hb'
    · exact hi.bound.distinct_update hfresh
  · exact { hi.ordered with }
  · exact { hi.seen.evolve hi.ordered.first_le hevolves rfl (le_refl _) hfresh.loaded with }
  · intro w' b hb
    rcases bindings_of_update hb with ⟨rfl, -⟩ | ⟨-, hb'⟩
    · exact hi.listed w' old hold
    · exact hi.listed w' b hb'
  · intro p'
    show update h.registered binding.blockPos (some binding) p' =
      (t.state.byPos p').bind (t.rebind w binding).bindings
    rw [bindings_rebind]
    by_cases hp : p' = binding.blockPos
    · subst hp
      rw [update_self, hw, bind_some, update_self]
    · rw [update_of_ne hp, hi.registered p']
      cases hw' : t.state.byPos p' with
      | none => rfl
      | some w' =>
        rw [bind_some, bind_some,
          update_of_ne (hi.bound.ne_of_pos hw hw' hp)]

theorem FreshAddress.unregister {p : P} {w : ℕ} {binding : BoundBlockEntityTicker H P T}
    (hf : FreshAddress t binding) : FreshAddress (t.unregister p w) binding :=
  ⟨hf.lt, fun w' b hb => hf.bound w' b (bindings_of_unregister hb).2, hf.loaded⟩

def TickerHistory.nextPlace (h : TickerHistory H P T) (t : WorldBlockEntityTickers H P T) : ℕ :=
  2 * h.phases + if t.state.ticking then 1 else 0

def TickerHistory.withPlace (h : TickerHistory H P T) (t : WorldBlockEntityTickers H P T) :
    TickerHistory H P T :=
  { h with place := update h.place t.wrappers (h.nextPlace t) }

omit [DecidableEq P] in
theorem TickerHistory.place_withPlace (hw : w' < t.wrappers) :
    (h.withPlace t).place w' = h.place w' :=
  update_of_ne (Nat.ne_of_lt hw) ..

omit [DecidableEq P] in
theorem TickerHistory.pairwise_withPlace {l : List ℕ} (hl : ∀ w ∈ l, w < t.wrappers)
    (hsorted : l.Pairwise h.Earlier) : l.Pairwise (h.withPlace t).Earlier := by
  refine hsorted.imp_of_mem fun {a b} ha hb hlt => ?_
  unfold TickerHistory.Earlier
  rwa [place_withPlace (hl a ha), place_withPlace (hl b hb)]

theorem phase_register : (t.register binding).phase = t.phase := rfl

omit [DecidableEq P] in
theorem Ordered.wrappers_of_not_ticking (ho : Ordered t h) (hticking : t.state.ticking = false) :
    t.phase.wrappers = [] := by
  have hidle := ho.ticking
  rw [hticking] at hidle
  cases hphase : t.phase with
  | idle => rfl
  | _ => rw [hphase] at hidle; cases hidle

variable (binding) in
/-- A new wrapper comes behind all others that have no later place. -/
theorem Ordered.exists_register (ho : Ordered t h) : ∃ front back, t.order = front ++ back ∧
    (t.register binding).order = front ++ t.wrappers :: back ∧
    (∀ w ∈ front, h.place w ≤ h.nextPlace t) ∧ ∀ w ∈ back, h.nextPlace t < h.place w := by
  unfold order nextPlace
  rw [phase_register]
  cases hticking : t.state.ticking with
  | true =>
    refine ⟨_, [], (append_nil _).symm, ?_, ?_, nofun⟩
    · simp [WorldBlockEntityTickers.register, hticking]
    · intro w hw
      rcases mem_append.1 hw with hw | hw
      · rcases mem_append.1 hw with hw | hw
        · exact le_succ_of_le (ho.active_le w hw)
        · exact le_succ_of_le (le_of_lt (ho.taken_lt w hw).1)
      · exact le_of_eq (ho.pending_eq w hw)
  | false =>
    rw [ho.wrappers_of_not_ticking hticking, if_neg Bool.false_ne_true]
    refine ⟨t.state.active, t.state.pending, by rw [append_nil], ?_, ho.active_le, ?_⟩
    · simp [WorldBlockEntityTickers.register, hticking]
    · intro w hw
      rw [ho.pending_eq w hw]
      exact lt_succ_self _

theorem Ordered.register (ho : Ordered t h) : Ordered (t.register binding) (h.withPlace t) := by
  obtain ⟨front, back, horder, horder', hfront, hback⟩ := ho.exists_register binding
  have hnew : (h.withPlace t).place t.wrappers = h.nextPlace t := update_self ..
  have hplace : ∀ w ∈ t.order, (h.withPlace t).place w = h.place w := fun w hw =>
    place_withPlace (ho.lt w hw)
  have hplaceActive : ∀ w ∈ t.state.active, (h.withPlace t).place w = h.place w := fun w hw =>
    hplace w (mem_append_left _ (mem_append_left _ hw))
  have hplacePending : ∀ w ∈ t.state.pending, (h.withPlace t).place w = h.place w := fun w hw =>
    hplace w (mem_append_right _ hw)
  have hactive : ∀ w ∈ (t.register binding).state.active,
      w ∈ t.state.active ∨ w = t.wrappers ∧ t.state.ticking = false := by
    intro w hw
    cases hticking : t.state.ticking <;>
      simpa only [WorldBlockEntityTickers.register, hticking, if_true, Bool.false_eq_true, if_false,
        mem_append, mem_singleton, and_true, and_false, or_false, reduceCtorEq] using hw
  have hpending : ∀ w ∈ (t.register binding).state.pending,
      w ∈ t.state.pending ∨ w = t.wrappers ∧ t.state.ticking = true := by
    intro w hw
    cases hticking : t.state.ticking <;>
      simpa only [WorldBlockEntityTickers.register, hticking, if_true, Bool.false_eq_true, if_false,
        mem_append, mem_singleton, and_true, and_false, or_false, reduceCtorEq] using hw
  constructor
  · exact ho.ticking
  · intro hidle
    have hticking : t.state.ticking = true := by
      rw [ho.ticking, show t.phase.isIdle = false from hidle]
      rfl
    simp only [WorldBlockEntityTickers.register, hticking, if_true]
    exact ho.active hidle
  · have hsorted := pairwise_withPlace ho.lt ho.sorted
    rw [horder, pairwise_append] at hsorted
    rw [horder', pairwise_append, pairwise_cons]
    refine ⟨hsorted.1, ⟨fun w hw => .inl ?_, hsorted.2.1⟩, fun w hw w' hw' => ?_⟩
    · rw [hnew, hplace w (horder ▸ mem_append_right _ hw)]
      exact hback w hw
    · rcases mem_cons.1 hw' with rfl | hw'
      · have hmem : w ∈ t.order := horder ▸ mem_append_left _ hw
        rcases lt_or_eq_of_le (hfront w hw) with hless | heq
        · exact .inl (by rwa [hplace w hmem, hnew])
        · exact .inr ⟨by rw [hplace w hmem, hnew, heq], ho.lt w hmem⟩
      · exact hsorted.2.2 w hw w' hw'
  · intro w hw
    rw [horder', mem_append, mem_cons, or_left_comm, ← mem_append, ← horder] at hw
    rcases hw with rfl | hw
    · exact lt_succ_self _
    · exact lt_succ_of_lt (ho.lt w hw)
  · intro w hw
    rcases hactive w hw with hw | ⟨rfl, hticking⟩
    · rw [hplaceActive w hw]
      exact ho.active_le w hw
    · rw [hnew, nextPlace, hticking]
      exact le_refl _
  · intro w hw
    rw [hplace w (mem_append_left _ (mem_append_right _ hw))]
    exact ho.taken_lt w hw
  · intro w hw
    rcases hpending w hw with hw | ⟨rfl, hticking⟩
    · rw [hplacePending w hw]
      exact ho.pending_eq w hw
    · rw [hnew, nextPlace, hticking]
      rfl
  · exact le_succ_of_le ho.first_le
  · intro hidle w hw
    rcases hpending w hw with hw | ⟨rfl, -⟩
    · exact ho.pending_ge hidle w hw
    · exact ho.first_le

theorem TickerInvariant.register (hi : TickerInvariant t h)
    (hw : t.state.byPos binding.blockPos = none) (hfresh : FreshAddress t binding) :
    TickerInvariant (t.register binding) { h.withPlace t with
      registered := update h.registered binding.blockPos (some binding) } := by
  have hevolves : Evolves binding.address t (t.register binding) := by
    intro w b hb
    rcases bindings_of_update hb with ⟨rfl, rfl⟩ | ⟨-, hb'⟩
    · exact .inr ⟨le_refl _, le_refl _⟩
    · exact .inl ⟨b, hb', rfl, .inl rfl⟩
  have hordered : Ordered (t.register binding) (h.withPlace t) := hi.ordered.register
  have hseen := hi.seen.evolve hi.ordered.first_le hevolves rfl (le_refl _) hfresh.loaded
  constructor
  · constructor
    · intro w b hb
      rw [byPos_register]
      rcases bindings_of_update hb with ⟨rfl, rfl⟩ | ⟨-, hb'⟩
      · exact update_self ..
      · have hbound := hi.bound.bound w b hb'
        have hpos : b.blockPos ≠ binding.blockPos := by
          intro heq
          rw [heq, hw] at hbound
          cases hbound
        rwa [update_of_ne hpos]
    · intro p' w' hw'
      rw [byPos_register] at hw'
      rw [bindings_register]
      by_cases hp : p' = binding.blockPos
      · subst hp
        rw [update_self] at hw'
        obtain rfl := Option.some.inj hw'
        exact ⟨binding, update_self .., rfl⟩
      · rw [update_of_ne hp] at hw'
        obtain ⟨b, hb, hpos⟩ := hi.bound.mapped p' w' hw'
        have hne := Nat.ne_of_lt (hi.bound.lt w' b hb).1
        exact ⟨b, by rwa [update_of_ne hne], hpos⟩
    · intro w b hb
      rcases bindings_of_update hb with ⟨rfl, rfl⟩ | ⟨-, hb'⟩
      · exact ⟨lt_succ_self _, hfresh.lt⟩
      · exact ⟨lt_succ_of_lt (hi.bound.lt w b hb').1, (hi.bound.lt w b hb').2⟩
    · exact hi.bound.distinct_update hfresh
  · exact { hordered with }
  · have hlt : ∀ w ∈ h.ticked.map fst ++ t.phase.ahead, w < t.wrappers := by
      intro w hw
      rcases mem_append.1 hw with hw | hw
      · obtain ⟨pair, hpair, rfl⟩ := List.mem_map.1 hw
        exact (hi.seen.lt pair (mem_append_left _ hpair)).trans_le hi.ordered.first_le
      · refine hi.ordered.lt w (mem_append_left _ (mem_append_right _ ?_))
        cases hphase : t.phase with
        | idle => rw [hphase] at hw; cases hw
        | iterating iteration =>
          rw [hphase] at hw
          exact mem_append_right _ hw
        | loaded iteration wrapper b =>
          rw [hphase] at hw
          exact mem_append_right _ hw
        | removing iteration wrapper b | called iteration wrapper =>
          rw [hphase] at hw
          exact mem_append_right _ (mem_cons_of_mem _ hw)
    exact { hseen with sorted := pairwise_withPlace hlt hi.seen.sorted }
  · intro w b hb
    obtain ⟨front, back, horder, horder', -⟩ := hi.ordered.exists_register binding
    rw [horder', mem_append, mem_cons, or_left_comm, ← mem_append, ← horder]
    exact (bindings_of_update hb).imp And.left fun hb' => hi.listed w b hb'.2
  · intro p'
    show update h.registered binding.blockPos (some binding) p' = _
    rw [byPos_register, bindings_register]
    by_cases hp : p' = binding.blockPos
    · subst hp
      rw [update_self, update_self, bind_some, update_self]
    · rw [update_of_ne hp, update_of_ne hp, hi.registered p']
      cases hw' : t.state.byPos p' with
      | none => rfl
      | some w' =>
        obtain ⟨b, hb, -⟩ := hi.bound.mapped p' w' hw'
        have hne := Nat.ne_of_lt (hi.bound.lt w' b hb).1
        rw [bind_some, bind_some, update_of_ne hne]

end Primitives

section Commands

theorem TickerInvariant.bump (hi : TickerInvariant t h) :
    TickerInvariant { t with addresses := t.addresses + 1 } h := by
  constructor
  · exact { hi.bound with
      lt := fun w b hb => ⟨(hi.bound.lt w b hb).1, lt_succ_of_lt (hi.bound.lt w b hb).2⟩ }
  · exact { hi.ordered with }
  · exact { hi.seen with
      address := fun pair hpair => ⟨lt_succ_of_lt (hi.seen.address pair hpair).1,
        (hi.seen.address pair hpair).2⟩ }
  · exact hi.listed
  · exact hi.registered

theorem TickerInvariant.freshAddress (hi : TickerInvariant t h) (holder : H) (entity : ℕ) (p : P)
    (ticker : T) : FreshAddress { t with addresses := t.addresses + 1 }
      ⟨t.addresses, holder, entity, p, ticker⟩ :=
  ⟨lt_succ_self _, fun w b hb => (hi.bound.lt w b hb).2,
    fun pair hpair => (hi.seen.address pair hpair).1⟩

variable [DecidableEq H]

theorem TickerInvariant.belongsTo_eq (hi : TickerInvariant t h) {p : P} {w : ℕ}
    (hw : t.state.byPos p = some w) (holder : H) :
    t.belongsTo w holder = (h.registered p).any fun b => decide (b.holder = holder) := by
  rw [hi.registered p, hw, bind_some]
  rfl

variable [DecidableEq P]

theorem TickerInvariant.remove (hi : TickerInvariant t h) (holder : H) (p : P) :
    TickerInvariant (t.remove holder p) (h.removed holder p) := by
  unfold WorldBlockEntityTickers.remove removed
  cases hw : t.state.byPos p with
  | none =>
    have hnone : h.registered p = none := by
      rw [hi.registered p, hw]
      rfl
    rw [hnone]
    exact hi
  | some w =>
    show TickerInvariant (if t.belongsTo w holder then t.unregister p w else t) _
    rw [hi.belongsTo_eq hw holder]
    by_cases howns : (h.registered p).any (fun b => decide (b.holder = holder)) = true
    · rw [if_pos howns]
      simp only [if_pos howns]
      exact hi.unregister hw
    · rw [if_neg howns]
      simp only [if_neg howns]
      exact hi

theorem wrappers_remove (holder : H) (p : P) : (t.remove holder p).wrappers = t.wrappers := by
  unfold WorldBlockEntityTickers.remove
  cases t.state.byPos p with
  | none => rfl
  | some w =>
    show (if t.belongsTo w holder then t.unregister p w else t).wrappers = t.wrappers
    split <;> rfl

theorem TickerInvariant.removePositions (hi : TickerInvariant t h) (holder : H)
    (positions : List P) : TickerInvariant (t.removePositions holder positions)
      (positions.foldl (fun history pos => history.removed holder pos) h) := by
  induction positions generalizing t h with
  | nil => exact hi
  | cons p positions ih => exact ih (hi.remove holder p)

theorem TickerInvariant.reconcile (hi : TickerInvariant t h) (holder : H) (entity : ℕ) (p : P)
    (ticker : Option T) :
    TickerInvariant (t.step (.reconcile holder entity p ticker))
      (h.observe t (.reconcile holder entity p ticker)) := by
  cases ticker with
  | none =>
    have hplaced : h.placed t (t.remove holder p) = h := if_pos (wrappers_remove holder p)
    show TickerInvariant (t.remove holder p) ((h.placed t (t.remove holder p)).removed holder p)
    rw [hplaced]
    exact hi.remove holder p
  | some ticker =>
    have hbump := hi.bump
    have hfresh := hi.freshAddress holder entity p ticker
    generalize hbinding : (⟨t.addresses, holder, entity, p, ticker⟩ :
      BoundBlockEntityTicker H P T) = binding at hfresh
    have hpos : binding.blockPos = p := by rw [← hbinding]
    generalize ht₁ : ({ t with addresses := t.addresses + 1 } :
      WorldBlockEntityTickers H P T) = t₁ at hbump hfresh
    have hstep : t.step (.reconcile holder entity p (some ticker)) =
        (t₁.state.byPos p).elim (t₁.register binding) fun w =>
          if t₁.belongsTo w holder then t₁.rebind w binding
          else (t₁.unregister p w).register binding := by
      rw [← ht₁, ← hbinding]
      simp only [step, WorldBlockEntityTickers.reconcile]
      cases t.state.byPos p <;> rfl
    have hobserve : h.observe t (.reconcile holder entity p (some ticker)) =
        { h.placed t (t.step (.reconcile holder entity p (some ticker))) with
          registered := update
            (h.placed t (t.step (.reconcile holder entity p (some ticker)))).registered p
            (some binding) } := by
      rw [← hbinding]
      rfl
    have hregister : ∀ t₂ : WorldBlockEntityTickers H P T, t₂.wrappers = t.wrappers →
        h.placed t (t₂.register binding) = h.withPlace t := by
      intro t₂ hwrappers
      refine if_neg ?_
      show ¬ t₂.wrappers + 1 = t.wrappers
      omega
    have hplace : h.withPlace t₁ = h.withPlace t := by
      rw [← ht₁]
      rfl
    have hwrappers : t₁.wrappers = t.wrappers := by rw [← ht₁]
    cases hw : t₁.state.byPos p with
    | none =>
      rw [hw, Option.elim_none] at hstep
      rw [hobserve, hstep, hregister t₁ hwrappers, ← hplace, ← hpos]
      exact hbump.register (by rw [hpos, hw]) hfresh
    | some w =>
      rw [hw, Option.elim_some] at hstep
      by_cases howns : t₁.belongsTo w holder = true
      · simp only [howns, if_true] at hstep
        have hplaced : h.placed t (t₁.rebind w binding) = h := if_pos hwrappers
        rw [hobserve, hstep, hplaced, ← hpos]
        exact hbump.rebind (by rw [hpos, hw]) hfresh
      · rw [Bool.not_eq_true] at howns
        simp only [howns, Bool.false_eq_true, if_false] at hstep
        rw [hobserve, hstep, hregister (t₁.unregister p w) hwrappers]
        have hnone : (t₁.unregister p w).state.byPos binding.blockPos = none := by
          rw [byPos_unregister, hpos, update_self]
        have hregistered := (hbump.unregister hw).register hnone hfresh.unregister
        have heq : ({ (({ h with registered := update h.registered p none } :
            TickerHistory H P T).withPlace (t₁.unregister p w)) with
            registered := update (update h.registered p none)
              binding.blockPos (some binding) } : TickerHistory H P T) =
            { h.withPlace t with
              registered := update (h.withPlace t).registered p (some binding) } := by
          rw [hpos, update_idem, ← hplace]
          rfl
        exact heq ▸ hregistered

end Commands

section Phases

variable {iteration : TickerIteration} {w : ℕ} {binding : BoundBlockEntityTicker H P T}

variable {phase : TickerPhase H P T}

/-- A phase goes on with wrappers that it has had. -/
theorem Ordered.advance (ho : Ordered t h)
    (hidle : t.phase.isIdle = false) (hidle' : phase.isIdle = false)
    (hwrappers : phase.wrappers.Sublist t.phase.wrappers) :
    Ordered { t with phase := phase } h := by
  have horder : (order { t with phase := phase }).Sublist t.order :=
    (hwrappers.append_left _).append_right _
  constructor
  · rw [ho.ticking, hidle, hidle']
  · exact fun _ => ho.active hidle
  · exact ho.sorted.sublist horder
  · exact fun v hv => ho.lt v (horder.subset hv)
  · exact ho.active_le
  · exact fun v hv => ho.taken_lt v (hwrappers.subset hv)
  · exact ho.pending_eq
  · exact ho.first_le
  · exact fun _ => ho.pending_ge hidle

/-- What a phase has loaded may be forgotten. -/
theorem Seen.advance (hs : Seen t h)
    (hahead : phase.ahead.Sublist t.phase.ahead) (hnext : phase.next.Sublist t.phase.next)
    (hloaded : phase.loadedPair ⊆ t.phase.loadedPair) (hbehind : phase.behind ⊆ t.phase.behind) :
    Seen { t with phase := phase } h := by
  have hpairs : h.ticked ++ phase.loadedPair ⊆ h.ticked ++ t.phase.loadedPair :=
    append_subset.2 ⟨subset_append_left _ _,
      fun _ hpair => subset_append_right _ _ (hloaded hpair)⟩
  constructor
  · exact hs.sorted.sublist (hahead.append_left _)
  · exact hs.positions.sublist ((hnext.append_left _).map _)
  · exact fun v hv => hs.behind v (hbehind hv)
  · exact fun pair hpair => hs.same pair (hpairs hpair)
  · exact fun pair hpair => hs.only pair (hpairs hpair)
  · exact fun pair hpair => hs.lt pair (hpairs hpair)
  · exact fun pair hpair => hs.address pair (hloaded hpair)

section

variable (hi : TickerInvariant t h)

include hi

/-- Only wrappers that are no longer bound may be left out. -/
theorem TickerInvariant.listed_advance
    (hkept : ∀ w ∈ t.phase.wrappers, (t.bindings w).isSome = true → w ∈ phase.wrappers) (w : ℕ)
    (b : BoundBlockEntityTicker H P T) (hb : t.bindings w = some b) :
    w ∈ order { t with phase := phase } := by
  have hmem := hi.listed w b hb
  simp only [order, mem_append] at hmem ⊢
  exact hmem.imp_left (Or.imp_right fun hw => hkept w hw (by rw [hb]; rfl))

theorem TickerInvariant.advance
    (hordered : Ordered { t with phase := phase } h) (hseen : Seen { t with phase := phase } h)
    (hkept : ∀ w ∈ t.phase.wrappers, (t.bindings w).isSome = true → w ∈ phase.wrappers) :
    TickerInvariant { t with phase := phase } h :=
  ⟨{ hi.bound with }, hordered, hseen, hi.listed_advance hkept, hi.registered⟩

/-- A phase that goes on with the same wrappers. -/
theorem TickerInvariant.rephase (phase : TickerPhase H P T) (hidle : t.phase.isIdle = false)
    (hidle' : phase.isIdle = false) (hwrappers : t.phase.wrappers = phase.wrappers) :
    Ordered { t with phase := phase } h ∧ ∀ w ∈ t.phase.wrappers, w ∈ phase.wrappers := by
  refine ⟨hi.ordered.advance hidle hidle' ?_, fun w hw => ?_⟩
  · rw [hwrappers]
  · rwa [← hwrappers]

theorem TickerInvariant.drop
    (hwrappers : t.phase.wrappers = iteration.kept ++ w :: iteration.rest)
    (hidle : t.phase.isIdle = false) (hahead : iteration.rest.Sublist t.phase.ahead)
    (hbehind : (iterating iteration : TickerPhase H P T).behind ⊆ t.phase.behind)
    (hw : t.bindings w = none) : TickerInvariant { t with phase := .iterating iteration } h := by
  refine hi.advance (hi.ordered.advance hidle rfl ?_)
    (hi.seen.advance hahead (nil_sublist _) (nil_subset _) hbehind) ?_
  · rw [hwrappers]
    exact (sublist_cons_self _ _).append_left _
  · intro v hv hbound
    have hne : v ≠ w := by
      rintro rfl
      rw [hw] at hbound
      cases hbound
    rw [hwrappers, mem_append, mem_cons, or_iff_right hne] at hv
    exact mem_append.2 hv

theorem TickerInvariant.load : TickerInvariant t.load h := by
  unfold WorldBlockEntityTickers.load
  rcases hphase : t.phase with _ | ⟨runsNormally, kept, _ | ⟨w, rest⟩⟩ | _ | _ | _
  · exact hi
  · exact hi
  · simp only
    have hidle : t.phase.isIdle = false := congrArg isIdle hphase
    have hahead : t.phase.ahead = w :: rest := congrArg ahead hphase
    have hwrappers : t.phase.wrappers = kept ++ w :: rest := congrArg TickerPhase.wrappers hphase
    have hseen := hi.seen
    have hsorted := hseen.sorted
    have hpositions := hseen.positions
    have hbehind := hseen.behind
    rw [hahead] at hsorted
    rw [show t.phase.next = [] from congrArg TickerPhase.next hphase, append_nil] at hpositions
    rw [hphase] at hbehind
    cases hw : t.bindings w with
    | none =>
      refine hi.drop hwrappers hidle ?_ ?_ hw
      · rw [hahead]
        exact sublist_cons_self _ _
      · rw [hphase]
        exact List.Subset.refl _
    | some binding =>
      have htaken := hi.ordered.taken_lt w (by
        rw [hwrappers]
        exact mem_append_right _ mem_cons_self)
      have hbound := hi.bound.bound w binding hw
      have hticked : ∀ pair ∈ h.ticked, pair ∈ h.ticked ++ t.phase.loadedPair := fun pair hmem =>
        mem_append_left _ hmem
      obtain ⟨hordered, hkept⟩ :=
        hi.rephase (.loaded ⟨runsNormally, kept, rest⟩ w binding) hidle rfl hwrappers
      refine hi.advance hordered ?_ fun v hv _ => hkept v hv
      · constructor
        · exact hsorted
        · simp only [TickerPhase.next, map_append, map_cons, map_nil]
          rw [nodup_append]
          refine ⟨hpositions, pairwise_singleton _ _, ?_⟩
          intro p hp p' hp' heq
          obtain ⟨pair, hmem, rfl⟩ := List.mem_map.1 hp
          obtain rfl := mem_singleton.1 hp'
          have hsame := hseen.only pair (hticked pair hmem) w binding htaken.2 hw heq.symm
          have hearlier := (pairwise_append.1 hsorted).2.2 pair.1
            (List.mem_map_of_mem hmem) w mem_cons_self
          exact hearlier.ne hsame.symm
        · exact hbehind
        · intro pair hmem b hb
          rcases mem_append.1 hmem with hmem | hmem
          · exact hseen.same pair (hticked pair hmem) b hb
          · obtain rfl := mem_singleton.1 hmem
            rw [Option.some.inj (hb.symm.trans hw)]
        · intro pair hmem v b hv hb hpos
          rcases mem_append.1 hmem with hmem | hmem
          · exact hseen.only pair (hticked pair hmem) v b hv hb hpos
          · obtain rfl := mem_singleton.1 hmem
            have hbound' := hi.bound.bound v b hb
            rw [hpos, hbound] at hbound'
            exact (Option.some.inj hbound').symm
        · intro pair hmem
          rcases mem_append.1 hmem with hmem | hmem
          · exact hseen.lt pair (hticked pair hmem)
          · obtain rfl := mem_singleton.1 hmem
            exact htaken.2
        · intro pair hmem
          obtain rfl := mem_singleton.1 hmem
          exact ⟨(hi.bound.lt w binding hw).2, fun v b hb haddress =>
            hi.bound.distinct v w b binding hb hw haddress⟩
  · exact hi
  · exact hi
  · exact hi

theorem TickerInvariant.keep : TickerInvariant t.keep h := by
  unfold WorldBlockEntityTickers.keep
  cases hphase : t.phase with
  | called iteration w =>
    have hidle : t.phase.isIdle = false := congrArg isIdle hphase
    have hahead : t.phase.ahead = iteration.rest := congrArg ahead hphase
    have hwrappers : t.phase.wrappers = iteration.kept ++ w :: iteration.rest :=
      congrArg TickerPhase.wrappers hphase
    have hbehind : t.phase.behind = if iteration.runsNormally then w :: iteration.kept else [] :=
      congrArg behind hphase
    simp only
    cases hw : t.bindings w with
    | none =>
      refine hi.drop hwrappers hidle (by rw [hahead]) ?_ hw
      rw [hbehind, behind]
      split
      · exact subset_cons_self _ _
      · exact nil_subset _
    | some binding =>
      obtain ⟨hordered, hkept⟩ :=
        hi.rephase (.iterating { iteration with kept := iteration.kept ++ [w] }) hidle rfl
          (by rw [hwrappers, TickerPhase.wrappers, append_assoc, singleton_append])
      refine hi.advance hordered
        (hi.seen.advance (by rw [hahead]; exact .refl _) (nil_sublist _) (nil_subset _) ?_)
        fun v hv _ => hkept v hv
      rw [hbehind, behind]
      split
      · intro v hv
        exact mem_cons.2 ((mem_append.1 hv).symm.imp_left mem_singleton.1)
      · exact nil_subset _
  | _ => exact hi

theorem TickerInvariant.finish : TickerInvariant t.finish h := by
  unfold WorldBlockEntityTickers.finish
  rcases hphase : t.phase with _ | ⟨runsNormally, kept, _ | ⟨w, rest⟩⟩ | _ | _ | _
  · exact hi
  · have hidle : t.phase.isIdle = false := congrArg isIdle hphase
    have hwrappers : t.phase.wrappers = kept :=
      (congrArg TickerPhase.wrappers hphase).trans (append_nil kept)
    have hactive := hi.ordered.active hidle
    have horder : t.order = kept ++ t.state.pending := by
      rw [order, hactive, hwrappers, nil_append]
    have horder' : order { t with
        state := { t.state with active := kept, ticking := false }
        phase := .idle } = t.order := by
      rw [horder, order, TickerPhase.wrappers, append_nil]
    have htaken := hi.ordered.taken_lt
    rw [hwrappers] at htaken
    have hseen := hi.seen
    have hticked : ∀ pair ∈ h.ticked, pair ∈ h.ticked ++ t.phase.loadedPair := fun pair hmem =>
      mem_append_left _ hmem
    constructor
    · exact { hi.bound with }
    · constructor
      · rfl
      · exact nofun
      · show List.Pairwise _ (order { t with
          state := { t.state with active := kept, ticking := false }
          phase := .idle })
        rw [horder']
        exact hi.ordered.sorted
      · show ∀ v ∈ order { t with
          state := { t.state with active := kept, ticking := false }
          phase := .idle }, v < t.wrappers
        rw [horder']
        exact hi.ordered.lt
      · exact fun v hv => le_of_lt (htaken v hv).1
      · exact nofun
      · exact hi.ordered.pending_eq
      · exact hi.ordered.first_le
      · exact nofun
    · constructor
      · have hsorted := hseen.sorted
        exact hsorted.sublist (Sublist.append_left (nil_sublist _) _)
      · refine hseen.positions.sublist (List.Sublist.map _ ?_)
        exact (nil_sublist _).append_left _
      · exact nofun
      · show ∀ pair ∈ h.ticked ++ [], _
        rw [append_nil]
        exact fun pair hmem => hseen.same pair (hticked pair hmem)
      · show ∀ pair ∈ h.ticked ++ [], _
        rw [append_nil]
        exact fun pair hmem => hseen.only pair (hticked pair hmem)
      · show ∀ pair ∈ h.ticked ++ [], _
        rw [append_nil]
        exact fun pair hmem => hseen.lt pair (hticked pair hmem)
      · exact nofun
    · intro v b hb
      rw [horder']
      exact hi.listed v b hb
    · exact hi.registered
  · exact hi
  · exact hi
  · exact hi
  · exact hi

end

variable [DecidableEq H] [DecidableEq P]

theorem observe_of_wrappers_eq {action : TickerStep H P T}
    (hwrappers : (t.step action).wrappers = t.wrappers) :
    h.observe t action = h.recorded t action :=
  congrArg (fun history : TickerHistory H P T => history.recorded t action) (if_pos hwrappers)

theorem TickerInvariant.start (hi : TickerInvariant t h) (runsNormally : Bool) :
    TickerInvariant (t.start runsNormally) (h.recorded t (.start runsNormally)) := by
  unfold WorldBlockEntityTickers.start recorded
  cases hphase : t.phase with
  | idle =>
    have horder : t.order = t.state.active ++ t.state.pending := by
      rw [order, hphase, TickerPhase.wrappers, append_nil]
    have hsorted := hi.ordered.sorted
    rw [horder] at hsorted
    have horder' : ∀ v, v ∈ t.state.active ++ t.state.pending → v ∈ t.order := by
      intro v hv
      rwa [horder]
    constructor
    · exact { hi.bound with }
    · constructor
      · rfl
      · exact fun _ => rfl
      · simp only [order, TickerPhase.wrappers, nil_append,
          append_nil]
        exact hsorted
      · simp only [order, TickerPhase.wrappers, nil_append,
          append_nil]
        exact fun v hv => hi.ordered.lt v (horder' v hv)
      · exact nofun
      · intro v hv
        rw [TickerPhase.wrappers, nil_append] at hv
        refine ⟨?_, hi.ordered.lt v (horder' v hv)⟩
        show h.place v < 2 * (h.phases + 1)
        rcases mem_append.1 hv with hv | hv
        · have hle := hi.ordered.active_le v hv
          omega
        · have heq := hi.ordered.pending_eq v hv
          omega
      · exact nofun
      · exact le_refl _
      · exact fun _ => nofun
    · constructor
      · exact hsorted
      · exact .nil
      · intro v hv
        simp only [behind, ite_self] at hv
        cases hv
      · exact nofun
      · exact nofun
      · exact nofun
      · exact nofun
    · intro v b hb
      have hmem := hi.listed v b hb
      rw [horder] at hmem
      simpa only [order, TickerPhase.wrappers, nil_append,
        append_nil] using hmem
    · exact hi.registered
  | _ => exact hi

theorem TickerInvariant.check (hi : TickerInvariant t h) (isRemoved : Bool) :
    TickerInvariant (t.check isRemoved) (h.recorded t (.check isRemoved)) := by
  unfold WorldBlockEntityTickers.check recorded
  cases hphase : t.phase with
  | loaded iteration w binding =>
    have hidle : t.phase.isIdle = false := congrArg isIdle hphase
    have hahead : t.phase.ahead = w :: iteration.rest := congrArg ahead hphase
    have hwrappers : t.phase.wrappers = iteration.kept ++ w :: iteration.rest :=
      congrArg TickerPhase.wrappers hphase
    have hloaded : t.phase.loadedPair = [(w, binding)] := congrArg loadedPair hphase
    have hnext : t.phase.next = [(w, binding)] := congrArg TickerPhase.next hphase
    have hbehind : t.phase.behind = (iterating iteration : TickerPhase H P T).behind :=
      (congrArg behind hphase).trans rfl
    have hseen := hi.seen
    have hforget : t.phase.ahead = [w] ++ iteration.rest := hahead
    cases isRemoved with
    | true =>
      obtain ⟨hordered, hkept⟩ :=
        hi.rephase (.removing iteration w binding) hidle rfl hwrappers
      refine hi.advance hordered (hseen.advance ?_ (nil_sublist _) ?_ ?_)
        fun v hv _ => hkept v hv
      · rw [hforget]
        exact sublist_append_right _ _
      · rw [hloaded]
        exact List.Subset.refl _
      · rw [hbehind]
        exact List.Subset.refl _
    | false =>
      obtain ⟨hordered, hkept⟩ :=
        hi.rephase (.called iteration w) hidle rfl hwrappers
      show TickerInvariant { t with phase := .called iteration w }
        (if (!false && iteration.runsNormally) = true then
          { h with ticked := h.ticked ++ [(w, binding)] } else h)
      cases hruns : iteration.runsNormally with
      | true =>
        have hsame := hseen.same
        have honly := hseen.only
        have hlt := hseen.lt
        have hpositions := hseen.positions
        have hsorted := hseen.sorted
        rw [hloaded] at hsame honly hlt
        rw [hnext] at hpositions
        rw [hahead] at hsorted
        show TickerInvariant { t with phase := .called iteration w }
          { h with ticked := h.ticked ++ [(w, binding)] }
        constructor
        · exact { hi.bound with }
        · exact { hordered with }
        · constructor
          · rw [map_append, append_assoc]
            exact hsorted
          · show List.Nodup (List.map _ (h.ticked ++ [(w, binding)] ++ []))
            rw [append_nil]
            exact hpositions
          · intro v hv
            rw [map_append]
            simp only [behind, hruns, if_true] at hv
            rcases mem_cons.1 hv with rfl | hv
            · exact mem_append_right _ (mem_singleton_self _)
            · refine mem_append_left _ (hseen.behind v ?_)
              rw [hbehind, behind, hruns]
              exact hv
          · rwa [loadedPair, append_nil]
          · rwa [loadedPair, append_nil]
          · rwa [loadedPair, append_nil]
          · exact nofun
        · exact hi.listed_advance fun v hv _ => hkept v hv
        · exact hi.registered
      | false =>
        refine hi.advance hordered (hseen.advance ?_ (nil_sublist _) (nil_subset _) ?_)
          fun v hv _ => hkept v hv
        · rw [hforget]
          exact sublist_append_right _ _
        · simp only [behind, hruns, Bool.false_eq_true, if_false]
          exact nil_subset _
  | _ => exact hi

/-- When the phase comes to remove a wrapper, no other thread has bound it anew since its entity
has been found removed. -/
def notReboundSince (t : WorldBlockEntityTickers H P T) : TickerStep H P T → Bool
  | .removeIfSame =>
    match t.phase with
    | .removing _ wrapper binding =>
      (t.bindings wrapper).all fun bound => decide (bound.address = binding.address)
    | _ => true
  | _ => true

theorem TickerInvariant.removeIfSame (hi : TickerInvariant t h)
    (hguard : notReboundSince t .removeIfSame = true) :
    TickerInvariant t.removeIfSame (h.recorded t .removeIfSame) := by
  unfold notReboundSince at hguard
  unfold WorldBlockEntityTickers.removeIfSame recorded
  cases hphase : t.phase with
  | removing iteration w binding =>
    have hguard' : (t.bindings w).all (fun b => decide (b.address = binding.address)) = true := by
      rw [hphase] at hguard
      exact hguard
    have hidle : t.phase.isIdle = false := congrArg isIdle hphase
    have hahead : t.phase.ahead = iteration.rest := congrArg ahead hphase
    have hwrappers : t.phase.wrappers = iteration.kept ++ w :: iteration.rest :=
      congrArg TickerPhase.wrappers hphase
    have hloaded : t.phase.loadedPair = [(w, binding)] := congrArg loadedPair hphase
    have hbehind : t.phase.behind = (iterating iteration : TickerPhase H P T).behind :=
      (congrArg behind hphase).trans rfl
    have hpair : (w, binding) ∈ h.ticked ++ t.phase.loadedPair := by
      rw [hloaded]
      exact mem_append_right _ (mem_singleton_self _)
    have hdrop : ∀ {t₁ : WorldBlockEntityTickers H P T} {h₁ : TickerHistory H P T},
        TickerInvariant t₁ h₁ → t₁.phase = t.phase → t₁.bindings w = none →
        TickerInvariant { t₁ with phase := .iterating iteration } h₁ := by
      intro t₁ h₁ hi₁ hphase₁ hw
      refine hi₁.drop (by rw [hphase₁, hwrappers]) (by rw [hphase₁, hidle]) ?_ ?_ hw
      · rw [hphase₁, hahead]
      · rw [hphase₁, hbehind]
        exact List.Subset.refl _
    cases hw : t.bindings w with
    | none =>
      have hnot : (h.registered binding.blockPos).map BoundBlockEntityTicker.address ≠
          some binding.address := by
        intro haddress
        obtain ⟨b, hb, heq⟩ := map_eq_some_iff.1 haddress
        rw [hi.registered] at hb
        obtain ⟨v, -, hv⟩ := bind_eq_some_iff.1 hb
        have hsame := (hi.seen.address (w, binding) (by
          rw [hloaded]
          exact mem_singleton_self _)).2 v b hv heq
        rw [show v = w from hsame, hw] at hv
        cases hv
      simp only [hw, map_none, reduceCtorEq, and_false, if_false, if_neg hnot]
      exact hdrop hi rfl hw
    | some b =>
      rw [hw] at hguard'
      have haddress : b.address = binding.address := of_decide_eq_true hguard'
      have hpos : b.blockPos = binding.blockPos := hi.seen.same _ hpair b hw
      have hbyPos : t.state.byPos binding.blockPos = some w := hpos ▸ hi.bound.bound w b hw
      have hregistered : (h.registered binding.blockPos).map BoundBlockEntityTicker.address =
          some binding.address := by
        rw [hi.registered, hbyPos, bind_some, hw, map_some, haddress]
      simp only [hw, hbyPos, map_some, haddress, and_self, if_true, if_pos hregistered]
      exact hdrop (hi.unregister hbyPos) rfl (update_self ..)
  | _ => exact hi

end Phases

section Runs

variable [DecidableEq H] [DecidableEq P]

theorem wrappers_removePositions (holder : H) (positions : List P) :
    (t.removePositions holder positions).wrappers = t.wrappers := by
  induction positions generalizing t with
  | nil => rfl
  | cons p positions ih => exact (@ih (t.remove holder p)).trans (wrappers_remove holder p)

variable {action : TickerStep H P T}

theorem wrappers_step (hne : ∀ holder entity p ticker, action ≠ .reconcile holder entity p ticker) :
    (t.step action).wrappers = t.wrappers := by
  cases action with
  | reconcile holder entity p ticker => exact absurd rfl (hne holder entity p ticker)
  | remove holder p => exact wrappers_remove holder p
  | removePositions holder positions => exact wrappers_removePositions holder positions
  | start runsNormally =>
    simp only [WorldBlockEntityTickers.step, WorldBlockEntityTickers.start]
    split <;> rfl
  | load =>
    simp only [WorldBlockEntityTickers.step, WorldBlockEntityTickers.load]
    split
    · split <;> rfl
    · rfl
  | check isRemoved =>
    simp only [WorldBlockEntityTickers.step, WorldBlockEntityTickers.check]
    split
    · split <;> rfl
    · rfl
  | removeIfSame =>
    simp only [WorldBlockEntityTickers.step, WorldBlockEntityTickers.removeIfSame]
    split
    · split <;> rfl
    · rfl
  | keep =>
    simp only [WorldBlockEntityTickers.step, WorldBlockEntityTickers.keep]
    split
    · split <;> rfl
    · rfl
  | finish =>
    simp only [WorldBlockEntityTickers.step, WorldBlockEntityTickers.finish]
    split <;> rfl

theorem TickerInvariant.step (hi : TickerInvariant t h) (action : TickerStep H P T)
    (hguard : notReboundSince t action = true) :
    TickerInvariant (t.step action) (h.observe t action) := by
  by_cases hreconcile : ∃ holder entity p ticker, action = .reconcile holder entity p ticker
  · obtain ⟨holder, entity, p, ticker, rfl⟩ := hreconcile
    exact hi.reconcile holder entity p ticker
  · rw [observe_of_wrappers_eq (wrappers_step fun holder entity p ticker heq =>
      hreconcile ⟨holder, entity, p, ticker, heq⟩)]
    cases action with
    | reconcile holder entity p ticker => exact absurd ⟨holder, entity, p, ticker, rfl⟩ hreconcile
    | remove holder p => exact hi.remove holder p
    | removePositions holder positions => exact hi.removePositions holder positions
    | start runsNormally => exact hi.start runsNormally
    | load => exact hi.load
    | check isRemoved => exact hi.check isRemoved
    | removeIfSame => exact hi.removeIfSame hguard
    | keep => exact hi.keep
    | finish => exact hi.finish

def runTickers (steps : List (TickerStep H P T)) :
    WorldBlockEntityTickers H P T × TickerHistory H P T :=
  runSteps observedStep (.new, .new) steps

/-- No wrapper is bound anew between the phase's finding its entity removed and its removal. -/
def NeverReboundSince (s : WorldBlockEntityTickers H P T × TickerHistory H P T)
    (action : TickerStep H P T) : Prop :=
  notReboundSince s.1 action = true

theorem invariant_runTickers {steps : List (TickerStep H P T)}
    (hguard : Guarded observedStep NeverReboundSince (.new, .new) steps) :
    TickerInvariant (runTickers steps).1 (runTickers steps).2 :=
  @Guarded.invariant _ _ observedStep NeverReboundSince _ _ (fun s => TickerInvariant s.1 s.2)
    (fun _ action hi hg => hi.step action hg) hguard tickerInvariant_new

/-- A step concerns a position if it is a command for it, or finds its entity removed. -/
def Touches (s : WorldBlockEntityTickers H P T × TickerHistory H P T) (p : P) :
    TickerStep H P T → Prop
  | .reconcile _ _ blockPos _ => blockPos = p
  | .remove _ pos => pos = p
  | .removePositions _ positions => p ∈ positions
  | .check isRemoved => isRemoved = true ∧
    ∃ iteration wrapper binding, s.1.phase = .loaded iteration wrapper binding ∧
      binding.blockPos = p
  | _ => False

/-- The position keeps its wrapper during the phase that began with these wrappers. -/
structure Standing (p : P) (w first : ℕ)
    (s : WorldBlockEntityTickers H P T × TickerHistory H P T) : Prop where
  busy : s.1.phase.isIdle = false
  first_eq : s.2.first = first
  byPos_eq : s.1.state.byPos p = some w
  not_removing : ∀ iteration wrapper binding, s.1.phase = .removing iteration wrapper binding →
    binding.blockPos ≠ p

theorem byPos_remove_of_ne {p p' : P} (hne : p ≠ p') (holder : H) :
    (t.remove holder p').state.byPos p = t.state.byPos p ∧
      (t.remove holder p').phase = t.phase := by
  unfold WorldBlockEntityTickers.remove
  split
  · exact ⟨rfl, rfl⟩
  · split
    · exact ⟨update_of_ne hne .., rfl⟩
    · exact ⟨rfl, rfl⟩

variable {p : P}

theorem byPos_removePositions_of_not_mem {positions : List P} (hp : p ∉ positions)
    (holder : H) : (t.removePositions holder positions).state.byPos p = t.state.byPos p ∧
      (t.removePositions holder positions).phase = t.phase := by
  induction positions generalizing t with
  | nil => exact ⟨rfl, rfl⟩
  | cons p' positions ih =>
    have hne : p ≠ p' := fun heq => hp (heq ▸ mem_cons_self)
    have hnot : p ∉ positions := fun hmem => hp (mem_cons_of_mem p' hmem)
    obtain ⟨hbyPos, hphase⟩ := @ih (t.remove holder p') hnot
    obtain ⟨hbyPos', hphase'⟩ := @byPos_remove_of_ne _ _ _ t _ _ p p' hne holder
    exact ⟨hbyPos.trans hbyPos', hphase.trans hphase'⟩

theorem byPos_reconcile_of_ne {p p' : P} (hne : p ≠ p') (holder : H) (entity : ℕ)
    (ticker : Option T) :
    (t.reconcile holder entity p' ticker).state.byPos p = t.state.byPos p ∧
      (t.reconcile holder entity p' ticker).phase = t.phase := by
  unfold WorldBlockEntityTickers.reconcile
  cases ticker with
  | none => exact byPos_remove_of_ne hne holder
  | some ticker =>
    simp only
    split
    · split
      · exact ⟨rfl, rfl⟩
      · refine ⟨?_, rfl⟩
        rw [byPos_register, update_of_ne hne,
          byPos_unregister, update_of_ne hne]
    · refine ⟨?_, rfl⟩
      rw [byPos_register, update_of_ne hne]

theorem first_removed (holder : H) (p : P) : (h.removed holder p).first = h.first := by
  unfold removed
  split <;> rfl

theorem first_foldl_removed (holder : H) (positions : List P) :
    (positions.foldl (fun history pos => history.removed holder pos) h).first = h.first := by
  induction positions generalizing h with
  | nil => rfl
  | cons p positions ih => exact (@ih (h.removed holder p)).trans (first_removed holder p)

theorem first_observe (hbusy : t.phase.isIdle = false) (action : TickerStep H P T) :
    (h.observe t action).first = h.first := by
  have hplaced : (h.placed t (t.step action)).first = h.first := by
    unfold placed
    split <;> rfl
  rw [← hplaced, observe]
  cases action with
  | reconcile holder entity p ticker =>
    cases ticker with
    | none => exact first_removed holder p
    | some ticker => rfl
  | remove holder p => exact first_removed holder p
  | removePositions holder positions => exact first_foldl_removed holder positions
  | start runsNormally =>
    unfold recorded
    cases hphase : t.phase with
    | idle =>
      rw [hphase] at hbusy
      cases hbusy
    | _ => rfl
  | check isRemoved =>
    unfold recorded
    simp only
    split
    · split <;> rfl
    · rfl
  | removeIfSame =>
    unfold recorded
    simp only
    split
    · split <;> rfl
    · rfl
  | load | keep | finish => rfl

/-- A step that does not concern the position and does not end the phase leaves its wrapper. -/
theorem Standing.step {w first : ℕ}
    {s : WorldBlockEntityTickers H P T × TickerHistory H P T} (hs : Standing p w first s)
    (htouch : ¬ Touches s p action) (hfinish : action ≠ .finish) :
    Standing p w first (observedStep s action) := by
  obtain ⟨t, h⟩ := s
  have hfirst : (h.observe t action).first = first :=
    (first_observe hs.busy action).trans hs.first_eq
  have hcommand : (t.step action).state.byPos p = t.state.byPos p →
      (t.step action).phase = t.phase → Standing p w first (observedStep (t, h) action) := by
    intro hbyPos hphase
    constructor
    · exact (congrArg isIdle hphase).trans hs.busy
    · exact hfirst
    · exact hbyPos.trans hs.byPos_eq
    · intro iteration wrapper binding heq
      exact hs.not_removing iteration wrapper binding (hphase.symm.trans heq)
  have hphase : ∀ phase : TickerPhase H P T, phase.isIdle = false →
      t.step action = { t with phase := phase } →
      (∀ iteration wrapper binding, phase = .removing iteration wrapper binding →
        binding.blockPos ≠ p) → Standing p w first (observedStep (t, h) action) := by
    intro phase hbusy hstep hremoving
    constructor
    · show (t.step action).phase.isIdle = false
      rw [hstep]
      exact hbusy
    · exact hfirst
    · show (t.step action).state.byPos p = some w
      rw [hstep]
      exact hs.byPos_eq
    · intro iteration wrapper binding heq
      refine hremoving iteration wrapper binding (Eq.trans ?_ heq)
      show phase = (t.step action).phase
      rw [hstep]
  cases action with
  | reconcile holder entity p' ticker =>
    obtain ⟨hbyPos, hphase'⟩ := @byPos_reconcile_of_ne _ _ _ t _ _ p p' (Ne.symm htouch) holder
      entity ticker
    exact hcommand hbyPos hphase'
  | remove holder p' =>
    obtain ⟨hbyPos, hphase'⟩ := @byPos_remove_of_ne _ _ _ t _ _ p p' (Ne.symm htouch) holder
    exact hcommand hbyPos hphase'
  | removePositions holder positions =>
    obtain ⟨hbyPos, hphase'⟩ := @byPos_removePositions_of_not_mem _ _ _ t _ _ p positions htouch
      holder
    exact hcommand hbyPos hphase'
  | start runsNormally =>
    have hstep : t.step (.start runsNormally) = t := by
      show t.start runsNormally = t
      have hbusy := hs.busy
      unfold WorldBlockEntityTickers.start
      cases hidle : t.phase with
      | idle =>
        rw [show (t, h).1.phase = t.phase from rfl, hidle] at hbusy
        cases hbusy
      | _ => rfl
    exact hcommand (congrArg (fun t => t.state.byPos p) hstep)
      (congrArg WorldBlockEntityTickers.phase hstep)
  | load =>
    have hstep : t.step .load = t.load := rfl
    unfold WorldBlockEntityTickers.load at hstep
    split at hstep
    · split at hstep
      · exact hphase _ rfl hstep nofun
      · exact hphase _ rfl hstep nofun
    · exact hcommand (congrArg (fun t => t.state.byPos p) hstep)
        (congrArg WorldBlockEntityTickers.phase hstep)
  | check isRemoved =>
    have hstep : t.step (.check isRemoved) = t.check isRemoved := rfl
    unfold WorldBlockEntityTickers.check at hstep
    split at hstep
    · rename_i iteration wrapper binding hloaded
      split at hstep
      · rename_i hremoved
        refine hphase _ rfl hstep ?_
        intro iteration' wrapper' binding' heq
        obtain ⟨-, -, rfl⟩ := TickerPhase.removing.inj heq
        exact fun hpos => htouch ⟨hremoved, iteration, wrapper, binding, hloaded, hpos⟩
      · exact hphase _ rfl hstep nofun
    · exact hcommand (congrArg (fun t => t.state.byPos p) hstep)
        (congrArg WorldBlockEntityTickers.phase hstep)
  | removeIfSame =>
    have hstep : t.step .removeIfSame = t.removeIfSame := rfl
    unfold WorldBlockEntityTickers.removeIfSame at hstep
    split at hstep
    · rename_i iteration wrapper binding hremoving
      have hne : p ≠ binding.blockPos := Ne.symm (hs.not_removing _ _ _ hremoving)
      simp only at hstep
      split at hstep
      · constructor
        · show (t.step .removeIfSame).phase.isIdle = false
          rw [hstep]
          rfl
        · exact hfirst
        · show (t.step .removeIfSame).state.byPos p = some w
          rw [hstep, byPos_unregister, update_of_ne hne]
          exact hs.byPos_eq
        · intro iteration' wrapper' binding' heq
          have hiterating : (t.step .removeIfSame).phase = .iterating iteration := by
            rw [hstep]
            rfl
          cases hiterating.symm.trans heq
      · exact hphase _ rfl hstep nofun
    · exact hcommand (congrArg (fun t => t.state.byPos p) hstep)
        (congrArg WorldBlockEntityTickers.phase hstep)
  | keep =>
    have hstep : t.step .keep = t.keep := rfl
    unfold WorldBlockEntityTickers.keep at hstep
    split at hstep
    · split at hstep
      · exact hphase _ rfl hstep nofun
      · exact hphase _ rfl hstep nofun
    · exact hcommand (congrArg (fun t => t.state.byPos p) hstep)
        (congrArg WorldBlockEntityTickers.phase hstep)
  | finish => exact absurd rfl hfinish

omit [DecidableEq H] in
/-- At the end of a phase that ticks, a wrapper that has stood there from the start and is bound
has been ticked. -/
theorem TickerInvariant.ticked_of_first (hi : TickerInvariant t h) {kept : List ℕ}
    (hphase : t.phase = .iterating ⟨true, kept, []⟩) {w : ℕ}
    (hw : t.state.byPos p = some w) (hfirst : w < h.first) :
    (h.ticked.map fun pair => pair.2.blockPos).count p = 1 := by
  obtain ⟨b, hb, hpos⟩ := hi.bound.mapped p w hw
  have hidle : t.phase.isIdle = false := congrArg isIdle hphase
  have hwrappers : t.phase.wrappers = kept :=
    (congrArg TickerPhase.wrappers hphase).trans (append_nil kept)
  have hbehind : t.phase.behind = kept := congrArg behind hphase
  have hloaded : t.phase.loadedPair = [] := congrArg loadedPair hphase
  have hnext : t.phase.next = [] := congrArg TickerPhase.next hphase
  have hkept : w ∈ kept := by
    have hmem := hi.listed w b hb
    rw [order, hi.ordered.active hidle, nil_append, hwrappers] at hmem
    rcases mem_append.1 hmem with hmem | hmem
    · exact hmem
    · exact absurd hfirst (not_lt.2 (hi.ordered.pending_ge hidle w hmem))
  obtain ⟨pair, hpair, rfl⟩ := List.mem_map.1 (hi.seen.behind w (hbehind.symm ▸ hkept))
  have hsame := hi.seen.same pair (by rwa [hloaded, append_nil]) b hb
  have hpositions := hi.seen.positions
  rw [hnext, append_nil] at hpositions
  refine count_eq_one_of_mem hpositions ?_
  exact List.mem_map.2 ⟨pair, hpair, hsame.symm.trans hpos⟩

omit [DecidableEq H] [DecidableEq P] in
theorem TickerInvariant.count_order (hi : TickerInvariant t h) {w : ℕ}
    (hw : t.state.byPos p = some w) :
    (t.state.active ++ t.phase.wrappers ++ t.state.pending).count w = 1 := by
  obtain ⟨b, hb, -⟩ := hi.bound.mapped p w hw
  exact count_eq_one_of_mem hi.ordered.nodup (hi.listed w b hb)

section

variable {s : WorldBlockEntityTickers H P T × TickerHistory H P T} (hi : TickerInvariant s.1 s.2)

include hi

/-- The phase that starts here leaves the positions that nothing concerns their wrappers. -/
theorem TickerInvariant.standing (hidle : s.1.phase = .idle) (runsNormally : Bool) {w : ℕ}
    (hw : s.1.state.byPos p = some w) :
    w < s.1.wrappers ∧
      Standing p w s.1.wrappers (observedStep s (.start runsNormally)) := by
  obtain ⟨b, hb, -⟩ := hi.bound.mapped p w hw
  refine ⟨(hi.bound.lt w b hb).1, ?_⟩
  have hstart : s.1.step (.start runsNormally) = { s.1 with
      state := { s.1.state with active := [], pending := [], ticking := true }
      phase := .iterating ⟨runsNormally, [], s.1.state.active ++ s.1.state.pending⟩ } := by
    simp only [WorldBlockEntityTickers.step, WorldBlockEntityTickers.start, hidle]
  have hobserve : s.2.observe s.1 (.start runsNormally) =
      { s.2 with phases := s.2.phases + 1, first := s.1.wrappers, ticked := [] } := by
    rw [observe_of_wrappers_eq (wrappers_step nofun)]
    simp only [recorded, hidle]
  constructor
  · show (s.1.step (.start runsNormally)).phase.isIdle = false
    rw [hstart]
    rfl
  · show (s.2.observe s.1 (.start runsNormally)).first = s.1.wrappers
    rw [hobserve]
  · show (s.1.step (.start runsNormally)).state.byPos p = some w
    rw [hstart]
    exact hw
  · intro iteration wrapper binding heq
    have hphase : (s.1.step (.start runsNormally)).phase =
        .iterating ⟨runsNormally, [], s.1.state.active ++ s.1.state.pending⟩ := by
      rw [hstart]
    cases hphase.symm.trans heq

theorem TickerInvariant.reconcile_place (holder : H) (entity : ℕ) (p : P) (ticker : T) :
    let s' := observedStep s (.reconcile holder entity p (some ticker))
    if (s.2.registered p).any fun b => decide (b.holder = holder) then
      s'.1.state.byPos p = s.1.state.byPos p ∧ s'.1.order = s.1.order ∧ s'.2.place = s.2.place
    else s'.1.state.byPos p = some s.1.wrappers ∧ (∀ w ∈ s.1.order, w < s.1.wrappers) ∧
      s'.2.place s.1.wrappers = s.2.nextPlace s.1 := by
  intro s'
  obtain ⟨t, h⟩ := s
  have hplace : ∀ t' : WorldBlockEntityTickers H P T, t'.wrappers = t.wrappers + 1 →
      s'.1 = t' → s'.2.place t.wrappers = h.nextPlace t := by
    intro t' hwrappers heq
    have hplaced : h.placed t (t.step (.reconcile holder entity p (some ticker))) =
        h.withPlace t := by
      refine if_neg ?_
      show ¬ s'.1.wrappers = t.wrappers
      rw [heq, hwrappers]
      omega
    show (h.placed t (t.step (.reconcile holder entity p (some ticker)))).place t.wrappers = _
    rw [hplaced]
    exact update_self ..
  have hstep : s'.1 = t.reconcile holder entity p (some ticker) := rfl
  unfold WorldBlockEntityTickers.reconcile at hstep
  cases hw : t.state.byPos p with
  | none =>
    have hnone : h.registered p = none := by
      rw [hi.registered p, hw]
      rfl
    simp only [hw] at hstep
    rw [if_neg (by rw [hnone]; exact Bool.false_ne_true)]
    refine ⟨?_, hi.ordered.lt, hplace _ ?_ hstep⟩
    · rw [hstep, byPos_register, update_self]
    · rfl
  | some w =>
    have howns : t.belongsTo w holder = (h.registered p).any fun b => decide (b.holder = holder) :=
      hi.belongsTo_eq hw holder
    have howns' : WorldBlockEntityTickers.belongsTo { t with addresses := t.addresses + 1 } w
        holder = t.belongsTo w holder := rfl
    simp only [hw, howns', howns] at hstep
    split
    · rename_i hsame
      rw [if_pos hsame] at hstep
      refine ⟨?_, ?_, ?_⟩
      · rw [hstep]
        exact hw
      · rw [hstep]
        rfl
      · have hplaced : h.placed t (t.step (.reconcile holder entity p (some ticker))) = h := by
          refine if_pos ?_
          show s'.1.wrappers = t.wrappers
          rw [hstep]
          rfl
        show (h.placed t (t.step (.reconcile holder entity p (some ticker)))).place = _
        rw [hplaced]
    · rename_i hother
      rw [if_neg hother] at hstep
      refine ⟨?_, hi.ordered.lt, hplace _ ?_ hstep⟩
      · rw [hstep, byPos_register, update_self]
        rfl
      · rfl

end

/-- No ticker is lost or doubled in any run, as long as no wrapper is bound anew just when the
phase removes it. Those registered during a phase come after those registered before the next. -/
theorem runTickers_ticked (steps : List (TickerStep H P T))
    (hguard : Guarded observedStep NeverReboundSince (.new, .new) steps) :
    let s := runTickers steps
    (∀ p, (s.1.state.byPos p).bind s.1.bindings = s.2.registered p) ∧
    (∀ p w, s.1.state.byPos p = some w → (s.1.bindings w).isSome ∧
      (s.1.state.active ++ s.1.phase.wrappers ++ s.1.state.pending).count w = 1) ∧
    (s.2.ticked.map fun pair => pair.2.blockPos).Nodup ∧
    (∀ earlier during p kept, steps = earlier ++ .start true :: during →
      (runTickers earlier).1.phase = .idle → ((runTickers earlier).1.state.byPos p).isSome →
      Guarded observedStep (fun s action => ¬ Touches s p action ∧ action ≠ .finish)
        (runTickers (earlier ++ [.start true])) during →
      s.1.phase = .iterating ⟨true, kept, []⟩ →
      (s.2.ticked.map fun pair => pair.2.blockPos).count p = 1) ∧
    (s.2.ticked.map fst).Pairwise s.2.Earlier ∧
    ∀ holder entity p ticker,
      let s' := observedStep s (.reconcile holder entity p (some ticker))
      if (s.2.registered p).any fun b => decide (b.holder = holder) then
        s'.1.state.byPos p = s.1.state.byPos p ∧ s'.1.order = s.1.order ∧ s'.2.place = s.2.place
      else s'.1.state.byPos p = some s.1.wrappers ∧ (∀ w ∈ s.1.order, w < s.1.wrappers) ∧
        s'.2.place s.1.wrappers = s.2.nextPlace s.1 := by
  intro s
  have hi : TickerInvariant s.1 s.2 := invariant_runTickers hguard
  refine ⟨fun p => (hi.registered p).symm, ?_, ?_, ?_, ?_, hi.reconcile_place⟩
  · intro p w hw
    obtain ⟨b, hb, -⟩ := hi.bound.mapped p w hw
    exact ⟨isSome_iff_exists.2 ⟨b, hb⟩, hi.count_order hw⟩
  · refine hi.seen.positions.sublist (List.Sublist.map _ ?_)
    exact sublist_append_left _ _
  · intro earlier during p kept hsteps hidle hsome huntouched hphase
    obtain ⟨w, hw⟩ := isSome_iff_exists.1 hsome
    rw [hsteps] at hguard
    have hi₀ : TickerInvariant (runTickers earlier).1 (runTickers earlier).2 :=
      invariant_runTickers (guarded_append.1 hguard).1
    obtain ⟨hlt, hstanding⟩ := hi₀.standing hidle true hw
    have hstart : runTickers (earlier ++ [.start true]) =
        observedStep (runTickers earlier) (.start true) := runSteps_append _ _ _
    have hend : s = runSteps observedStep (runTickers (earlier ++ [.start true])) during := by
      show runTickers steps = _
      rw [hsteps, runTickers, runSteps_append, hstart]
      rfl
    have hstanding' : Standing p w (runTickers earlier).1.wrappers s := by
      rw [hend]
      refine huntouched.invariant (fun s action hs hg => hs.step hg.1 hg.2) ?_
      rw [hstart]
      exact hstanding
    refine hi.ticked_of_first hphase hstanding'.byPos_eq ?_
    rw [hstanding'.first_eq]
    exact hlt
  · have hsorted := hi.seen.sorted
    exact hsorted.sublist (sublist_append_left _ _)

end Runs

section Examples

/-- A wrapper is registered, and in the phase that ticks it a second one; a third one follows after
the phase, and is ticked before the second. -/
def registeredDuringPhase : List (TickerStep Unit ℕ Unit) :=
  [.reconcile () 0 0 (some ()), .start true, .load, .check false, .reconcile () 1 1 (some ()),
    .keep, .finish, .reconcile () 2 2 (some ()), .start true, .load, .check false, .keep, .load,
    .check false, .keep, .load, .check false, .keep]

theorem runTickers_ticked_registeredDuringPhase :
    let s := runTickers registeredDuringPhase
    (∀ p, (s.1.state.byPos p).bind s.1.bindings = s.2.registered p) ∧
    (s.2.ticked.map fst).Pairwise s.2.Earlier :=
  have hguard : Guarded observedStep NeverReboundSince (.new, .new) registeredDuringPhase := by
    simp only [registeredDuringPhase, Guarded, NeverReboundSince]
    decide
  have h := runTickers_ticked registeredDuringPhase hguard
  ⟨h.1, h.2.2.2.2.1⟩

/-- The order of registration is not the one of the ticks. -/
theorem runTickers_not_in_order : ¬ ∀ steps : List (TickerStep Unit ℕ Unit),
    ((runTickers steps).2.ticked.map fst).Pairwise (· < ·) := by
  intro h
  have hpairwise := h registeredDuringPhase
  revert hpairwise
  decide +kernel

end Examples

end Steel
