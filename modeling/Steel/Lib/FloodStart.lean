import Steel.Lib.FloodRuns

/-! # How both loops start

Either the sources are put into a dark field, or the changed nodes of a settled field are checked:
each gets the level of its own source and takes away what its old level has given.
-/

set_option linter.unusedSectionVars false

namespace Steel.Flood

open List Nat

variable {α δ : Type*} [DecidableEq α] [DecidableEq δ] (m : Flood α δ)

def sourceEntry (a : α) : FloodEntry α δ := ⟨a, m.emission a, m.all, m.shaped a, false, false⟩

/-- Takes away what a node has given, whatever its shape was. -/
def oldEntry (a : α) (level : ℕ) : FloodEntry α δ := ⟨a, level, m.all, false, false, false⟩

def seed (a : α) (s : FloodState α δ) : FloodState α δ :=
  if m.emission a ≤ s.level a then s
  else setLevel a (m.emission a) (m.enqueueIncrease (m.sourceEntry a) s)

def enqueueSource (a : α) (s : FloodState α δ) : FloodState α δ :=
  if m.emission a = 0 then s else m.enqueueIncrease (m.sourceEntry a) s

def check (a : α) (s : FloodState α δ) : FloodState α δ :=
  m.enqueueDecrease (m.oldEntry a (s.level a))
    (m.enqueueSource a (setLevel a (m.emission a) s))

variable {m} {top : ℕ} {old distance field : α → ℕ} {s : FloodState α δ} {done : List α}

theorem fits_sourceEntry (a : α) : m.Fits m.emission (m.sourceEntry a) where
  shape := by
    cases hshaped : m.shaped a with
    | true => exact .inl hshaped
    | false => exact .inr hshaped
  level_le _ := le_refl _
  writes h := by cases h

def Unwritten (s : FloodState α δ) : Prop := ∀ e ∈ s.increases, e.write = false

theorem Unwritten.writesUp (h : Unwritten s) : WritesUp s := by
  intro e rest hqueue hwrite
  have hplain := h e (hqueue ▸ mem_cons_self)
  rw [hplain] at hwrite
  cases hwrite

variable {a : α} {e : FloodEntry α δ}

theorem Unwritten.enqueueIncrease (h : Unwritten s) (he : e.write = false) :
    Unwritten (m.enqueueIncrease e s) := by
  unfold Flood.enqueueIncrease
  split_ifs
  · simpa [Unwritten, or_imp, forall_and] using ⟨h, he⟩
  · exact h

theorem Unwritten.foldl_raise (e : FloodEntry α δ) (directions : List δ) (h : Unwritten s) :
    Unwritten (directions.foldl (m.raise e) s) := by
  induction directions generalizing s with
  | nil => exact h
  | cons d directions ih =>
    refine ih ?_
    unfold raise
    split_ifs
    · exact Unwritten.enqueueIncrease (s := setLevel _ _ s) h rfl
    · exact h
    · exact h

theorem Unwritten.foldl_lower (hemission : ∀ a, m.emission a = 0) (e : FloodEntry α δ)
    (directions : List δ) (h : Unwritten s) : Unwritten (directions.foldl (m.lower e) s) := by
  induction directions generalizing s with
  | nil => exact h
  | cons d directions ih =>
    refine ih ?_
    unfold lower
    split_ifs
    · rw [relight, if_pos (hemission _)]
      unfold Unwritten
      rw [enqueueDecrease_increases]
      exact h
    · exact h.enqueueIncrease rfl
    · exact h

theorem Unwritten.reaches_increase {t : FloodState α δ} (h : Unwritten s)
    (ht : Reaches m.stepIncrease s t) : Unwritten t := by
  refine ht.invariant (fun s s' hs hstep => ?_) h
  unfold stepIncrease at hstep
  cases hqueue : s.increases with
  | nil => simp [hqueue] at hstep
  | cons e rest =>
    have hrest : Unwritten { s with increases := rest } :=
      fun e' he' => hs e' (hqueue ▸ mem_cons_of_mem e he')
    simp only [hqueue] at hstep
    split_ifs at hstep
    · obtain rfl := Option.some.inj hstep
      exact hrest
    · obtain rfl := Option.some.inj hstep
      exact Unwritten.foldl_raise (s := setLevel _ _ _) e _ hrest
    · obtain rfl := Option.some.inj hstep
      exact hrest.foldl_raise e _

theorem Unwritten.reaches_decrease (hemission : ∀ a, m.emission a = 0) {t : FloodState α δ}
    (h : Unwritten s) (ht : Reaches m.stepDecrease s t) : Unwritten t := by
  refine ht.invariant (fun s s' hs hstep => ?_) h
  unfold stepDecrease at hstep
  cases hqueue : s.decreases with
  | nil => simp [hqueue] at hstep
  | cons e rest =>
    simp only [hqueue, Option.some.injEq] at hstep
    obtain rfl := hstep
    exact Unwritten.foldl_lower (s := { s with decreases := rest }) hemission e _ hs

/-- These nodes have their sources, and nothing else has light. -/
structure Seeded (m : Flood α δ) (done : List α) (s : FloodState α δ) : Prop where
  level_eq (a : α) : s.level a = if a ∈ done then m.emission a else 0
  increase : ∀ e ∈ s.increases, ∃ a ∈ done, e = m.sourceEntry a
  source : ∀ a ∈ done, m.emission a ≠ 0 → m.sourceEntry a ∈ s.increases
  decreases : s.decreases = []
  refused : s.refused = []

section

variable (h : m.Seeded done s)

include h

theorem Seeded.seed (hroom : m.room a = true) :
    m.Seeded (a :: done) (m.seed a s) := by
  have hlevel := h.level_eq a
  unfold Flood.seed
  by_cases hle : m.emission a ≤ s.level a
  · have hsame : s.level a = m.emission a := by
      split_ifs at hlevel
      · exact hlevel
      · omega
    rw [if_pos hle]
    constructor
    · intro b
      by_cases hb : b = a
      · subst hb
        rw [if_pos mem_cons_self, hsame]
      · rw [h.level_eq b]
        simp [hb]
    · intro e he
      obtain ⟨b, hb, rfl⟩ := h.increase e he
      exact ⟨b, mem_cons_of_mem _ hb, rfl⟩
    · intro b hb hemission
      rcases mem_cons.1 hb with rfl | hb
      · refine h.source b ?_ hemission
        by_contra hnot
        rw [if_neg hnot] at hlevel
        omega
      · exact h.source b hb hemission
    · exact h.decreases
    · exact h.refused
  · rw [if_neg hle, enqueueIncrease_of_room hroom]
    constructor
    · intro b
      by_cases hb : b = a
      · subst hb
        simp [setLevel]
      · simp only [setLevel, Function.update_of_ne hb, h.level_eq b]
        simp [hb]
    · simp only [setLevel, mem_append, mem_singleton]
      rintro e (he | rfl)
      · obtain ⟨b, hb, rfl⟩ := h.increase e he
        exact ⟨b, mem_cons_of_mem _ hb, rfl⟩
      · exact ⟨a, mem_cons_self, rfl⟩
    · intro b hb hemission
      simp only [setLevel, mem_append, mem_singleton]
      rcases mem_cons.1 hb with rfl | hb
      · exact .inr rfl
      · exact .inl (h.source b hb hemission)
    · exact h.decreases
    · exact h.refused

theorem Seeded.foldl_seed {seeds : List α} (hroom : ∀ a ∈ seeds, m.room a = true) :
    m.Seeded (seeds.reverse ++ done) (seeds.foldl (fun s a => m.seed a s) s) := by
  induction seeds generalizing done s with
  | nil => exact h
  | cons a seeds ih =>
    have hrest := ih (h.seed (hroom a mem_cons_self)) (fun b hb => hroom b (mem_cons_of_mem _ hb))
    simpa only [reverse_cons, append_assoc, cons_append, nil_append,
      foldl_cons] using hrest

theorem Seeded.unwritten : Unwritten s := by
  intro e he
  obtain ⟨a, _, rfl⟩ := h.increase e he
  rfl

theorem Seeded.raising (hall : ∀ a, m.emission a ≠ 0 → a ∈ done)
    (hc : m.Closed m.emission field) : m.Raising m.emission field s := by
  have hlevel : ∀ a, s.level a = m.emission a := by
    intro a
    rw [h.level_eq a]
    split_ifs with ha
    · rfl
    · exact (not_not.1 fun hne => ha (hall a hne)).symm
  constructor
  · intro a
    rw [hlevel]
    exact hc.source_le a
  · intro e he
    obtain ⟨a, _, rfl⟩ := h.increase e he
    exact (fits_sourceEntry a).mono hc.source_le
  · exact fun a => .inl (hlevel a).ge
  · intro e he _
    obtain ⟨a, _, rfl⟩ := h.increase e he
    exact .inl (hlevel a).ge
  · intro a d _
    by_cases hzero : m.emission a = 0
    · exact .inl (by rw [hlevel, hzero]; exact zero_le _)
    · exact .inr (.inl ⟨m.sourceEntry a, h.source a (hall a hzero) hzero, rfl, (hlevel a).symm,
        m.mem_all d⟩)

theorem Seeded.near (hz : m.Horizon top 0 distance)
    (hnear : ∀ a ∈ done, distance a = 0) : Near top 0 distance s := by
  constructor
  · exact h.refused
  · rw [h.decreases]
    rintro e he
    cases he
  · intro a habove
    rw [h.level_eq a] at habove ⊢
    split_ifs at habove ⊢ with ha
    · have hle := hz.emission_le a
      have hzero := hnear a ha
      omega
    · exact absurd habove (lt_irrefl _)
  · intro a hbelow
    exact absurd hbelow (not_lt_zero _)
  · intro e he _ _
    obtain ⟨a, ha, rfl⟩ := h.increase e he
    have hle := hz.emission_le a
    have hzero := hnear a ha
    simp only [sourceEntry]
    omega

end

/-- These nodes have been checked. -/
structure Checked (m : Flood α δ) (top : ℕ) (old : α → ℕ) (done : List α) (s : FloodState α δ) :
    Prop where
  level_eq (a : α) : s.level a = if a ∈ done then m.emission a else old a
  increase : ∀ e ∈ s.increases, ∃ a ∈ done, e = m.sourceEntry a
  source : ∀ a ∈ done, m.emission a ≠ 0 → m.sourceEntry a ∈ s.increases
  decrease : ∀ e ∈ s.decreases, ∃ a ∈ done, ∃ level ≤ top, e = m.oldEntry a level
  drained : ∀ a ∈ done, m.oldEntry a (old a) ∈ s.decreases
  refused : s.refused = []

theorem enqueueSource_of_room (h : m.room a = true) : m.enqueueSource a s =
    { s with increases := s.increases ++ if m.emission a = 0 then [] else [m.sourceEntry a] } := by
  unfold enqueueSource
  split_ifs
  · simp
  · exact enqueueIncrease_of_room h

theorem Checked.check (h : m.Checked top old done s) (hlevel : ∀ a, s.level a ≤ top)
    (hroom : m.room a = true) : m.Checked top old (a :: done) (m.check a s) := by
  have hcheck : m.check a s = ⟨Function.update s.level a (m.emission a),
      s.increases ++ (if m.emission a = 0 then [] else [m.sourceEntry a]),
      s.decreases ++ [m.oldEntry a (s.level a)], s.refused⟩ := by
    unfold Flood.check
    rw [enqueueSource_of_room hroom]
    exact enqueueDecrease_of_room hroom
  rw [hcheck]
  constructor
  · intro b
    by_cases hb : b = a
    · subst hb
      simp
    · simp [h.level_eq b, hb]
  · simp only [mem_append]
    rintro e (he | he)
    · obtain ⟨b, hb, rfl⟩ := h.increase e he
      exact ⟨b, mem_cons_of_mem _ hb, rfl⟩
    · split_ifs at he
      · cases he
      · exact ⟨a, mem_cons_self, mem_singleton.1 he⟩
  · intro b hb hemission
    rcases mem_cons.1 hb with rfl | hb
    · rw [if_neg hemission]
      exact mem_append_right _ mem_cons_self
    · exact mem_append_left _ (h.source b hb hemission)
  · simp only [mem_append, mem_singleton]
    rintro e (he | rfl)
    · obtain ⟨b, hb, level, hle, rfl⟩ := h.decrease e he
      exact ⟨b, mem_cons_of_mem _ hb, level, hle, rfl⟩
    · exact ⟨a, mem_cons_self, _, hlevel a, rfl⟩
  · intro b hb
    by_cases hdone : b ∈ done
    · exact mem_append_left _ (h.drained b hdone)
    · have hba : b = a := (mem_cons.1 hb).resolve_right hdone
      subst hba
      refine mem_append_right _ (mem_singleton.2 ?_)
      rw [h.level_eq b, if_neg hdone]
  · exact h.refused

theorem Checked.level_le (h : m.Checked top old done s) (hold : ∀ a, old a ≤ top)
    (hemission : ∀ a, m.emission a ≤ top) (a : α) : s.level a ≤ top := by
  rw [h.level_eq]
  split_ifs
  · exact hemission a
  · exact hold a

variable {changes : List α}

theorem Checked.foldl_check (h : m.Checked top old done s)
    (hold : ∀ a, old a ≤ top) (hemission : ∀ a, m.emission a ≤ top)
    (hroom : ∀ a ∈ changes, m.room a = true) :
    m.Checked top old (changes.reverse ++ done) (changes.foldl (fun s a => m.check a s) s) := by
  induction changes generalizing done s with
  | nil => exact h
  | cons a changes ih =>
    have hrest := ih (h.check (h.level_le hold hemission) (hroom a mem_cons_self))
      (fun b hb => hroom b (mem_cons_of_mem _ hb))
    simpa only [reverse_cons, append_assoc, cons_append, nil_append,
      foldl_cons] using hrest

/-- The old field away from the changed nodes: each level has its source or its link, which only the
change may have closed, and no open link is out of balance. -/
structure Kept (m : Flood α δ) (old : α → ℕ) (done : List α) : Prop where
  grounded : ∀ a ∉ done, old a ≤ m.emission a ∨ ∃ d, old a + m.cost a ≤ old (m.next a d) ∧
    m.opensPlain (m.next a d) (m.opposite d) = true ∧ (m.next a d ∉ done → m.opens a d = true)
  source_le : ∀ a ∉ done, m.emission a ≤ old a
  link_le : ∀ a ∉ done, ∀ d, m.next a d ∉ done → m.opens a d = true →
    old a ≤ old (m.next a d) + m.cost (m.next a d)

variable {d : δ}

theorem opens_back (h : m.opens a d = true) :
    m.opensPlain (m.next a d) (m.opposite d) = true :=
  m.opensPlain_of_opens _ _ ((m.opens_opposite a d).trans h)

theorem Checked.lowering (h : m.Checked top old done s) (hkept : m.Kept old done)
    (hold : ∀ a, old a ≤ top) (hemission : ∀ a, m.emission a ≤ top) :
    m.Lowering top m.emission s := by
  have hdone : ∀ {a}, a ∈ done → s.level a = m.emission a := fun ha => by rw [h.level_eq, if_pos ha]
  have hrest : ∀ {a}, a ∉ done → s.level a = old a := fun ha => by rw [h.level_eq, if_neg ha]
  constructor
  · exact h.level_le hold hemission
  · intro e he
    obtain ⟨a, _, level, hle, rfl⟩ := h.decrease e he
    exact hle
  · intro a
    by_cases ha : a ∈ done
    · exact .inl (hdone ha).le
    · rw [hrest ha]
      rcases hkept.grounded a ha with hsource | ⟨d, hlevel, hplain, hopens⟩
      · exact .inl hsource
      · by_cases hnext : m.next a d ∈ done
        · refine .inr (.inr ⟨_, h.drained _ hnext, m.opposite d, m.mem_all _, ?_, hplain, ?_⟩)
          · exact m.next_opposite a d
          · rw [hrest ha]
            exact hlevel
        · refine .inr (.inl ⟨d, hopens hnext, ?_⟩)
          rw [hrest hnext]
          exact hlevel
  · intro a
    by_cases ha : a ∈ done
    · exact .inl (hdone ha).ge
    · rw [hrest ha]
      exact .inl (hkept.source_le a ha)
  · intro e he
    obtain ⟨a, _, rfl⟩ := h.increase e he
    exact fits_sourceEntry a
  · intro e he
    obtain ⟨a, ha, level, _, rfl⟩ := h.decrease e he
    refine ⟨(hdone ha).le, ?_⟩
    by_cases hzero : m.emission a = 0
    · exact .inl ((hdone ha).trans hzero)
    · exact .inr ⟨_, h.source a ha hzero, rfl, (hdone ha).symm, rfl⟩
  · intro a d hopens
    by_cases ha : a ∈ done
    · by_cases hzero : m.emission a = 0
      · rw [hdone ha, hzero]
        exact .inl (zero_le _)
      · exact .inr (.inl ⟨_, h.source a ha hzero, rfl, (hdone ha).symm, m.mem_all d⟩)
    · by_cases hnext : m.next a d ∈ done
      · exact .inr (.inr ⟨_, h.drained _ hnext, rfl, m.mem_all _, opens_back hopens⟩)
      · rw [hrest ha, hrest hnext]
        exact .inl (hkept.link_le a ha d hnext hopens)

theorem Checked.near (h : m.Checked top old done s) (hz : m.Horizon top old distance)
    (hnear : ∀ a ∈ done, distance a = 0) : Near top old distance s := by
  constructor
  · exact h.refused
  · intro e he
    obtain ⟨a, ha, level, hle, rfl⟩ := h.decrease e he
    have hzero := hnear a ha
    simp only [oldEntry]
    omega
  · intro a habove
    rw [h.level_eq a] at habove ⊢
    split_ifs at habove ⊢ with ha
    · have hle := hz.emission_le a
      have hzero := hnear a ha
      omega
    · exact absurd habove (lt_irrefl _)
  · intro a hbelow
    rw [h.level_eq a] at hbelow
    split_ifs at hbelow with ha
    · exact (hnear a ha).le.trans (zero_le _)
    · exact absurd hbelow (lt_irrefl _)
  · intro e he _ _
    obtain ⟨a, ha, rfl⟩ := h.increase e he
    have hle := hz.emission_le a
    have hzero := hnear a ha
    simp only [sourceEntry]
    omega

def topEntry (m : Flood α δ) (top : ℕ) (a : α) : FloodEntry α δ :=
  ⟨a, top, m.all, true, false, false⟩

/-- Some nodes, one below the other, have the top level, and a change opens and closes some of them.
Checks a node: a source is spread again, and any other node loses its level. -/
def checkTop (m : Flood α δ) (top : ℕ) (a : α) (s : FloodState α δ) : FloodState α δ :=
  m.enqueueDecrease (m.oldEntry a (s.level a))
    (if s.level a = top then m.enqueueIncrease (m.topEntry top a) s else setLevel a 0 s)

theorem checkTop_increases {top : ℕ} (he : e ∈ (m.checkTop top a s).increases) :
    e ∈ s.increases ∨ e.pos = a := by
  rw [checkTop, enqueueDecrease_increases] at he
  split_ifs at he
  · unfold Flood.enqueueIncrease at he
    split_ifs at he
    · rcases mem_append.1 he with he | he
      · exact .inl he
      · exact .inr (mem_singleton.1 he ▸ rfl)
    · exact .inl he
  · exact .inl he

theorem foldl_checkTop_increases {top : ℕ}
    (he : e ∈ (changes.foldl (fun s a => m.checkTop top a s) s).increases) :
    e ∈ s.increases ∨ e.pos ∈ changes := by
  induction changes generalizing s with
  | nil => exact .inl he
  | cons a changes ih =>
    rcases ih he with he | he
    · rcases checkTop_increases he with he | rfl
      · exact .inl he
      · exact .inr mem_cons_self
    · exact .inr (mem_cons_of_mem a he)

def topSource (top : ℕ) (after : α → Bool) (a : α) : ℕ := if after a then top else 0

/-- The sources have been moved, and these nodes have been checked. -/
structure Moved (m : Flood α δ) (top : ℕ) (old : α → ℕ) (before after : α → Bool) (up : δ)
    (done : List α) (s : FloodState α δ) : Prop where
  level_eq (a : α) : s.level a =
    if after a then top else if before a = true ∨ a ∈ done then 0 else old a
  increase : ∀ e ∈ s.increases, after e.pos = true ∧ e.level = top ∧
    (e.shaped = true ∨ m.shaped e.pos = false) ∧ e.write = false
  opened : ∀ a, after a = true → before a = false →
    ∃ e ∈ s.increases, e.pos = a ∧ ∀ d, d ≠ up → d ∈ e.directions
  source : ∀ a ∈ done, after a = true → ∃ e ∈ s.increases, e.pos = a ∧ e.directions = m.all
  decrease : ∀ e ∈ s.decreases, e.level ≤ top ∧ (after e.pos = true → e.pos ∈ done) ∧
    (after e.pos = false → before e.pos = true ∨ e.pos ∈ done)
  closed : ∀ a, before a = true → after a = false →
    ∃ e ∈ s.decreases, e.pos = a ∧ e.level = top ∧ e.shaped = false ∧ ∀ d, d ≠ up → d ∈ e.directions
  drained : ∀ a ∈ done, ∃ e ∈ s.decreases, e.pos = a ∧ e.shaped = false ∧ e.directions = m.all ∧
    (before a = false ∨ after a = true → old a ≤ e.level)
  refused : s.refused = []

/-- The old field away from the change, and how the sources lie. -/
structure KeptBelow (m : Flood α δ) (top : ℕ) (old : α → ℕ) (before after : α → Bool) (up : δ)
    (done : List α) : Prop where
  grounded : ∀ a ∉ done, before a = false → old a = 0 ∨ ∃ d, old a + m.cost a ≤ old (m.next a d) ∧
    m.opensPlain (m.next a d) (m.opposite d) = true ∧ (m.next a d ∉ done → m.opens a d = true)
  link_le : ∀ a ∉ done, ∀ d, m.next a d ∉ done → m.opens a d = true →
    old a ≤ old (m.next a d) + m.cost (m.next a d)
  before_top : ∀ a, before a = true → old a = top
  before_up : ∀ a, before a = true → m.opensPlain a up = true → before (m.next a up) = true
  after_up : ∀ a, after a = true → m.opensPlain a up = true → after (m.next a up) = true
  after_down : ∀ a, after a = true → m.opens a (m.opposite up) = true →
    m.next a (m.opposite up) ∉ done → before (m.next a (m.opposite up)) = true →
    after (m.next a (m.opposite up)) = true

section Moved

variable {before after : α → Bool} {up : δ} (h : m.Moved top old before after up done s)
  (hkept : m.KeptBelow top old before after up done) (hold : ∀ a, old a ≤ top)

include h

theorem Moved.level_le (hold : ∀ a, old a ≤ top) (a : α) : s.level a ≤ top := by
  rw [h.level_eq]
  split_ifs
  · exact le_refl _
  · exact zero_le _
  · exact hold a

variable {a : α}

theorem Moved.level_of_after (ha : after a = true) : s.level a = top := by
  rw [h.level_eq, if_pos ha]

theorem Moved.level_of_kept (hafter : after a = false) (hbefore : before a = false)
    (ha : a ∉ done) :
    s.level a = old a := by
  rw [h.level_eq, hafter, hbefore, if_neg Bool.false_ne_true, if_neg]
  simpa using ha

theorem Moved.level_eq_top_iff (hbefore : ∀ a, before a = false → old a ≠ top) (htop : 0 < top)
    (a : α) : s.level a = top ↔ after a = true := by
  rw [h.level_eq]
  split_ifs with hafter hgone
  · simp [hafter]
  · simp only [hafter, Bool.false_eq_true, iff_false]
    omega
  · simp only [not_or, Bool.not_eq_true] at hgone
    simp only [hafter, Bool.false_eq_true, iff_false]
    exact hbefore a hgone.1

section

variable (hold : ∀ a, old a ≤ top) (hbefore : ∀ a, before a = false → old a ≠ top)
  (htop : 0 < top)

include hold hbefore htop

theorem Moved.checkTop (hroom : m.room a = true) :
    m.Moved top old before after up (a :: done) (m.checkTop top a s) := by
  have hiff := h.level_eq_top_iff hbefore htop a
  have hle := h.level_le hold a
  unfold Flood.checkTop
  rw [enqueueDecrease_of_room hroom]
  have hdrained : ∀ b ∈ a :: done, ∃ e ∈ s.decreases ++ [m.oldEntry a (s.level a)], e.pos = b ∧
      e.shaped = false ∧ e.directions = m.all ∧
      (before b = false ∨ after b = true → old b ≤ e.level) := by
    intro b hb
    by_cases hdone : b ∈ done
    · obtain ⟨e, he, hdrained⟩ := h.drained b hdone
      exact ⟨e, mem_append_left _ he, hdrained⟩
    · obtain rfl : b = a := (mem_cons.1 hb).resolve_right hdone
      refine ⟨_, mem_append_right _ mem_cons_self, rfl, rfl, rfl, fun hor => ?_⟩
      show old b ≤ s.level b
      cases hafter : after b with
      | true =>
        rw [h.level_of_after hafter]
        exact hold b
      | false =>
        rw [hafter] at hor
        rw [h.level_of_kept hafter (hor.resolve_right Bool.false_ne_true) hdone]
  by_cases hlit : s.level a = top
  · have hafter := hiff.1 hlit
    rw [if_pos hlit, enqueueIncrease_of_room hroom]
    constructor
    · intro b
      rw [show (_ : FloodState α δ).level b = s.level b from rfl, h.level_eq b]
      by_cases hb : b = a
      · subst hb
        rw [if_pos hafter, if_pos hafter]
      · simp [hb]
    · simp only [mem_append, mem_singleton]
      rintro e (he | rfl)
      · exact h.increase e he
      · exact ⟨hafter, rfl, .inl rfl, rfl⟩
    · intro b hb hb'
      obtain ⟨e, he, hpos⟩ := h.opened b hb hb'
      exact ⟨e, mem_append_left _ he, hpos⟩
    · intro b hb hb'
      rcases mem_cons.1 hb with rfl | hb
      · exact ⟨_, mem_append_right _ mem_cons_self, rfl, rfl⟩
      · obtain ⟨e, he, hpos⟩ := h.source b hb hb'
        exact ⟨e, mem_append_left _ he, hpos⟩
    · simp only [mem_append, mem_singleton]
      rintro e (he | rfl)
      · obtain ⟨hlevel, hdone, hgone⟩ := h.decrease e he
        exact ⟨hlevel, fun hb => mem_cons_of_mem _ (hdone hb),
          fun hb => (hgone hb).imp id (mem_cons_of_mem _)⟩
      · exact ⟨hle, fun _ => mem_cons_self, fun _ => .inr mem_cons_self⟩
    · intro b hb hb'
      obtain ⟨e, he, hpos⟩ := h.closed b hb hb'
      exact ⟨e, mem_append_left _ he, hpos⟩
    · exact hdrained
    · exact h.refused
  · have hafter : after a = false := Bool.eq_false_iff.2 fun ha => hlit (hiff.2 ha)
    rw [if_neg hlit]
    constructor
    · intro b
      by_cases hb : b = a
      · subst hb
        simp [setLevel, hafter]
      · simp [setLevel, h.level_eq b, hb]
    · exact h.increase
    · exact h.opened
    · intro b hb hb'
      rcases mem_cons.1 hb with rfl | hb
      · rw [hafter] at hb'
        cases hb'
      · exact h.source b hb hb'
    · simp only [setLevel, mem_append, mem_singleton]
      rintro e (he | rfl)
      · obtain ⟨hlevel, hdone, hgone⟩ := h.decrease e he
        exact ⟨hlevel, fun hb => mem_cons_of_mem _ (hdone hb),
          fun hb => (hgone hb).imp id (mem_cons_of_mem _)⟩
      · exact ⟨hle, fun _ => mem_cons_self, fun _ => .inr mem_cons_self⟩
    · intro b hb hb'
      obtain ⟨e, he, hpos⟩ := h.closed b hb hb'
      exact ⟨e, mem_append_left _ he, hpos⟩
    · exact hdrained
    · exact h.refused

theorem Moved.foldl_checkTop (hroom : ∀ a ∈ changes, m.room a = true) :
    m.Moved top old before after up (changes.reverse ++ done)
      (changes.foldl (fun s a => m.checkTop top a s) s) := by
  induction changes generalizing done s with
  | nil => exact h
  | cons a changes ih =>
    have hrest := ih (h.checkTop hold hbefore htop (hroom a mem_cons_self))
      (fun b hb => hroom b (mem_cons_of_mem _ hb))
    simpa only [reverse_cons, append_assoc, cons_append, nil_append,
      foldl_cons] using hrest

end

include hkept hold

theorem Moved.lit (hafter : after a = false) (hlit : s.level a ≠ 0) :
    before a = false ∧ a ∉ done ∧ s.level a = old a := by
  have hlevel := h.level_eq a
  rw [hafter, if_neg Bool.false_ne_true] at hlevel
  split_ifs at hlevel with hcleared
  · exact absurd hlevel hlit
  · simp only [not_or, Bool.not_eq_true] at hcleared
    exact ⟨hcleared.1, hcleared.2, hlevel⟩

/-- What has lost its level, or has been checked, takes away what it has given. -/
theorem Moved.drains (hbefore : before a = false) (hlevel : s.level a + m.cost a ≤ old (m.next a d))
    (hplain : m.opensPlain (m.next a d) (m.opposite d) = true)
    (hgone : m.next a d ∈ done ∨ before (m.next a d) = true ∧ after (m.next a d) = false) :
    ∃ e ∈ s.decreases, m.Drains s a e := by
  by_cases hclosed : before (m.next a d) = true ∧ after (m.next a d) = false
  · obtain ⟨e, he, hpos, htop, hshaped, hdirections⟩ := h.closed _ hclosed.1 hclosed.2
    refine ⟨e, he, m.opposite d, hdirections _ fun hup => ?_, ?_, ?_, ?_⟩
    · have habove := hkept.before_up _ hclosed.1 (hup ▸ hplain)
      rw [← hup, m.next_opposite, hbefore] at habove
      cases habove
    · rw [hpos, m.next_opposite]
    · rw [passes, hshaped, hpos]
      exact hplain
    · rw [htop]
      exact hlevel.trans (hold _)
  · obtain ⟨e, he, hpos, hshaped, hdirections, hle⟩ := h.drained _ (hgone.resolve_right hclosed)
    refine ⟨e, he, m.opposite d, hdirections ▸ m.mem_all _, ?_, ?_, hlevel.trans (hle ?_)⟩
    · rw [hpos, m.next_opposite]
    · rw [passes, hshaped, hpos]
      exact hplain
    · rw [not_and_or, Bool.not_eq_true, Bool.not_eq_false] at hclosed
      exact hclosed

theorem Moved.visits (hopens : m.opens a d = true)
    (hgone : m.next a d ∈ done ∨ before (m.next a d) = true ∧ after (m.next a d) = false)
    (hup : before (m.next a d) = true → after (m.next a d) = false → m.next a d ∉ done →
      m.opposite d ≠ up) : ∃ e ∈ s.decreases, m.Visits a d e := by
  by_cases hdone : m.next a d ∈ done
  · obtain ⟨e, he, hpos, hshaped, hdirections, _⟩ := h.drained _ hdone
    refine ⟨e, he, hpos, hdirections ▸ m.mem_all _, ?_⟩
    rw [passes, hshaped, hpos]
    exact opens_back hopens
  · obtain ⟨hbefore, hafter⟩ := hgone.resolve_left hdone
    obtain ⟨e, he, hpos, _, hshaped, hdirections⟩ := h.closed _ hbefore hafter
    refine ⟨e, he, hpos, hdirections _ (hup hbefore hafter hdone), ?_⟩
    rw [passes, hshaped, hpos]
    exact opens_back hopens

theorem Moved.covered (hopens : m.opens a d = true) :
    s.level a ≤ s.level (m.next a d) + m.cost (m.next a d) ∨
    (∃ e ∈ s.increases, Covers s a d e) ∨ ∃ e ∈ s.decreases, m.Visits a d e := by
  by_cases hnext : after (m.next a d) = true
  · rw [h.level_of_after hnext]
    exact .inl ((h.level_le hold a).trans (le_add_right _ _))
  · rw [Bool.not_eq_true] at hnext
    by_cases hafter : after a = true
    · by_cases ha : a ∈ done
      · obtain ⟨e, he, hpos, hdirections⟩ := h.source a ha hafter
        refine .inr (.inl ⟨e, he, hpos, ?_, hdirections ▸ m.mem_all d⟩)
        rw [(h.increase e he).2.1, h.level_of_after hafter]
      · cases hbefore : before a with
        | false =>
          obtain ⟨e, he, hpos, hdirections⟩ := h.opened a hafter hbefore
          refine .inr (.inl ⟨e, he, hpos, ?_, hdirections d fun hd => ?_⟩)
          · rw [(h.increase e he).2.1, h.level_of_after hafter]
          · have habove := hkept.after_up a hafter (hd ▸ m.opensPlain_of_opens a d hopens)
            rw [← hd, hnext] at habove
            cases habove
        | true =>
          by_cases hgone : m.next a d ∈ done ∨
              before (m.next a d) = true ∧ after (m.next a d) = false
          · refine .inr (.inr (h.visits hkept hold hopens hgone fun hb _ hnot hup => ?_))
            have hd : d = m.opposite up := by rw [← hup, m.opposite_opposite]
            have hdown := hkept.after_down a hafter (hd ▸ hopens) (hd ▸ hnot) (hd ▸ hb)
            rw [← hd, hnext] at hdown
            cases hdown
          · simp only [hnext, and_true, not_or, Bool.not_eq_true] at hgone
            have hlink := hkept.link_le a ha d hgone.1 hopens
            rw [hkept.before_top a hbefore] at hlink
            rw [h.level_of_after hafter, h.level_of_kept hnext hgone.2 hgone.1]
            exact .inl hlink
    · rw [Bool.not_eq_true] at hafter
      by_cases hzero : s.level a = 0
      · rw [hzero]
        exact .inl (zero_le _)
      · obtain ⟨hbefore, ha, hlevel⟩ := h.lit hkept hold hafter hzero
        by_cases hgone : m.next a d ∈ done ∨ before (m.next a d) = true ∧ after (m.next a d) = false
        · refine .inr (.inr (h.visits hkept hold hopens hgone fun hb _ _ hup => ?_))
          have habove := hkept.before_up _ hb (hup ▸ opens_back hopens)
          rw [← hup, m.next_opposite, hbefore] at habove
          cases habove
        · simp only [hnext, and_true, not_or, Bool.not_eq_true] at hgone
          rw [hlevel, h.level_of_kept hnext hgone.2 hgone.1]
          exact .inl (hkept.link_le a ha d hgone.1 hopens)

/-- Where the sources have been moved and the changes have been checked, the first loop can
start. -/
theorem Moved.lowering : m.Lowering top (topSource top after) s := by
  constructor
  · exact h.level_le hold
  · exact fun e he => (h.decrease e he).1
  · intro a
    cases hafter : after a with
    | true =>
      rw [topSource, hafter]
      exact .inl (h.level_le hold a)
    | false =>
      by_cases hzero : s.level a = 0
      · rw [hzero]
        exact .inl (zero_le _)
      · obtain ⟨hbefore, ha, hlevel⟩ := h.lit hkept hold hafter hzero
        rcases hkept.grounded a ha hbefore with hdark | ⟨d, hle, hplain, hopens⟩
        · exact absurd (hlevel.trans hdark) hzero
        · by_cases hgone : m.next a d ∈ done ∨
              before (m.next a d) = true ∧ after (m.next a d) = false
          · exact .inr (.inr (h.drains hkept hold hbefore (hlevel ▸ hle) hplain hgone))
          · rw [not_or, not_and, Bool.not_eq_false] at hgone
            refine .inr (.inl ⟨d, hopens hgone.1, ?_⟩)
            rw [hlevel]
            cases hnext : after (m.next a d) with
            | true =>
              rw [h.level_of_after hnext]
              exact hle.trans (hold _)
            | false =>
              have hb : before (m.next a d) = false := by
                rw [Bool.eq_false_iff]
                intro hb
                rw [hgone.2 hb] at hnext
                cases hnext
              rwa [h.level_of_kept hnext hb hgone.1]
  · intro a
    rw [topSource]
    split_ifs with hafter
    · exact .inl (h.level_of_after hafter).ge
    · exact .inl (zero_le _)
  · intro e he
    obtain ⟨hafter, hlevel, hshape, hwrite⟩ := h.increase e he
    refine ⟨hshape, fun _ => ?_, fun hw => ?_⟩
    · rw [topSource, if_pos hafter, hlevel]
    · rw [hwrite] at hw
      cases hw
  · intro e he
    obtain ⟨_, hdone, hgone⟩ := h.decrease e he
    cases hafter : after e.pos with
    | true =>
      obtain ⟨e', he', hpos, hdirections⟩ := h.source _ (hdone hafter) hafter
      refine ⟨?_, .inr ⟨e', he', hpos, ?_, hdirections⟩⟩
      · rw [topSource, if_pos hafter]
        exact h.level_le hold _
      · rw [(h.increase e' he').2.1, h.level_of_after hafter]
    | false =>
      have hzero : s.level e.pos = 0 := by
        rw [h.level_eq, hafter, if_neg Bool.false_ne_true, if_pos (hgone hafter)]
      rw [hzero]
      exact ⟨zero_le _, .inl rfl⟩
  · exact fun a d hopens => h.covered hkept hold hopens

omit hkept hold

theorem Moved.near (hnear : ∀ a, after a ≠ before a ∨ a ∈ done → distance a = 0) (htop : 0 < top)
    (hincrease : ∀ e ∈ s.increases, distance e.pos = 0)
    (hbefore : ∀ a, before a = true → old a = top)
    (hold : ∀ a, old a ≤ top) : Near top old distance s := by
  constructor
  · exact h.refused
  · intro e he
    obtain ⟨hle, hdone, hgone⟩ := h.decrease e he
    have hzero : distance e.pos = 0 := by
      refine hnear _ ?_
      cases hafter : after e.pos with
      | true => exact .inr (hdone hafter)
      | false =>
        rcases hgone hafter with hb | hd
        · rw [hb]
          exact .inl (by simp)
        · exact .inr hd
    omega
  · intro a habove
    have hle := h.level_le hold a
    rw [h.level_eq a] at habove
    split_ifs at habove with hafter hgone
    · have hzero : distance a = 0 := by
        refine hnear a (.inl fun heq => ?_)
        rw [hbefore a (heq ▸ hafter)] at habove
        exact lt_irrefl _ habove
      omega
    · exact absurd habove (not_lt_zero _)
    · exact absurd habove (lt_irrefl _)
  · intro a hbelow
    rw [h.level_eq a] at hbelow
    split_ifs at hbelow with hafter hgone
    · exact absurd hbelow (not_lt.2 (hold a))
    · have hzero : distance a = 0 := by
        refine hnear a ?_
        rcases hgone with hb | hd
        · refine .inl fun heq => hafter (heq.trans hb)
        · exact .inr hd
      omega
    · exact absurd hbelow (lt_irrefl _)
  · intro e he _ _
    have hzero := hincrease e he
    have hlevel := (h.increase e he).2.1
    omega

end Moved

end Steel.Flood
