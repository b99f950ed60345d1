import Steel.Lib.Flood

/-! # Both queues together restore a settled field

The first loop keeps every level that is left supported, by a neighbour or by an entry that will
still take it away, and every link that is out of balance has an entry that will even it out.
-/

set_option linter.unusedSectionVars false

namespace Steel.Flood

open List Function Nat

variable {α δ : Type*} [DecidableEq α] [DecidableEq δ] {m : Flood α δ} {top : ℕ}
  {source field bound : α → ℕ} {s : FloodState α δ} {e : FloodEntry α δ}

/-- An entry of the second queue: it sees the links as they are, its level is right if it is not
checked again, and it spreads in all directions if it writes. -/
structure Fits (m : Flood α δ) (bound : α → ℕ) (e : FloodEntry α δ) : Prop where
  shape : e.shaped = true ∨ m.shaped e.pos = false
  level_le : e.recheck = false → e.level ≤ bound e.pos
  writes : e.write = true → e.recheck = false ∧ e.directions = m.all

theorem Fits.passes_eq (h : m.Fits bound e) (d : δ) : m.passes e d = m.opens e.pos d := by
  unfold passes
  split_ifs with hshaped
  · rfl
  · have hplain := h.shape.resolve_left hshaped
    rw [Bool.eq_iff_iff]
    exact ⟨m.opens_of_opensPlain e.pos d hplain, m.opensPlain_of_opens e.pos d⟩

variable {d : δ} {directions : List δ} {decreases increases : List (FloodEntry α δ)} {a : α}
  {s t : FloodState α δ}

theorem passes_of_opens (h : m.opens e.pos d = true) : m.passes e d = true := by
  unfold passes
  split_ifs
  · exact h
  · exact m.opensPlain_of_opens e.pos d h

def Covers (s : FloodState α δ) (a : α) (d : δ) (e : FloodEntry α δ) : Prop :=
  e.pos = a ∧ e.level = s.level a ∧ d ∈ e.directions

def Visits (m : Flood α δ) (a : α) (d : δ) (e : FloodEntry α δ) : Prop :=
  e.pos = m.next a d ∧ m.opposite d ∈ e.directions ∧ m.passes e (m.opposite d) = true

def Drains (m : Flood α δ) (s : FloodState α δ) (a : α) (e : FloodEntry α δ) : Prop :=
  ∃ d ∈ e.directions, m.next e.pos d = a ∧ m.passes e d = true ∧ s.level a + m.cost a ≤ e.level

/-- While levels are taken away. -/
structure Lowering (m : Flood α δ) (top : ℕ) (source : α → ℕ) (s : FloodState α δ) : Prop where
  level_le (a : α) : s.level a ≤ top
  decrease_le : ∀ e ∈ s.decreases, e.level ≤ top
  grounded (a : α) : s.level a ≤ source a ∨
    (∃ d, m.opens a d = true ∧ s.level a + m.cost a ≤ s.level (m.next a d)) ∨
    ∃ e ∈ s.decreases, m.Drains s a e
  sourced (a : α) : source a ≤ s.level a ∨
    ∃ e ∈ s.increases, e.write = true ∧ e.pos = a ∧ e.level = source a
  fits : ∀ e ∈ s.increases, m.Fits source e
  origin : ∀ e ∈ s.decreases, s.level e.pos ≤ source e.pos ∧
    (s.level e.pos = 0 ∨ ∃ e' ∈ s.increases, e'.pos = e.pos ∧ e'.level = s.level e.pos ∧
      e'.directions = m.all)
  covered (a : α) (d : δ) : m.opens a d = true →
    s.level a ≤ s.level (m.next a d) + m.cost (m.next a d) ∨
    (∃ e ∈ s.increases, Covers s a d e) ∨ ∃ e ∈ s.decreases, m.Visits a d e

theorem Lowering.append (h : m.Lowering top source s) (he : m.Fits source e) :
    m.Lowering top source { s with increases := s.increases ++ [e] } where
  level_le := h.level_le
  decrease_le := h.decrease_le
  grounded := h.grounded
  sourced a := by
    rcases h.sourced a with hle | ⟨e', he', hwrite⟩
    · exact .inl hle
    · exact .inr ⟨e', mem_append_left _ he', hwrite⟩
  fits := by simpa [or_imp, forall_and] using ⟨h.fits, he⟩
  origin e' he' := by
    obtain ⟨hle, hzero | ⟨e'', he'', hpos⟩⟩ := h.origin e' he'
    · exact ⟨hle, .inl hzero⟩
    · exact ⟨hle, .inr ⟨e'', mem_append_left _ he'', hpos⟩⟩
  covered a d hopens := by
    rcases h.covered a d hopens with hle | ⟨e', he', hcovers⟩ | hvisits
    · exact .inl hle
    · exact .inr (.inl ⟨e', mem_append_left _ he', hcovers⟩)
    · exact .inr (.inr hvisits)

/-- A level is taken away: what it has supported is visited by a new entry, as are the neighbours
that are now out of balance. -/
theorem Lowering.zero (h : m.Lowering top source s)
    (hsource : ∀ a, source a = m.emission a ∨ source a = top) (he : e ∈ s.decreases)
    (hle : s.level (m.next e.pos d) + m.cost (m.next e.pos d) ≤ e.level)
    (hrelit : m.emission (m.next e.pos d) = 0 ∨ ∃ e' ∈ s.increases,
      e'.write = true ∧ e'.pos = m.next e.pos d ∧ e'.level = m.emission (m.next e.pos d)) :
    m.Lowering top source { setLevel (m.next e.pos d) 0 s with
      decreases := s.decreases ++ [m.spread e d] } := by
  have hcost := m.cost_pos (m.next e.pos d)
  have htop := h.decrease_le e he
  obtain ⟨hsourced, horigin⟩ := h.origin e he
  have hdown : ∀ a, Function.update s.level (m.next e.pos d) 0 a ≤ s.level a := by
    intro a
    by_cases ha : a = m.next e.pos d
    · rw [ha, update_self]
      exact zero_le _
    · rw [update_of_ne ha]
  have hsame : ∀ a, a ≠ m.next e.pos d → Function.update s.level (m.next e.pos d) 0 a = s.level a :=
    fun a ha => update_of_ne ha _ _
  have hback : ∀ a d', m.next a d' = m.next e.pos d → m.opens a d' = true →
      m.next (m.next e.pos d) (m.opposite d') = a ∧
        m.passes (m.spread e d) (m.opposite d') = true := by
    intro a d' hnext hopens
    rw [← hnext, m.next_opposite]
    refine ⟨rfl, passes_of_opens ?_⟩
    simpa only [spread, ← hnext, m.opens_opposite] using hopens
  have horigin_of : ∀ a d', m.next a d' = m.next e.pos d → m.opposite d' = m.opposite d →
      a = e.pos := by
    intro a d' hnext hd'
    rw [← m.next_opposite a d', hnext, hd', m.next_opposite]
  constructor
  · exact fun a => le_trans (hdown a) (h.level_le a)
  · simp only [mem_append, mem_singleton]
    rintro e' (he' | rfl)
    · exact h.decrease_le e' he'
    · exact le_trans (sub_le _ _) htop
  · intro a
    simp only [setLevel]
    by_cases ha : a = m.next e.pos d
    · rw [ha, update_self]
      exact .inl (zero_le _)
    · rw [hsame a ha]
      rcases h.grounded a with hsource | ⟨d', hopens, hlevel⟩ | ⟨e', he', hdrains⟩
      · exact .inl hsource
      · by_cases hnext : m.next a d' = m.next e.pos d
        · by_cases hd' : m.opposite d' = m.opposite d
          · obtain rfl := horigin_of a d' hnext hd'
            exact .inl hsourced
          · obtain ⟨hnode, hpasses⟩ := hback a d' hnext hopens
            refine .inr (.inr ⟨m.spread e d, by simp, m.opposite d', mem_away.2 hd', hnode,
              hpasses, ?_⟩)
            rw [hnext] at hlevel
            simp only [spread, hsame a ha]
            omega
        · exact .inr (.inl ⟨d', hopens, by rwa [hsame _ hnext]⟩)
      · obtain ⟨d', hmem, hnode, hpasses, hlevel⟩ := hdrains
        refine .inr (.inr ⟨e', mem_append_left _ he', d', hmem, hnode, hpasses, ?_⟩)
        simpa only [hsame a ha] using hlevel
  · intro a
    simp only [setLevel]
    by_cases ha : a = m.next e.pos d
    · rcases h.sourced a with hlit | hwrite
      · have hemission : source a = m.emission a := by
          refine (hsource a).resolve_right fun heq => ?_
          rw [ha] at heq hlit
          omega
        rcases hrelit with hzero | ⟨e', he', hwrite, hpos, hlevel⟩
        · rw [← ha] at hzero
          exact .inl (by rw [hemission, hzero]; exact zero_le _)
        · rw [← ha] at hpos hlevel
          exact .inr ⟨e', he', hwrite, hpos, hlevel.trans hemission.symm⟩
      · exact .inr hwrite
    · rw [hsame a ha]
      exact h.sourced a
  · exact h.fits
  · simp only [setLevel, mem_append, mem_singleton]
    rintro e' (he' | rfl)
    · obtain ⟨hle', hlit⟩ := h.origin e' he'
      refine ⟨le_trans (hdown _) hle', ?_⟩
      by_cases hpos : e'.pos = m.next e.pos d
      · exact .inl (by rw [hpos, update_self])
      · rwa [hsame _ hpos]
    · have hzero : Function.update s.level (m.next e.pos d) 0 (m.spread e d).pos = 0 :=
        update_self ..
      exact ⟨le_trans (le_of_eq hzero) (zero_le _), .inl hzero⟩
  · intro a d' hopens
    simp only [setLevel]
    by_cases ha : a = m.next e.pos d
    · rw [ha, update_self]
      exact .inl (zero_le _)
    · rw [hsame a ha]
      rcases h.covered a d' hopens with hlevel | ⟨e', he', hpos, hlevel, hmem⟩ | ⟨e', he', hvisits⟩
      · by_cases hnext : m.next a d' = m.next e.pos d
        · by_cases hd' : m.opposite d' = m.opposite d
          · obtain rfl := horigin_of a d' hnext hd'
            rcases horigin with hzero | ⟨e', he', hpos, hlevel, hall⟩
            · exact .inl (le_trans (le_of_eq hzero) (zero_le _))
            · refine .inr (.inl ⟨e', he', hpos, ?_, hall ▸ m.mem_all d'⟩)
              exact hlevel.trans (hsame _ ha).symm
          · exact .inr (.inr ⟨m.spread e d, by simp, hnext.symm, mem_away.2 hd',
              (hback a d' hnext hopens).2⟩)
        · exact .inl (by rwa [hsame _ hnext])
      · exact .inr (.inl ⟨e', he', hpos, hlevel.trans (hsame a ha).symm, hmem⟩)
      · exact .inr (.inr ⟨e', mem_append_left _ he', hvisits⟩)

theorem Lowering.drop (h : m.Lowering top source { s with
      decreases := { e with directions := d :: directions } :: decreases })
    (hdrains : m.passes e d = true → s.level (m.next e.pos d) + m.cost (m.next e.pos d) ≤ e.level →
      s.level (m.next e.pos d) ≤ source (m.next e.pos d))
    (hvisits : m.passes e d = true → s.level (m.next e.pos d) ≤ s.level e.pos + m.cost e.pos ∨
      ∃ e' ∈ s.increases, Covers s (m.next e.pos d) (m.opposite d) e') :
    m.Lowering top source { s with
      decreases := { e with directions := directions } :: decreases } where
  level_le := h.level_le
  decrease_le := by
    simp only [forall_mem_cons]
    exact ⟨h.decrease_le { e with directions := d :: directions } mem_cons_self,
      fun e' he' => h.decrease_le e' (mem_cons_of_mem _ he')⟩
  grounded a := by
    rcases h.grounded a with hsource | hlink | ⟨e', he', d', hmem, hnode, hpasses, hlevel⟩
    · exact .inl hsource
    · exact .inr (.inl hlink)
    · rcases mem_cons.1 he' with rfl | he'
      · rcases mem_cons.1 hmem with rfl | hmem
        · subst hnode
          exact .inl (hdrains hpasses hlevel)
        · exact .inr (.inr ⟨_, mem_cons_self, d', hmem, hnode, hpasses, hlevel⟩)
      · exact .inr (.inr ⟨e', mem_cons_of_mem _ he', d', hmem, hnode, hpasses, hlevel⟩)
  sourced := h.sourced
  fits := h.fits
  origin := by
    simp only [forall_mem_cons]
    exact ⟨h.origin { e with directions := d :: directions } mem_cons_self,
      fun e' he' => h.origin e' (mem_cons_of_mem _ he')⟩
  covered a d' hopens := by
    rcases h.covered a d' hopens with hlevel | hcovers | ⟨e', he', hpos, hmem, hpasses⟩
    · exact .inl hlevel
    · exact .inr (.inl hcovers)
    · rcases mem_cons.1 he' with rfl | he'
      · rcases mem_cons.1 hmem with rfl | hmem
        · have hnode : m.next e.pos (m.opposite d') = a := by
            rw [show e.pos = m.next a d' from hpos, m.next_opposite]
          rcases hvisits hpasses with hlevel | ⟨e', he', hcovers⟩
          · rw [hnode] at hlevel
            exact .inl (by rwa [show m.next a d' = e.pos from hpos.symm])
          · rw [hnode, m.opposite_opposite] at hcovers
            exact .inr (.inl ⟨e', he', hcovers⟩)
        · exact .inr (.inr ⟨_, mem_cons_self, hpos, hmem, hpasses⟩)
      · exact .inr (.inr ⟨e', mem_cons_of_mem _ he', hpos, hmem, hpasses⟩)

/-- The old levels are in balance away from the change, and a queue has room for all nodes that are
not too far from it. -/
structure Horizon (m : Flood α δ) (top : ℕ) (old distance : α → ℕ) : Prop where
  top_pos : 0 < top
  next_le (a : α) (d : δ) : distance (m.next a d) ≤ distance a + 1
  room (a : α) (d : δ) : m.opensPlain a d = true → distance (m.next a d) ≤ top →
    m.room (m.next a d) = true
  old_le (a : α) : old a ≤ top
  old_link (a : α) (d : δ) : m.opens a d = true → 0 < distance a → 0 < distance (m.next a d) →
    old a ≤ old (m.next a d) + m.cost (m.next a d)
  emission_le (a : α) : m.emission a ≤ top
  emission_old (a : α) : 0 < distance a → m.emission a ≤ old a

/-- Levels differ from the old ones only near the change, and higher ones only nearer. -/
structure Near (top : ℕ) (old distance : α → ℕ) (s : FloodState α δ) : Prop where
  refused : s.refused = []
  decrease : ∀ e ∈ s.decreases, distance e.pos + e.level ≤ top ∧ (e.level = 0 → distance e.pos = 0)
  above (a : α) : old a < s.level a → distance a + s.level a ≤ top
  below (a : α) : s.level a < old a → distance a ≤ top
  increase : ∀ e ∈ s.increases, e.recheck = false → old e.pos < e.level →
    distance e.pos + e.level ≤ top

variable {old distance : α → ℕ}

theorem opensPlain_of_passes (h : m.passes e d = true) : m.opensPlain e.pos d = true := by
  unfold passes at h
  split_ifs at h
  · exact m.opensPlain_of_opens e.pos d h
  · exact h

theorem Horizon.distance_le (hz : m.Horizon top old distance) (hn : Near top old distance s)
    (he : e ∈ s.decreases) (d : δ) : distance (m.next e.pos d) ≤ top := by
  obtain ⟨hle, hzero⟩ := hn.decrease e he
  have hnext := hz.next_le e.pos d
  have hpos := hz.top_pos
  by_cases hlevel : e.level = 0
  · have := hzero hlevel
    omega
  · omega

theorem Near.append (hn : Near top old distance s)
    (he : e.recheck = false → old e.pos < e.level → distance e.pos + e.level ≤ top) :
    Near top old distance { s with increases := s.increases ++ [e] } :=
  { hn with increase := by simpa [or_imp, forall_and] using ⟨hn.increase, he⟩ }

/-- What is put into the second queue for the source of a node. -/
def relit (m : Flood α δ) (a : α) : List (FloodEntry α δ) :=
  if m.emission a = 0 then [] else [m.writeEntry a]

theorem relight_of_room (h : m.room a = true) :
    m.relight a s = { s with increases := s.increases ++ m.relit a } := by
  unfold relight relit
  split_ifs
  · simp
  · exact enqueueIncrease_of_room h

theorem lower_cases (hroom : m.passes e d = true → m.room (m.next e.pos d) = true) :
    (m.lower e s d = s ∧ (m.passes e d = true → s.level (m.next e.pos d) = 0)) ∨
    (m.passes e d = true ∧ e.level < s.level (m.next e.pos d) + m.cost (m.next e.pos d) ∧
      m.lower e s d = { s with increases := s.increases ++
        [m.recheckEntry (m.next e.pos d) (s.level (m.next e.pos d))] }) ∨
    (m.passes e d = true ∧ s.level (m.next e.pos d) ≠ 0 ∧
      s.level (m.next e.pos d) + m.cost (m.next e.pos d) ≤ e.level ∧
      m.lower e s d = ⟨Function.update s.level (m.next e.pos d) 0,
        s.increases ++ m.relit (m.next e.pos d), s.decreases ++ [m.spread e d], s.refused⟩) := by
  unfold lower
  split_ifs with hpass hle
  · refine .inr (.inr ⟨hpass.1, hpass.2, hle, ?_⟩)
    rw [relight_of_room (hroom hpass.1)]
    exact enqueueDecrease_of_room (hroom hpass.1)
  · exact .inr (.inl ⟨hpass.1, Nat.lt_of_not_le hle, enqueueIncrease_of_room (hroom hpass.1)⟩)
  · refine .inl ⟨rfl, fun h => ?_⟩
    simpa only [h, true_and, ne_eq, not_not] using hpass

theorem fits_writeEntry (h : m.emission a ≤ source a) : m.Fits source (m.writeEntry a) where
  shape := by
    cases hshaped : m.shaped a with
    | true => exact .inl hshaped
    | false => exact .inr hshaped
  level_le _ := h
  writes _ := ⟨rfl, rfl⟩

theorem fits_recheckEntry {level : ℕ} : m.Fits source (m.recheckEntry a level) where
  shape := by
    cases hshaped : m.shaped a with
    | true => exact .inl hshaped
    | false => exact .inr hshaped
  level_le h := by cases h
  writes h := by cases h

theorem Lowering.relit (h : m.Lowering top source s) (hemission : m.emission a ≤ source a) :
    m.Lowering top source { s with increases := s.increases ++ m.relit a } := by
  unfold Flood.relit
  split_ifs
  · simpa using h
  · exact h.append (fits_writeEntry hemission)

theorem Near.relit (hz : m.Horizon top old distance) (hn : Near top old distance s) (a : α) :
    Near top old distance { s with increases := s.increases ++ m.relit a } := by
  unfold Flood.relit
  split_ifs
  · simpa using hn
  · refine hn.append fun _ hlevel => ?_
    have hle := hz.emission_le a
    have hold := hz.emission_old a
    simp only [writeEntry] at hlevel ⊢
    omega

theorem Near.drop (hn : Near top old distance { s with
      decreases := { e with directions := d :: directions } :: decreases }) :
    Near top old distance { s with
      decreases := { e with directions := directions } :: decreases } :=
  { hn with
    decrease := by
      have h := hn.decrease
      simp only [forall_mem_cons] at h ⊢
      exact h }

theorem Near.zero (hz : m.Horizon top old distance) (hn : Near top old distance s)
    (he : e ∈ s.decreases) (hlit : s.level (m.next e.pos d) ≠ 0)
    (hle : s.level (m.next e.pos d) + m.cost (m.next e.pos d) ≤ e.level) :
    Near top old distance { setLevel (m.next e.pos d) 0 s with
      decreases := s.decreases ++ [m.spread e d] } := by
  have hcost := m.cost_pos (m.next e.pos d)
  have hnext := hz.next_le e.pos d
  have hnear := hn.decrease e he
  constructor
  · exact hn.refused
  · simp only [mem_append, mem_singleton]
    rintro e' (he' | rfl)
    · exact hn.decrease e' he'
    · simp only [spread]
      omega
  · intro a habove
    simp only [setLevel] at habove ⊢
    by_cases ha : a = m.next e.pos d
    · rw [ha, update_self] at habove
      omega
    · rw [update_of_ne ha] at habove ⊢
      exact hn.above a habove
  · intro a hbelow
    simp only [setLevel] at hbelow
    by_cases ha : a = m.next e.pos d
    · rw [ha]
      omega
    · rw [update_of_ne ha] at hbelow
      exact hn.below a hbelow
  · exact hn.increase

section Lower

variable (hz : m.Horizon top old distance)
  (hsource : ∀ a, source a = m.emission a ∨ source a = top)
  (hemission : ∀ a, m.emission a ≤ source a)

include hz hsource hemission

theorem Lowering.lower {d : δ} {directions : List δ} (h : m.Lowering top source { s with
      decreases := { e with directions := d :: directions } :: s.decreases })
    (hn : Near top old distance { s with
      decreases := { e with directions := d :: directions } :: s.decreases }) :
    m.Lowering top source { m.lower e s d with
      decreases := { e with directions := directions } :: (m.lower e s d).decreases } ∧
    Near top old distance { m.lower e s d with
      decreases := { e with directions := directions } :: (m.lower e s d).decreases } := by
  have hroom : m.passes e d = true → m.room (m.next e.pos d) = true := fun hpass =>
    hz.room e.pos d (opensPlain_of_passes hpass) (hz.distance_le hn mem_cons_self d)
  rcases lower_cases (s := s) hroom with ⟨heq, hzero⟩ | ⟨hpass, hlt, heq⟩ | ⟨hpass, hlit, hle, heq⟩
  · rw [heq]
    refine ⟨h.drop (fun hpass _ => ?_) (fun hpass => .inl ?_), hn.drop⟩
    · rw [hzero hpass]
      exact zero_le _
    · rw [hzero hpass]
      exact zero_le _
  · rw [heq]
    refine ⟨(h.append fits_recheckEntry).drop (fun _ hle => absurd hle (not_le.2 hlt))
      (fun _ => .inr ⟨m.recheckEntry (m.next e.pos d) (s.level (m.next e.pos d)), by simp, rfl, rfl,
        m.mem_all _⟩), (hn.append fun h => ?_).drop⟩
    cases h
  · rw [heq]
    have hzero : Function.update s.level (m.next e.pos d) 0 (m.next e.pos d) = 0 :=
      update_self ..
    have hrelit : m.emission (m.next e.pos d) = 0 ∨
        ∃ e' ∈ s.increases ++ m.relit (m.next e.pos d), e'.write = true ∧
          e'.pos = m.next e.pos d ∧ e'.level = m.emission (m.next e.pos d) := by
      by_cases hdark : m.emission (m.next e.pos d) = 0
      · exact .inl hdark
      · exact .inr ⟨m.writeEntry (m.next e.pos d), by simp [Flood.relit, hdark], rfl, rfl, rfl⟩
    have hlower := (h.relit (hemission (m.next e.pos d))).zero hsource mem_cons_self hle hrelit
    have hnear := (hn.relit hz (m.next e.pos d)).zero hz mem_cons_self hlit hle
    refine ⟨hlower.drop (fun _ _ => ?_) (fun _ => .inl ?_), hnear.drop⟩
    · exact le_trans (le_of_eq hzero) (zero_le _)
    · exact le_trans (le_of_eq hzero) (zero_le _)

theorem Lowering.foldl_lower {directions : List δ} (h : m.Lowering top source { s with
      decreases := { e with directions := directions } :: s.decreases })
    (hn : Near top old distance { s with
      decreases := { e with directions := directions } :: s.decreases }) :
    m.Lowering top source { directions.foldl (m.lower e) s with
      decreases := { e with directions := [] } :: (directions.foldl (m.lower e) s).decreases } ∧
    Near top old distance { directions.foldl (m.lower e) s with
      decreases := { e with directions := [] } :: (directions.foldl (m.lower e) s).decreases } := by
  induction directions generalizing s with
  | nil => exact ⟨h, hn⟩
  | cons d directions ih =>
    obtain ⟨h, hn⟩ := h.lower hz hsource hemission hn
    exact ih h hn

end Lower

theorem Lowering.tail (hd : e.directions = [])
    (h : m.Lowering top source { s with decreases := e :: decreases }) :
    m.Lowering top source { s with decreases := decreases } where
  level_le := h.level_le
  decrease_le e' he' := h.decrease_le e' (mem_cons_of_mem _ he')
  grounded a := by
    rcases h.grounded a with hsource | hlink | ⟨e', he', d', hmem, hdrains⟩
    · exact .inl hsource
    · exact .inr (.inl hlink)
    · rcases mem_cons.1 he' with rfl | he'
      · rw [hd] at hmem
        cases hmem
      · exact .inr (.inr ⟨e', he', d', hmem, hdrains⟩)
  sourced := h.sourced
  fits := h.fits
  origin e' he' := h.origin e' (mem_cons_of_mem _ he')
  covered a d hopens := by
    rcases h.covered a d hopens with hlevel | hcovers | ⟨e', he', hpos, hmem, hpasses⟩
    · exact .inl hlevel
    · exact .inr (.inl hcovers)
    · rcases mem_cons.1 he' with rfl | he'
      · rw [hd] at hmem
        cases hmem
      · exact .inr (.inr ⟨e', he', hpos, hmem, hpasses⟩)

theorem Lowering.stepDecrease {s' : FloodState α δ} (hz : m.Horizon top old distance)
    (hsource : ∀ a, source a = m.emission a ∨ source a = top)
    (hemission : ∀ a, m.emission a ≤ source a) (h : m.Lowering top source s)
    (hn : Near top old distance s) (hstep : m.stepDecrease s = some s') :
    m.Lowering top source s' ∧ Near top old distance s' := by
  unfold Flood.stepDecrease at hstep
  cases hqueue : s.decreases with
  | nil => simp [hqueue] at hstep
  | cons e rest =>
    simp only [hqueue, Option.some.injEq] at hstep
    subst hstep
    have hs : s = { s with decreases := { e with directions := e.directions } :: rest } := by
      rw [← hqueue]
    rw [hs] at h hn
    obtain ⟨hlower, hnear⟩ := Lowering.foldl_lower (s := { s with decreases := rest }) hz hsource
      hemission h hn
    refine ⟨hlower.tail rfl, { hnear with decrease := fun e' he' => ?_ }⟩
    exact hnear.decrease e' (mem_cons_of_mem _ he')

/-- While levels are raised. -/
structure Raising (m : Flood α δ) (source field : α → ℕ) (s : FloodState α δ) : Prop where
  level_le (a : α) : s.level a ≤ field a
  fits : ∀ e ∈ s.increases, m.Fits field e
  sourced (a : α) : source a ≤ s.level a ∨
    ∃ e ∈ s.increases, e.write = true ∧ e.pos = a ∧ e.level = source a
  lagging : ∀ e ∈ s.increases, e.recheck = false → e.level ≤ s.level e.pos ∨
    ∃ w ∈ s.increases, w.write = true ∧ w.pos = e.pos ∧ e.level ≤ w.level
  covered (a : α) (d : δ) : m.opens a d = true →
    s.level a ≤ s.level (m.next a d) + m.cost (m.next a d) ∨
    (∃ e ∈ s.increases, Covers s a d e) ∨
    ∃ w ∈ s.increases, w.write = true ∧ w.pos = m.next a d ∧
      s.level a ≤ w.level + m.cost (m.next a d)

theorem Fits.mono {bound' : α → ℕ} (h : m.Fits bound e) (hle : ∀ a, bound a ≤ bound' a) :
    m.Fits bound' e :=
  ⟨h.shape, fun hrecheck => le_trans (h.level_le hrecheck) (hle e.pos), h.writes⟩

/-- When all has been taken away, what is left is supported, so it lies below every closed field. -/
theorem Lowering.raising (h : m.Lowering top source s) (hs : s.decreases = [])
    (hc : m.Closed source field) : m.Raising source field s where
  level_le := by
    have hgrounded : m.Grounded source s.level := by
      intro a
      rcases h.grounded a with hsource | hlink | ⟨e, he, _⟩
      · exact .inl hsource
      · exact .inr hlink
      · rw [hs] at he
        cases he
    exact hgrounded.le h.level_le hc
  fits e he := (h.fits e he).mono hc.source_le
  sourced := h.sourced
  lagging e he hrecheck := by
    have hle := (h.fits e he).level_le hrecheck
    rcases h.sourced e.pos with hsource | ⟨w, hw, hwrite, hpos, hlevel⟩
    · exact .inl (le_trans hle hsource)
    · exact .inr ⟨w, hw, hwrite, hpos, hlevel ▸ hle⟩
  covered a d hopens := by
    rcases h.covered a d hopens with hlevel | hcovers | ⟨e, he, _⟩
    · exact .inl hlevel
    · exact .inr (.inl hcovers)
    · rw [hs] at he
      cases he

theorem Raising.closed (h : m.Raising source field s) (hs : s.increases = []) :
    m.Closed source s.level where
  source_le a := by
    rcases h.sourced a with hle | ⟨e, he, _⟩
    · exact hle
    · rw [hs] at he
      cases he
  link_le a d hopens := by
    rcases h.covered a d hopens with hle | ⟨e, he, _⟩ | ⟨e, he, _⟩
    · exact hle
    all_goals
      rw [hs] at he
      cases he

theorem Raising.skip (h : m.Raising source field { s with increases := e :: increases })
    (hrecheck : e.recheck = true) (hlevel : s.level e.pos ≠ e.level) :
    m.Raising source field { s with increases := increases } := by
  have hwrite : e.write ≠ true := by
    intro hwrite
    rw [((h.fits e mem_cons_self).writes hwrite).1] at hrecheck
    cases hrecheck
  have hwrites : ∀ P : FloodEntry α δ → Prop, (∃ w ∈ e :: increases, w.write = true ∧ P w) →
      ∃ w ∈ increases, w.write = true ∧ P w := by
    rintro P ⟨w, hw, hw'⟩
    rcases mem_cons.1 hw with rfl | hw
    · exact absurd hw'.1 hwrite
    · exact ⟨w, hw, hw'⟩
  constructor
  · exact h.level_le
  · exact fun e' he' => h.fits e' (mem_cons_of_mem _ he')
  · exact fun a => (h.sourced a).imp_right (hwrites _)
  · exact fun e' he' hr => (h.lagging e' (mem_cons_of_mem _ he') hr).imp_right (hwrites _)
  · intro a d hopens
    rcases h.covered a d hopens with hle | ⟨e', he', hcovers⟩ | hw
    · exact .inl hle
    · rcases mem_cons.1 he' with rfl | he'
      · obtain ⟨rfl, heq, _⟩ := hcovers
        exact absurd heq.symm hlevel
      · exact .inr (.inl ⟨e', he', hcovers⟩)
    · exact .inr (.inr (hwrites _ hw))

def plain (e : FloodEntry α δ) : FloodEntry α δ := { e with recheck := false, write := false }

theorem Raising.keep (h : m.Raising source field { s with increases := e :: increases })
    (hrecheck : e.recheck = true → s.level e.pos = e.level) (hwrite : e.write = false) :
    m.Raising source field { s with increases := plain e :: increases } := by
  have hwrites : ∀ P : FloodEntry α δ → Prop, (∃ w ∈ e :: increases, w.write = true ∧ P w) →
      ∃ w ∈ plain e :: increases, w.write = true ∧ P w := by
    rintro P ⟨w, hw, hw'⟩
    rcases mem_cons.1 hw with rfl | hw
    · rw [hwrite] at hw'
      cases hw'.1
    · exact ⟨w, mem_cons_of_mem _ hw, hw'⟩
  have hfits := h.fits e mem_cons_self
  constructor
  · exact h.level_le
  · simp only [forall_mem_cons]
    refine ⟨⟨hfits.shape, fun _ => ?_, fun hplain => by cases hplain⟩,
      fun e' he' => h.fits e' (mem_cons_of_mem _ he')⟩
    cases hchecked : e.recheck with
    | false => exact hfits.level_le hchecked
    | true => exact (hrecheck hchecked) ▸ h.level_le e.pos
  · exact fun a => (h.sourced a).imp_right (hwrites _)
  · simp only [forall_mem_cons]
    refine ⟨fun _ => ?_,
      fun e' he' hr => (h.lagging e' (mem_cons_of_mem _ he') hr).imp_right (hwrites _)⟩
    cases hchecked : e.recheck with
    | false => exact (h.lagging e mem_cons_self hchecked).imp_right (hwrites _)
    | true => exact .inl (le_of_eq (hrecheck hchecked).symm)
  · intro a d hopens
    rcases h.covered a d hopens with hle | ⟨e', he', hcovers⟩ | hw
    · exact .inl hle
    · rcases mem_cons.1 he' with rfl | he'
      · exact .inr (.inl ⟨plain e', mem_cons_self, hcovers⟩)
      · exact .inr (.inl ⟨e', mem_cons_of_mem _ he', hcovers⟩)
    · exact .inr (.inr (hwrites _ hw))

theorem Raising.written (h : m.Raising source field { s with increases := e :: increases })
    (hwrite : e.write = true) (hle : s.level e.pos ≤ e.level) :
    m.Raising source field { setLevel e.pos e.level s with increases := plain e :: increases } := by
  obtain ⟨hrecheck, hall⟩ := (h.fits e mem_cons_self).writes hwrite
  have hfits := h.fits e mem_cons_self
  have hself : Function.update s.level e.pos e.level e.pos = e.level := update_self ..
  have hup : ∀ a, s.level a ≤ Function.update s.level e.pos e.level a := by
    intro a
    by_cases ha : a = e.pos
    · rw [ha, hself]
      exact hle
    · rw [update_of_ne ha]
  constructor
  · intro a
    simp only [setLevel]
    by_cases ha : a = e.pos
    · rw [ha, hself]
      exact hfits.level_le hrecheck
    · rw [update_of_ne ha]
      exact h.level_le a
  · simp only [forall_mem_cons]
    exact ⟨⟨hfits.shape, fun _ => hfits.level_le hrecheck, fun hplain => by cases hplain⟩,
      fun e' he' => h.fits e' (mem_cons_of_mem _ he')⟩
  · intro a
    rcases h.sourced a with hsource | ⟨w, hw, hw', hpos, hlevel⟩
    · exact .inl (le_trans hsource (hup a))
    · rcases mem_cons.1 hw with rfl | hw
      · subst hpos
        exact .inl (le_of_eq (hself.trans hlevel).symm)
      · exact .inr ⟨w, mem_cons_of_mem _ hw, hw', hpos, hlevel⟩
  · have hrest : ∀ e' ∈ e :: increases, e'.recheck = false →
        e'.level ≤ Function.update s.level e.pos e.level e'.pos ∨
        ∃ w ∈ plain e :: increases, w.write = true ∧ w.pos = e'.pos ∧ e'.level ≤ w.level := by
      intro e' he' hr
      rcases h.lagging e' he' hr with hlag | ⟨w, hw, hw', hpos, hlevel⟩
      · exact .inl (le_trans hlag (hup e'.pos))
      · rcases mem_cons.1 hw with rfl | hw
        · exact .inl (by rw [← hpos, hself]; exact hlevel)
        · exact .inr ⟨w, mem_cons_of_mem _ hw, hw', hpos, hlevel⟩
    simp only [forall_mem_cons, setLevel]
    exact ⟨fun _ => hrest e mem_cons_self hrecheck,
      fun e' he' hr => hrest e' (mem_cons_of_mem _ he') hr⟩
  · intro a d hopens
    simp only [setLevel]
    by_cases ha : a = e.pos
    · refine .inr (.inl ⟨plain e, mem_cons_self, ha.symm, ?_, ?_⟩)
      · rw [ha]
        exact hself.symm
      · exact (show (plain e).directions = m.all from hall) ▸ m.mem_all d
    · have hsame : Function.update s.level e.pos e.level a = s.level a :=
        update_of_ne ha _ _
      rw [hsame]
      rcases h.covered a d hopens with hlevel | ⟨e', he', hpos, hlevel, hmem⟩ |
        ⟨w, hw, hw', hpos, hlevel⟩
      · exact .inl (Nat.le_trans hlevel (Nat.add_le_add_right (hup _) _))
      · rcases mem_cons.1 he' with rfl | he'
        · exact absurd hpos.symm ha
        · exact .inr (.inl ⟨e', mem_cons_of_mem _ he', hpos, hlevel.trans hsame.symm, hmem⟩)
      · rcases mem_cons.1 hw with rfl | hw
        · exact .inl (by rw [← hpos, hself, hpos]; exact hlevel)
        · exact .inr (.inr ⟨w, mem_cons_of_mem _ hw, hw', hpos, hlevel⟩)

/-- What is put into the second queue when a level is raised. A level of one goes no further. -/
def spreads (m : Flood α δ) (e : FloodEntry α δ) (d : δ) : List (FloodEntry α δ) :=
  if 1 < (m.spread e d).level then [m.spread e d] else []

theorem raise_cases (hroom : m.passes e d = true →
      s.level (m.next e.pos d) + m.cost (m.next e.pos d) < e.level →
      m.room (m.next e.pos d) = true) :
    (m.raise e s d = s ∧ (m.passes e d = true →
      e.level ≤ s.level (m.next e.pos d) + m.cost (m.next e.pos d))) ∨
    (m.passes e d = true ∧ s.level (m.next e.pos d) + m.cost (m.next e.pos d) < e.level ∧
      m.raise e s d = { setLevel (m.next e.pos d) (m.spread e d).level s with
        increases := s.increases ++ m.spreads e d }) := by
  unfold raise spreads
  split_ifs with hpass hlevel
  · exact .inr ⟨hpass.1, hpass.2, enqueueIncrease_of_room (hroom hpass.1 hpass.2)⟩
  · exact .inr ⟨hpass.1, hpass.2, by rw [append_nil]; rfl⟩
  all_goals
    refine .inl ⟨rfl, fun h => ?_⟩
    simpa only [h, true_and, not_lt] using hpass

/-- A level is raised over an open link: the new entry covers the links of the node, and the way
back needs none. -/
theorem Raising.raised (h : m.Raising source field s) (hc : m.Closed source field)
    (he : e ∈ s.increases) (hrecheck : e.recheck = false) (hpass : m.passes e d = true)
    (hlt : s.level (m.next e.pos d) + m.cost (m.next e.pos d) < e.level) :
    m.Raising source field { setLevel (m.next e.pos d) (m.spread e d).level s with
      increases := s.increases ++ m.spreads e d } := by
  have hfits := h.fits e he
  have hopens : m.opens e.pos d = true := (hfits.passes_eq d) ▸ hpass
  have hlevel : (m.spread e d).level = e.level - m.cost (m.next e.pos d) := rfl
  have hfield : (m.spread e d).level ≤ field (m.next e.pos d) := by
    have hlink := hc.link_le e.pos d hopens
    have hbound := hfits.level_le hrecheck
    omega
  have hself : Function.update s.level (m.next e.pos d) (m.spread e d).level (m.next e.pos d) =
      (m.spread e d).level := update_self ..
  have hup : ∀ a, s.level a ≤ Function.update s.level (m.next e.pos d) (m.spread e d).level a := by
    intro a
    by_cases ha : a = m.next e.pos d
    · rw [ha, hself]
      omega
    · rw [update_of_ne ha]
  have hspreads : ∀ e' ∈ m.spreads e d, e' = m.spread e d := by
    intro e' he'
    unfold spreads at he'
    split_ifs at he'
    · exact mem_singleton.1 he'
    · cases he'
  have hfits' : m.Fits field (m.spread e d) := by
    refine ⟨?_, fun _ => hfield, fun hwrite => by cases hwrite⟩
    cases hshaped : m.shaped (m.next e.pos d) with
    | true => exact .inl hshaped
    | false => exact .inr hshaped
  constructor
  · intro a
    simp only [setLevel]
    by_cases ha : a = m.next e.pos d
    · rw [ha, hself]
      exact hfield
    · rw [update_of_ne ha]
      exact h.level_le a
  · intro e' he'
    rcases mem_append.1 he' with he' | he'
    · exact h.fits e' he'
    · exact hspreads e' he' ▸ hfits'
  · intro a
    rcases h.sourced a with hsource | ⟨w, hw, hw'⟩
    · exact .inl (le_trans hsource (hup a))
    · exact .inr ⟨w, mem_append_left _ hw, hw'⟩
  · intro e' he' hr
    rcases mem_append.1 he' with he' | he'
    · rcases h.lagging e' he' hr with hlag | ⟨w, hw, hw'⟩
      · exact .inl (le_trans hlag (hup e'.pos))
      · exact .inr ⟨w, mem_append_left _ hw, hw'⟩
    · obtain rfl := hspreads e' he'
      exact .inl (le_of_eq hself.symm)
  · intro a d' hopens'
    simp only [setLevel]
    by_cases ha : a = m.next e.pos d
    · subst ha
      by_cases hd' : d' = m.opposite d
      · subst hd'
        rw [m.next_opposite]
        rcases h.lagging e he hrecheck with hlag | ⟨w, hw, hw', hpos, hlag⟩
        · have := hup e.pos
          exact .inl (by omega)
        · exact .inr (.inr ⟨w, mem_append_left _ hw, hw', hpos, by omega⟩)
      · by_cases hone : 1 < (m.spread e d).level
        · refine .inr (.inl ⟨m.spread e d, mem_append_right _ ?_, rfl, hself.symm,
            mem_away.2 hd'⟩)
          rw [spreads, if_pos hone]
          exact mem_singleton_self _
        · have hcost := m.cost_pos (m.next (m.next e.pos d) d')
          exact .inl (by omega)
    · have hsame : Function.update s.level (m.next e.pos d) (m.spread e d).level a = s.level a :=
        update_of_ne ha _ _
      rw [hsame]
      rcases h.covered a d' hopens' with hle | ⟨e', he', hpos, heq, hmem⟩ | ⟨w, hw, hw'⟩
      · exact .inl (Nat.le_trans hle (Nat.add_le_add_right (hup _) _))
      · exact .inr (.inl ⟨e', mem_append_left _ he', hpos, heq.trans hsame.symm, hmem⟩)
      · exact .inr (.inr ⟨w, mem_append_left _ hw, hw'⟩)

theorem Raising.drop (h : m.Raising source field { s with
      increases := { e with directions := d :: directions } :: increases })
    (hbalanced : m.opens e.pos d = true →
      e.level ≤ s.level (m.next e.pos d) + m.cost (m.next e.pos d)) (hwrite : e.write = false) :
    m.Raising source field { s with
      increases := { e with directions := directions } :: increases } := by
  have hwrites : ∀ P : FloodEntry α δ → Prop,
      (∃ w ∈ { e with directions := d :: directions } :: increases, w.write = true ∧ P w) →
      ∃ w ∈ { e with directions := directions } :: increases, w.write = true ∧ P w := by
    rintro P ⟨w, hw, hw'⟩
    rcases mem_cons.1 hw with rfl | hw
    · rw [show _ = false from hwrite] at hw'
      cases hw'.1
    · exact ⟨w, mem_cons_of_mem _ hw, hw'⟩
  have hfits := h.fits _ mem_cons_self
  constructor
  · exact h.level_le
  · simp only [forall_mem_cons]
    refine ⟨⟨hfits.shape, hfits.level_le, fun hw => ?_⟩,
      fun e' he' => h.fits e' (mem_cons_of_mem _ he')⟩
    rw [show _ = false from hwrite] at hw
    cases hw
  · exact fun a => (h.sourced a).imp_right (hwrites _)
  · simp only [forall_mem_cons]
    exact ⟨fun hr => (h.lagging _ mem_cons_self hr).imp_right (hwrites _),
      fun e' he' hr => (h.lagging e' (mem_cons_of_mem _ he') hr).imp_right (hwrites _)⟩
  · intro a d' hopens
    rcases h.covered a d' hopens with hle | ⟨e', he', hpos, hlevel, hmem⟩ | hw
    · exact .inl hle
    · rcases mem_cons.1 he' with rfl | he'
      · rcases mem_cons.1 hmem with rfl | hmem
        · subst hpos
          exact .inl (le_trans (le_of_eq hlevel.symm) (hbalanced hopens))
        · exact .inr (.inl ⟨_, mem_cons_self, hpos, hlevel, hmem⟩)
      · exact .inr (.inl ⟨e', mem_cons_of_mem _ he', hpos, hlevel, hmem⟩)
    · exact .inr (.inr (hwrites _ hw))

theorem Raising.tail (hd : e.directions = []) (hwrite : e.write = false)
    (h : m.Raising source field { s with increases := e :: increases }) :
    m.Raising source field { s with increases := increases } := by
  have hwrites : ∀ P : FloodEntry α δ → Prop, (∃ w ∈ e :: increases, w.write = true ∧ P w) →
      ∃ w ∈ increases, w.write = true ∧ P w := by
    rintro P ⟨w, hw, hw'⟩
    rcases mem_cons.1 hw with rfl | hw
    · rw [hwrite] at hw'
      cases hw'.1
    · exact ⟨w, hw, hw'⟩
  constructor
  · exact h.level_le
  · exact fun e' he' => h.fits e' (mem_cons_of_mem _ he')
  · exact fun a => (h.sourced a).imp_right (hwrites _)
  · exact fun e' he' hr => (h.lagging e' (mem_cons_of_mem _ he') hr).imp_right (hwrites _)
  · intro a d' hopens
    rcases h.covered a d' hopens with hle | ⟨e', he', hpos, hlevel, hmem⟩ | hw
    · exact .inl hle
    · rcases mem_cons.1 he' with rfl | he'
      · rw [hd] at hmem
        cases hmem
      · exact .inr (.inl ⟨e', he', hpos, hlevel, hmem⟩)
    · exact .inr (.inr (hwrites _ hw))

theorem Near.raised (hz : m.Horizon top old distance) (hn : Near top old distance s)
    (he : e ∈ s.increases) (hrecheck : e.recheck = false) (hopens : m.opens e.pos d = true)
    (hlt : s.level (m.next e.pos d) + m.cost (m.next e.pos d) < e.level) :
    distance (m.next e.pos d) ≤ top ∧
      Near top old distance { setLevel (m.next e.pos d) (m.spread e d).level s with
        increases := s.increases ++ m.spreads e d } := by
  have hlevel : (m.spread e d).level = e.level - m.cost (m.next e.pos d) := rfl
  have hcost := m.cost_pos (m.next e.pos d)
  have hnext := hz.next_le e.pos d
  have habove : old (m.next e.pos d) < (m.spread e d).level →
      distance (m.next e.pos d) + (m.spread e d).level ≤ top := by
    have hfrom := hn.increase e he hrecheck
    have hle := hz.old_le e.pos
    by_cases hhigh : old e.pos < e.level
    · have := hfrom hhigh
      omega
    · by_cases hpos : distance e.pos = 0
      · omega
      · by_cases hzero : distance (m.next e.pos d) = 0
        · omega
        · have hlink := hz.old_link e.pos d hopens (Nat.pos_of_ne_zero hpos)
            (Nat.pos_of_ne_zero hzero)
          omega
  have hspreads : ∀ e' ∈ m.spreads e d, e' = m.spread e d := by
    intro e' he'
    unfold spreads at he'
    split_ifs at he'
    · exact mem_singleton.1 he'
    · cases he'
  refine ⟨?_, ?_⟩
  · by_cases hold : old (m.next e.pos d) < (m.spread e d).level
    · have := habove hold
      omega
    · exact hn.below _ (by omega)
  · constructor
    · exact hn.refused
    · exact hn.decrease
    · intro a hold
      simp only [setLevel] at hold ⊢
      by_cases ha : a = m.next e.pos d
      · rw [ha, update_self] at hold ⊢
        exact habove hold
      · rw [update_of_ne ha] at hold ⊢
        exact hn.above a hold
    · intro a hold
      simp only [setLevel] at hold
      by_cases ha : a = m.next e.pos d
      · rw [ha, update_self] at hold
        exact ha ▸ hn.below _ (by omega)
      · rw [update_of_ne ha] at hold
        exact hn.below a hold
    · intro e' he' hr hold
      rcases mem_append.1 he' with he' | he'
      · exact hn.increase e' he' hr hold
      · rw [hspreads e' he'] at hold ⊢
        exact habove hold

section

variable (hn : Near top old distance { s with increases := e :: increases })

include hn

theorem Near.head {e' : FloodEntry α δ}
    (he : e'.recheck = false → old e'.pos < e'.level → distance e'.pos + e'.level ≤ top) :
    Near top old distance { s with increases := e' :: increases } :=
  { hn with
    increase := by
      simp only [forall_mem_cons]
      exact ⟨he, fun x hx => hn.increase x (mem_cons_of_mem _ hx)⟩ }

theorem Near.tail :
    Near top old distance { s with increases := increases } :=
  { hn with increase := fun x hx => hn.increase x (mem_cons_of_mem _ hx) }

theorem Near.written
    (hrecheck : e.recheck = false) (hle : s.level e.pos ≤ e.level) :
    Near top old distance { setLevel e.pos e.level s with increases := plain e :: increases } := by
  have hnear := hn.increase e mem_cons_self hrecheck
  constructor
  · exact hn.refused
  · exact hn.decrease
  · intro a hold
    simp only [setLevel] at hold ⊢
    by_cases ha : a = e.pos
    · rw [ha, update_self] at hold ⊢
      exact hnear hold
    · rw [update_of_ne ha] at hold ⊢
      exact hn.above a hold
  · intro a hold
    simp only [setLevel] at hold
    by_cases ha : a = e.pos
    · rw [ha, update_self] at hold
      exact ha ▸ hn.below e.pos (lt_of_le_of_lt hle hold)
    · rw [update_of_ne ha] at hold
      exact hn.below a hold
  · simp only [forall_mem_cons]
    exact ⟨fun _ => hnear, fun e' he' => hn.increase e' (mem_cons_of_mem _ he')⟩

end

section Raise

variable (hz : m.Horizon top old distance) (hc : m.Closed source field)

include hz hc

theorem Raising.raise {d : δ} {directions : List δ} (hrecheck : e.recheck = false)
    (hwrite : e.write = false)
    (h : m.Raising source field { s with
      increases := { e with directions := d :: directions } :: s.increases })
    (hn : Near top old distance { s with
      increases := { e with directions := d :: directions } :: s.increases }) :
    m.Raising source field { m.raise e s d with
      increases := { e with directions := directions } :: (m.raise e s d).increases } ∧
    Near top old distance { m.raise e s d with
      increases := { e with directions := directions } :: (m.raise e s d).increases } := by
  have hpasses : m.passes e d = m.opens e.pos d := (h.fits _ mem_cons_self).passes_eq d
  have hroom : m.passes e d = true → s.level (m.next e.pos d) + m.cost (m.next e.pos d) < e.level →
      m.room (m.next e.pos d) = true := fun hpass hlt =>
    hz.room e.pos d (opensPlain_of_passes hpass)
      (hn.raised hz mem_cons_self hrecheck (hpasses ▸ hpass) hlt).1
  rcases raise_cases hroom with ⟨heq, hbalanced⟩ | ⟨hpass, hlt, heq⟩
  · rw [heq]
    exact ⟨h.drop (fun hopens => hbalanced (hpasses ▸ hopens)) hwrite,
      hn.head (hn.increase { e with directions := d :: directions } mem_cons_self)⟩
  · rw [heq]
    have hraised := h.raised hc mem_cons_self hrecheck hpass hlt
    have hnear := (hn.raised hz mem_cons_self hrecheck (hpasses ▸ hpass) hlt).2
    refine ⟨hraised.drop (fun _ => ?_) hwrite,
      hnear.head (hn.increase { e with directions := d :: directions } mem_cons_self)⟩
    have hself : Function.update s.level (m.next e.pos d) (m.spread e d).level (m.next e.pos d) =
        e.level - m.cost (m.next e.pos d) := update_self ..
    exact le_add_of_sub_le (le_of_eq hself.symm)

theorem Raising.foldl_raise {directions : List δ} (hrecheck : e.recheck = false)
    (hwrite : e.write = false)
    (h : m.Raising source field { s with
      increases := { e with directions := directions } :: s.increases })
    (hn : Near top old distance { s with
      increases := { e with directions := directions } :: s.increases }) :
    m.Raising source field { directions.foldl (m.raise e) s with
      increases := { e with directions := [] } :: (directions.foldl (m.raise e) s).increases } ∧
    Near top old distance { directions.foldl (m.raise e) s with
      increases := { e with directions := [] } :: (directions.foldl (m.raise e) s).increases } := by
  induction directions generalizing s with
  | nil => exact ⟨h, hn⟩
  | cons d directions ih =>
    obtain ⟨h, hn⟩ := h.raise hz hc hrecheck hwrite hn
    exact ih h hn

end Raise

/-- The next entry does not write its level over a higher one. -/
def WritesUp (s : FloodState α δ) : Prop :=
  ∀ e rest, s.increases = e :: rest → e.write = true → s.level e.pos ≤ e.level

theorem Raising.stepIncrease {s' : FloodState α δ} (hz : m.Horizon top old distance)
    (hc : m.Closed source field) (h : m.Raising source field s) (hn : Near top old distance s)
    (hup : WritesUp s) (hstep : m.stepIncrease s = some s') :
    m.Raising source field s' ∧ Near top old distance s' := by
  unfold Flood.stepIncrease at hstep
  cases hqueue : s.increases with
  | nil => simp [hqueue] at hstep
  | cons e rest =>
    simp only [hqueue] at hstep
    have hs : s = { s with increases := e :: rest } := by rw [← hqueue]
    have hwrites := hup e rest hqueue
    rw [hs] at h hn
    have hfits := h.fits e mem_cons_self
    have hspread : ∀ s₁ : FloodState α δ,
        m.Raising source field { s₁ with increases := plain e :: s₁.increases } →
        Near top old distance { s₁ with increases := plain e :: s₁.increases } →
        m.Raising source field (e.directions.foldl (m.raise e) s₁) ∧
          Near top old distance (e.directions.foldl (m.raise e) s₁) := by
      intro s₁ h₁ hn₁
      obtain ⟨hraise, hnear⟩ := Raising.foldl_raise (e := plain e) hz hc rfl rfl h₁ hn₁
      exact ⟨hraise.tail rfl rfl, hnear.tail⟩
    split_ifs at hstep with hskip hwrite
    · obtain rfl := Option.some.inj hstep
      simp only [Bool.and_eq_true, bne_iff_ne] at hskip
      exact ⟨h.skip hskip.1 hskip.2, hn.tail⟩
    · obtain rfl := Option.some.inj hstep
      simp only [Bool.and_eq_true, Bool.not_eq_true'] at hwrite
      exact hspread (setLevel e.pos e.level { s with increases := rest })
        (h.written hwrite.2 (hwrites hwrite.2)) (hn.written hwrite.1 (hwrites hwrite.2))
    · obtain rfl := Option.some.inj hstep
      have hplain : e.write = false := by
        cases hw : e.write with
        | false => rfl
        | true => simp [hw, (hfits.writes hw).1] at hwrite
      have hchecked : e.recheck = true → s.level e.pos = e.level := by
        intro hr
        simpa [hr] using hskip
      refine hspread { s with increases := rest } (h.keep hchecked hplain)
        (hn.head fun _ hold => ?_)
      cases hr : e.recheck with
      | false => exact hn.increase e mem_cons_self hr hold
      | true =>
        have heq := hchecked hr
        have habove := hn.above e.pos
        simp only [plain] at hold ⊢
        rw [← heq] at hold ⊢
        exact habove hold

theorem Raising.reaches (hz : m.Horizon top old distance) (hc : m.Closed source field)
    (h : m.Raising source field s) (hn : Near top old distance s)
    (hup : ∀ t, Reaches m.stepIncrease s t → WritesUp t) (ht : Reaches m.stepIncrease s t) :
    m.Raising source field t ∧ Near top old distance t := by
  induction ht with
  | refl => exact ⟨h, hn⟩
  | tail hreach hstep ih => exact ih.1.stepIncrease hz hc ih.2 (hup _ hreach) hstep

theorem closed_top (hsource : ∀ a, source a ≤ top) : m.Closed source fun _ => top :=
  ⟨hsource, fun _ _ _ => le_add_right _ _⟩

theorem raising_settles (hz : m.Horizon top old distance) (hsource : ∀ a, source a ≤ top)
    (h : ∀ field, m.Closed source field → m.Raising source field s) (hn : Near top old distance s)
    (hup : ∀ t, Reaches m.stepIncrease s t → WritesUp t) (ht : Reaches m.stepIncrease s t)
    (hend : m.stepIncrease t = none) :
    m.Settled source t.level ∧ (∀ a, t.level a ≤ top) ∧ Near top old distance t := by
  have hkeep : ∀ field, m.Closed source field →
      m.Raising source field t ∧ Near top old distance t :=
    fun field hc => (h field hc).reaches hz hc hn hup ht
  have hincreases : t.increases = [] := by
    unfold Flood.stepIncrease at hend
    cases hqueue : t.increases with
    | nil => rfl
    | cons e rest =>
      simp only [hqueue] at hend
      split_ifs at hend
  obtain ⟨hraising, hnear⟩ := hkeep _ (closed_top hsource)
  exact ⟨(hraising.closed hincreases).settled fun field hc => (hkeep field hc).1.level_le,
    hraising.level_le, hnear⟩

theorem lowering_raises (hz : m.Horizon top old distance)
    (hsource : ∀ a, source a = m.emission a ∨ source a = top)
    (hemission : ∀ a, m.emission a ≤ source a) (h : m.Lowering top source s)
    (hn : Near top old distance s) (ht : Reaches m.stepDecrease s t)
    (hend : m.stepDecrease t = none) :
    (∀ field, m.Closed source field → m.Raising source field t) ∧ Near top old distance t := by
  have hkeep : m.Lowering top source t ∧ Near top old distance t := by
    clear hend
    induction ht with
    | refl => exact ⟨h, hn⟩
    | tail _ hstep ih => exact ih.1.stepDecrease hz hsource hemission ih.2 hstep
  have hdecreases : t.decreases = [] := by
    unfold Flood.stepDecrease at hend
    cases hqueue : t.decreases with
    | nil => rfl
    | cons e rest => simp only [hqueue, reduceCtorEq] at hend
  exact ⟨fun field hc => hkeep.1.raising hdecreases hc, hkeep.2⟩

end Steel.Flood
