import Mathlib.Order.Lattice.Nat

/-! # Levels that fade on their way

Levels spread from sources over the links of a graph and lose at least one on each link.
-/

namespace Steel

open Function Nat

/-- A graph whose nodes have a link in each direction, open or not. What enters a node loses the
cost of the node. -/
structure Medium (α δ : Type*) where
  next : α → δ → α
  opposite : δ → δ
  opens : α → δ → Bool
  cost : α → ℕ
  next_opposite (a : α) (d : δ) : next (next a d) (opposite d) = a
  opposite_opposite (d : δ) : opposite (opposite d) = d
  opens_opposite (a : α) (d : δ) : opens (next a d) (opposite d) = opens a d
  cost_pos (a : α) : 0 < cost a

namespace Medium

variable {α δ : Type*} (m : Medium α δ) {source level field : α → ℕ}

/-- No source and no link gives more than the level of a node. -/
structure Closed (source level : α → ℕ) : Prop where
  source_le (a : α) : source a ≤ level a
  link_le (a : α) (d : δ) : m.opens a d = true → level a ≤ level (m.next a d) + m.cost (m.next a d)

def Grounded (source level : α → ℕ) : Prop :=
  ∀ a, level a ≤ source a ∨ ∃ d, m.opens a d = true ∧ level a + m.cost a ≤ level (m.next a d)

/-- Each level is the best that the source and the neighbours give. -/
def Settled (source level : α → ℕ) : Prop := m.Closed source level ∧ m.Grounded source level

variable {m}

/-- A bounded field that is grounded lies below all closed fields: the levels grow on the way back
to a source. -/
theorem Grounded.le {top : ℕ} (hg : m.Grounded source level) (htop : ∀ a, level a ≤ top)
    (hc : m.Closed source field) (a : α) : level a ≤ field a := by
  induction hn : top - level a using Nat.strongRecOn generalizing a with
  | ind n ih =>
    rcases hg a with hsource | ⟨d, hopens, hlevel⟩
    · exact le_trans hsource (hc.source_le a)
    · have hpos := m.cost_pos a
      have hnext := htop (m.next a d)
      have hfield := ih (top - level (m.next a d)) (by omega) (m.next a d) rfl
      have hback : m.opens (m.next a d) (m.opposite d) = true := (m.opens_opposite a d).trans hopens
      have hlink := hc.link_le (m.next a d) (m.opposite d) hback
      rw [m.next_opposite] at hlink
      omega

theorem Settled.unique {top : ℕ} (h : m.Settled source level) (h' : m.Settled source field)
    (htop : ∀ a, level a ≤ top) (htop' : ∀ a, field a ≤ top) : level = field :=
  funext fun a => le_antisymm (h.2.le htop h'.1 a) (h'.2.le htop' h.1 a)

/-- The least closed field is grounded: a level that nothing gives could be lower. -/
theorem Closed.settled [DecidableEq α] (hc : m.Closed source level)
    (hleast : ∀ field, m.Closed source field → ∀ a, level a ≤ field a) :
    m.Settled source level := by
  constructor
  · exact hc
  · intro a
    by_contra hnot
    simp only [not_or, not_exists, not_and, not_le] at hnot
    obtain ⟨hsource, hlinks⟩ := hnot
    have hlower : m.Closed source (Function.update level a (level a - 1)) := by
      constructor
      · intro b
        by_cases hb : b = a
        · subst hb
          rw [update_self]
          omega
        · rw [update_of_ne hb]
          exact hc.source_le b
      · intro b d hopens
        have hlink := hc.link_le b d hopens
        by_cases hnext : m.next b d = a
        · subst hnext
          have hback := hlinks (m.opposite d) ((m.opens_opposite b d).trans hopens)
          rw [m.next_opposite] at hback
          rw [update_self]
          by_cases hb : b = m.next b d
          · rw [← hb, update_self]
            omega
          · rw [update_of_ne hb]
            omega
        · rw [update_of_ne hnext]
          by_cases hb : b = a
          · subst hb
            rw [update_self]
            omega
          · rwa [update_of_ne hb]
    have hle := hleast _ hlower a
    rw [update_self] at hle
    omega

/-- The best level that the source and the neighbours give to a node. -/
def best [Fintype δ] (m : Medium α δ) (source level : α → ℕ) (a : α) : ℕ :=
  max (source a) (Finset.univ.sup fun d =>
    if m.opens a d then level (m.next a d) - m.cost a else 0)

theorem settled_iff [Fintype δ] :
    m.Settled source level ↔ ∀ a, level a = m.best source level a := by
  have hlinks : (∀ a d, m.opens a d = true → level a ≤ level (m.next a d) + m.cost (m.next a d)) ↔
      ∀ a d, m.opens a d = true → level (m.next a d) ≤ level a + m.cost a := by
    constructor
    · intro h a d hopens
      have hback := h (m.next a d) (m.opposite d) ((m.opens_opposite a d).trans hopens)
      rwa [m.next_opposite] at hback
    · intro h a d hopens
      have hback := h (m.next a d) (m.opposite d) ((m.opens_opposite a d).trans hopens)
      rwa [m.next_opposite] at hback
  have hclosed : m.Closed source level ↔ ∀ a, m.best source level a ≤ level a := by
    constructor
    · intro h a
      refine max_le (h.source_le a) (Finset.sup_le fun d _ => ?_)
      split_ifs with hopens
      · exact Nat.sub_le_iff_le_add.2 (hlinks.1 h.link_le a d hopens)
      · exact Nat.zero_le _
    · intro h
      refine ⟨fun a => (le_max_left _ _).trans (h a), hlinks.2 fun a d hopens => ?_⟩
      have hle := (le_max_right _ _).trans (h a)
      have hsup := (Finset.sup_le_iff.1 hle) d (Finset.mem_univ d)
      rw [if_pos hopens] at hsup
      exact Nat.sub_le_iff_le_add.1 hsup
  have hgrounded : m.Grounded source level ↔ ∀ a, level a ≤ m.best source level a := by
    refine forall_congr' fun a => ?_
    rw [best, le_max_iff]
    by_cases hzero : level a = 0
    · simp [hzero]
    · refine or_congr_right ?_
      rw [Finset.le_sup_iff (Nat.pos_of_ne_zero hzero)]
      refine exists_congr fun d => ?_
      by_cases hopens : m.opens a d = true
      · simp only [hopens, true_and, Finset.mem_univ, if_true]
        omega
      · simp [hopens, hzero]
  constructor
  · intro h a
    exact le_antisymm (hgrounded.1 h.2 a) (hclosed.1 h.1 a)
  · intro h
    exact ⟨hclosed.2 fun a => (h a).ge, hgrounded.2 fun a => (h a).le⟩

end Medium

end Steel
