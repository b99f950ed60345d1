import Mathlib.Order.Lattice.Nat
import Mathlib.Tactic.Ring
import Steel.Lib.Run

/-! # Relaxation in any order

Every node has a source and gets from each of its feeders one less than what the feeder has.
-/

namespace Steel

open Function (update_self update update_of_ne)

open Finset Nat

/-- Nodes with their sources and the nodes that feed them. -/
structure FeedNetwork (V : Type*) where
  nodes : Finset V
  source : V → ℕ
  feeders : V → Finset V
  top : ℕ
  source_le : ∀ v ∈ nodes, source v ≤ top
  feeders_subset : ∀ v ∈ nodes, feeders v ⊆ nodes
  not_mem_feeders : ∀ v, v ∉ feeders v

/-- What the nodes have, and which of them wait for an update. -/
structure Relaxing (V : Type*) where
  power : V → ℕ
  pending : Finset V

/-- A chain of this many related steps. -/
inductive Chain {V : Type*} (r : V → V → Prop) : ℕ → V → V → Prop where
  | refl (v : V) : Chain r 0 v v
  | step {n : ℕ} {v u w : V} : Chain r n v u → r u w → Chain r (n + 1) v w

namespace FeedNetwork

variable {V : Type*} [DecidableEq V] (F : FeedNetwork V) (reached : V → Finset V)

def target (power : V → ℕ) (w : V) : ℕ :=
  max (F.source w) ((F.feeders w).sup fun v => power v - 1)

def Feeds (v w : V) : Prop := v ∈ F.feeders w

def relax (s : Relaxing V) (w : V) : Relaxing V :=
  if s.power w = F.target s.power w then ⟨s.power, s.pending.erase w⟩
  else ⟨update s.power w (F.target s.power w), s.pending.erase w ∪ reached w⟩

variable {F reached} {power power' : V → ℕ} {s : Relaxing V} {v w : V} {k m : ℕ}

omit [DecidableEq V] in
theorem le_target_iff (hk : 0 < k) :
    k ≤ F.target power w ↔ k ≤ F.source w ∨ ∃ v ∈ F.feeders w, k + 1 ≤ power v := by
  have hsub : ∀ v, k ≤ power v - 1 ↔ k + 1 ≤ power v := by
    intro v
    omega
  rw [target, le_max_iff, Finset.le_sup_iff (by exact hk)]
  simp only [hsub]

omit [DecidableEq V] in
theorem target_congr (h : ∀ v ∈ F.feeders w, power v = power' v) :
    F.target power w = F.target power' w := by
  rw [target, target, sup_congr rfl fun v hv => by rw [h v hv]]

omit [DecidableEq V] in
theorem target_le (hw : w ∈ F.nodes) (h : ∀ v ∈ F.nodes, power v ≤ F.top) :
    F.target power w ≤ F.top := by
  refine max_le (F.source_le w hw) (Finset.sup_le fun v hv => ?_)
  exact (sub_le _ _).trans (h v (F.feeders_subset w hw hv))

def wrong (F : FeedNetwork V) (power : V → ℕ) (k : ℕ) : Finset V :=
  F.nodes.filter fun w => ¬ (k ≤ power w ↔ k ≤ F.target power w)

/-- The numbers of nodes on the wrong side of the levels, as the digits of a number. -/
def rank (F : FeedNetwork V) (power : V → ℕ) : ℕ → ℕ
  | 0 => 0
  | k + 1 => rank F power k + (F.wrong power (k + 1)).card * (F.nodes.card + 1) ^ k

omit [DecidableEq V] in
theorem rank_lt_pow (F : FeedNetwork V) (power : V → ℕ) (k : ℕ) :
    F.rank power k < (F.nodes.card + 1) ^ k := by
  induction k with
  | zero => exact one_pos
  | succ k ih =>
    have hcard : (F.wrong power (k + 1)).card ≤ F.nodes.card := card_filter_le _ _
    calc F.rank power (k + 1)
      _ = F.rank power k + (F.wrong power (k + 1)).card * (F.nodes.card + 1) ^ k := rfl
      _ < (F.nodes.card + 1) ^ k + F.nodes.card * (F.nodes.card + 1) ^ k :=
        add_lt_add_of_lt_of_le ih (mul_le_mul_right _ hcard)
      _ = (F.nodes.card + 1) ^ (k + 1) := by ring

omit [DecidableEq V] in
theorem rank_lt_rank (hm : (F.wrong power' (m + 1)).card < (F.wrong power (m + 1)).card)
    (hk : ∀ k, m + 1 < k → F.wrong power' k = F.wrong power k) (hle : m + 1 ≤ k) :
    F.rank power' k < F.rank power k := by
  induction k, hle using le_induction with
  | base =>
    have hlt := F.rank_lt_pow power' m
    have hmul := mul_le_mul_right ((F.nodes.card + 1) ^ m) (succ_le_of_lt hm)
    rw [succ_mul] at hmul
    rw [rank, rank]
    omega
  | succ k hle ih =>
    rw [rank, rank, hk (k + 1) (by omega)]
    exact Nat.add_lt_add_right ih _

/-- A change of a node puts it on the right side of the highest level it crosses, and changes
nothing above. -/
theorem wrong_update (hw : w ∈ F.nodes) (hne : power w ≠ F.target power w) :
    let power' := update power w (F.target power w)
    let level := max (power w) (F.target power w)
    (F.wrong power' level).card < (F.wrong power level).card ∧
      ∀ k, level < k → F.wrong power' k = F.wrong power k := by
  intro power' level
  have hself : power' w = F.target power w := update_self _ _ _
  have hother : ∀ v, v ≠ w → power' v = power v := fun v hv => update_of_ne hv _ _
  have hpos : 0 < level := by omega
  have htarget : ∀ k, level ≤ k → ∀ v, k ≤ F.target power' v ↔ k ≤ F.target power v := by
    intro k hk v
    have habove : ∀ u, k + 1 ≤ power' u ↔ k + 1 ≤ power u := by
      intro u
      by_cases hu : u = w
      · subst hu
        rw [hself]
        omega
      · rw [hother u hu]
    rw [le_target_iff (by omega), le_target_iff (by omega)]
    simp only [habove]
  constructor
  · apply card_lt_card
    rw [ssubset_iff_of_subset]
    · refine ⟨w, ?_, ?_⟩
      · rw [wrong, mem_filter]
        exact ⟨hw, by omega⟩
      · rw [wrong, mem_filter, htarget level le_rfl, hself]
        simp
    · intro v hv
      rw [wrong, mem_filter, htarget level le_rfl] at hv
      by_cases hvw : v = w
      · subst hvw
        rw [hself] at hv
        exact absurd Iff.rfl hv.2
      · rw [hother v hvw] at hv
        exact mem_filter.mpr hv
  · intro k hk
    apply filter_congr
    intro v _
    rw [htarget k hk.le]
    by_cases hvw : v = w
    · subst hvw
      rw [hself]
      have hlow : ¬ k ≤ power v ∧ ¬ k ≤ F.target power v := by omega
      simp [hlow]
    · rw [hother v hvw]

/-- Nothing is above the top, and only nodes are pending. -/
structure Bounded (F : FeedNetwork V) (s : Relaxing V) : Prop where
  le_top : ∀ v ∈ F.nodes, s.power v ≤ F.top
  pending_subset : s.pending ⊆ F.nodes

def work (F : FeedNetwork V) (s : Relaxing V) : ℕ :=
  F.rank s.power F.top * (F.nodes.card + 1) + s.pending.card

theorem Bounded.relax (h : F.Bounded s) (hreached : reached w ⊆ F.nodes) (hw : w ∈ s.pending) :
    F.Bounded (F.relax reached s w) := by
  have hnode := h.pending_subset hw
  unfold FeedNetwork.relax
  split
  case isTrue => exact ⟨h.le_top, (erase_subset _ _).trans h.pending_subset⟩
  case isFalse =>
    constructor
    · intro v hv
      dsimp only
      by_cases hvw : v = w
      · subst hvw
        rw [update_self]
        exact target_le hnode h.le_top
      · rw [update_of_ne hvw]
        exact h.le_top v hv
    · exact union_subset ((erase_subset _ _).trans h.pending_subset) hreached

theorem Bounded.work_relax_lt (h : F.Bounded s) (hreached : reached w ⊆ F.nodes)
    (hw : w ∈ s.pending) : F.work (F.relax reached s w) < F.work s := by
  have hnode := h.pending_subset hw
  have hbounded := h.relax hreached hw
  unfold FeedNetwork.relax at hbounded ⊢
  split
  case isTrue =>
    have hcard := card_erase_lt_of_mem hw
    exact Nat.add_lt_add_left hcard _
  case isFalse hne =>
    rw [if_neg hne] at hbounded
    obtain ⟨hlt, habove⟩ := wrong_update hnode hne
    have htop : max (s.power w) (F.target s.power w) ≤ F.top :=
      max_le (h.le_top w hnode) (target_le hnode h.le_top)
    obtain ⟨m, hm⟩ : ∃ m, max (s.power w) (F.target s.power w) = m + 1 :=
      ⟨max (s.power w) (F.target s.power w) - 1, by omega⟩
    rw [hm] at hlt habove htop
    have hrank := rank_lt_rank hlt habove htop
    have hcard := card_le_card hbounded.pending_subset
    have hmul := mul_le_mul_right (F.nodes.card + 1) (succ_le_of_lt hrank)
    rw [succ_mul] at hmul
    dsimp only [work] at hcard ⊢
    omega

/-- Every node that does not have what it should have is pending. -/
def Covered (F : FeedNetwork V) (s : Relaxing V) : Prop :=
  ∀ v ∈ F.nodes, s.power v ≠ F.target s.power v → v ∈ s.pending

theorem Covered.relax (h : F.Covered s) (hfeeds : ∀ v ∈ F.nodes, w ∈ F.feeders v → v ∈ reached w) :
    F.Covered (F.relax reached s w) := by
  intro v hv hne
  unfold FeedNetwork.relax at hne ⊢
  split
  case isTrue heq =>
    rw [if_pos heq] at hne
    have hvw : v ≠ w := by
      rintro rfl
      exact hne heq
    exact mem_erase.mpr ⟨hvw, h v hv hne⟩
  case isFalse hchange =>
    rw [if_neg hchange] at hne
    dsimp only at hne ⊢
    rw [mem_union]
    by_cases hfed : w ∈ F.feeders v
    · exact .inr (hfeeds v hv hfed)
    · have hsame : F.target (update s.power w (F.target s.power w)) v =
          F.target s.power v := by
        refine target_congr fun u hu => update_of_ne ?_ _ _
        rintro rfl
        exact hfed hu
      rw [hsame] at hne
      have hvw : v ≠ w := by
        rintro rfl
        exact hne (update_self _ _ _)
      rw [update_of_ne hvw] at hne
      exact .inl (mem_erase.mpr ⟨hvw, h v hv hne⟩)

def Takes (s : Relaxing V) (w : V) : Prop := w ∈ s.pending

/-- What an update of any node needs of the nodes that it reaches. -/
structure Reaches (F : FeedNetwork V) (reached : V → Finset V) : Prop where
  subset : ∀ w ∈ F.nodes, reached w ⊆ F.nodes
  feeds : ∀ v ∈ F.nodes, ∀ w ∈ F.feeders v, v ∈ reached w

/-- A run has no more updates than there is work, and keeps everything that is not right pending. -/
theorem Reaches.run (hreaches : F.Reaches reached) {order : List V} (h : F.Bounded s)
    (hcovered : F.Covered s) (horder : Guarded (F.relax reached) Takes s order) :
    order.length ≤ F.work s ∧ F.Bounded (runSteps (F.relax reached) s order) ∧
      F.Covered (runSteps (F.relax reached) s order) := by
  induction order generalizing s with
  | nil => exact ⟨zero_le _, h, hcovered⟩
  | cons w order ih =>
    obtain ⟨hw, horder⟩ := horder
    have hnode := h.pending_subset hw
    obtain ⟨hlen, hrun⟩ := ih (h.relax (hreaches.subset w hnode) hw)
      (hcovered.relax fun v hv => hreaches.feeds v hv w) horder
    have hwork := h.work_relax_lt (hreaches.subset w hnode) hw
    exact ⟨by rw [List.length_cons]; omega, hrun⟩

def Settled (F : FeedNetwork V) (power : V → ℕ) : Prop :=
  ∀ v ∈ F.nodes, power v = F.target power v

omit [DecidableEq V] in
theorem Covered.settled (h : F.Covered s) (hpending : s.pending = ∅) : F.Settled s.power := by
  intro v hv
  by_contra hne
  have hmem := h v hv hne
  rw [hpending] at hmem
  exact absurd hmem (notMem_empty v)

omit [DecidableEq V] in
theorem Settled.source_le (h : F.Settled power) {n : ℕ} (hchain : Chain F.Feeds n v w)
    (hw : w ∈ F.nodes) : F.source v - n ≤ power w := by
  induction hchain with
  | refl v =>
    rw [h v hw, target]
    exact le_max_left _ _
  | @step n v u w _ hfeed ih =>
    have hu := ih (F.feeders_subset w hw hfeed)
    have hle : power u - 1 ≤ power w := by
      rw [h w hw, target]
      exact le_max_of_le_right (le_sup (f := fun v => power v - 1) hfeed)
    omega

omit [DecidableEq V] in
theorem Settled.exists_chain (h : F.Settled power) (htop : ∀ v ∈ F.nodes, power v ≤ F.top)
    (hw : w ∈ F.nodes) :
    ∃ v ∈ F.nodes, ∃ n, Chain F.Feeds n v w ∧ power w = F.source v - n := by
  obtain ⟨k, hk⟩ : ∃ k, power w + k = F.top := ⟨F.top - power w, by have := htop w hw; omega⟩
  induction k using Nat.strong_induction_on generalizing w with
  | _ k ih =>
    have htarget := h w hw
    rw [target] at htarget
    rcases le_or_gt ((F.feeders w).sup fun v => power v - 1) (F.source w) with hle | hlt
    · rw [max_eq_left hle] at htarget
      exact ⟨w, hw, 0, .refl w, htarget⟩
    · rw [max_eq_right hlt.le] at htarget
      have hne : (F.feeders w).Nonempty := by
        by_contra hempty
        rw [not_nonempty_iff_eq_empty] at hempty
        rw [hempty, sup_empty] at hlt
        exact absurd hlt (not_lt_zero _)
      obtain ⟨u, hu, hsup⟩ := exists_mem_eq_sup _ hne fun v => power v - 1
      rw [hsup] at htarget hlt
      have hunode := F.feeders_subset w hw hu
      have hutop := htop u hunode
      obtain ⟨v, hv, n, hchain, hpower⟩ := ih (F.top - power u) (by omega) hunode (by omega)
      exact ⟨v, hv, n + 1, hchain.step hu, by omega⟩

omit [DecidableEq V] in
/-- Every node has what is left of a source over a shortest chain, the most over all sources. -/
theorem Settled.isGreatest (h : F.Settled power) (htop : ∀ v ∈ F.nodes, power v ≤ F.top)
    (hw : w ∈ F.nodes) :
    IsGreatest {x | ∃ v ∈ F.nodes, ∃ n, IsLeast {n | Chain F.Feeds n v w} n ∧
      x = F.source v - n} (power w) := by
  constructor
  · obtain ⟨v, hv, n, hchain, hpower⟩ := h.exists_chain htop hw
    have hexists : ∃ n, Chain F.Feeds n v w := ⟨n, hchain⟩
    classical
    have hle := h.source_le (Nat.find_spec hexists) hw
    have hmin := Nat.find_min' hexists hchain
    exact ⟨v, hv, Nat.find hexists, ⟨Nat.find_spec hexists, fun _ => Nat.find_min' hexists⟩,
      by omega⟩
  · rintro x ⟨v, hv, n, ⟨hchain, -⟩, rfl⟩
    exact h.source_le hchain hw

end FeedNetwork

end Steel
