import Mathlib.Order.Interval.Set.OrdConnectedLinear
import Steel.Permission.PermissionSet

/-! # What a permission set resolves to

A lookup scans the rules and keeps the best candidate. Its state is that of a rule that is
maximal among those that match, and it does not depend on the order of the rules.
-/

namespace Steel

open PermissionCandidate List

abbrev PermissionRule := PermissionEntry × PermissionResolutionSource

/-- What rules that match with a given specificity of their keys are compared by. -/
def PermissionRule.order (specificity : ℕ) (rule : PermissionRule) : PermissionOrder :=
  toLex (specificity, toLex (rule.1.context.specificity,
    toLex (rule.2.rank, rule.2.tiePriority)))

def keyRank (key : PermissionKey) (context : PermissionContext) (entry : PermissionEntry) :
    Option ℕ :=
  if entry.context.isMatch context ∧ entry.key.isMatch key then some entry.key.specificity
  else none

/-- How specifically an entry matches a key that a parent may scope. -/
def scopedKeyRank (parent key : PermissionKey) (context : PermissionContext)
    (entry : PermissionEntry) : Option ℕ :=
  if entry.context.isMatch context then
    if parent.scopes key ∧ entry.key.isMatch parent then some entry.key.specificity
    else if entry.key.isMatch key then some (entry.key.specificity + 1)
    else none
  else none

/-- The state of a rule that is maximal among those that match, where denials win among
equals, or no state if no rule matches. -/
def Decides (rank : PermissionEntry → Option ℕ) (rules : Set PermissionRule) :
    Option PermissionState → Prop
  | none => ∀ rule ∈ rules, rank rule.1 = none
  | some state => ∃ rule ∈ rules, ∃ specificity, rank rule.1 = some specificity ∧
      rule.1.state = state ∧ ∀ other ∈ rules, ∀ level, rank other.1 = some level →
        other.order level ≤ rule.order specificity ∧
          (other.order level = rule.order specificity → other.1.state = .deny → state = .deny)

theorem Decides.unique {rank : PermissionEntry → Option ℕ} {rules : Set PermissionRule}
    {first second : Option PermissionState} (h : Decides rank rules first)
    (h' : Decides rank rules second) : first = second := by
  cases first with
  | none =>
    cases second with
    | none => rfl
    | some state =>
      obtain ⟨rule, hrule, specificity, hrank, -⟩ := h'
      simp [h rule hrule] at hrank
  | some state =>
    obtain ⟨rule, hrule, specificity, hrank, hstate, hmax⟩ := h
    cases second with
    | none => simp [h' rule hrule] at hrank
    | some state' =>
      obtain ⟨rule', hrule', specificity', hrank', hstate', hmax'⟩ := h'
      obtain ⟨hle, hdeny⟩ := hmax rule' hrule' specificity' hrank'
      obtain ⟨hle', hdeny'⟩ := hmax' rule hrule specificity hrank
      have heq := le_antisymm hle hle'
      rw [hstate'] at hdeny
      rw [hstate] at hdeny'
      cases state with
      | allow =>
        cases state' with
        | allow => rfl
        | deny => cases hdeny heq rfl
      | deny =>
        cases state' with
        | allow => cases hdeny' heq.symm rfl
        | deny => rfl

namespace PermissionCandidate

/-- Candidates are compared by their order and, among equals, denials are larger. -/
def weight (candidate : PermissionCandidate) : PermissionOrder ×ₗ Bool :=
  toLex (candidate.order, decide (candidate.state = .deny))

theorem weight_lt {a b : PermissionCandidate} : a.weight < b.weight ↔ a.order < b.order ∨
      b.order = a.order ∧ a.state = .allow ∧ b.state = .deny := by
  rw [weight, weight, Prod.Lex.toLex_lt_toLex]
  simp only
  cases ha : a.state <;> cases hb : b.state <;> simp [eq_comm]

end PermissionCandidate

theorem pushCandidate_eq (best : Option PermissionCandidate) (candidate : PermissionCandidate) :
    pushCandidate best candidate = List.argAux
      (fun b c : PermissionCandidate => c.weight < b.weight) best candidate := by
  cases best with
  | none => rfl
  | some current =>
    simp only [pushCandidate, List.argAux, weight_lt]
    split
    · simp [*]
    · split <;> simp [*]

namespace PermissionSet

variable (set : PermissionSet)

def rules : List PermissionRule := set.entries.zip set.sources

def candidates (rank : PermissionEntry → Option ℕ) : List PermissionCandidate :=
  set.enumerated.filterMap fun (rule, index) => (rank rule.1).map fun specificity =>
    ⟨index, specificity, rule.1.context.specificity, rule.2, rule.1.state⟩

variable (rank : PermissionEntry → Option ℕ)

theorem foldl_candidates
    {step : Option PermissionCandidate → PermissionRule × ℕ → Option PermissionCandidate}
    (hstep : ∀ best rule index, step best (rule, index) =
      ((rank rule.1).elim best fun specificity => pushCandidate best
        ⟨index, specificity, rule.1.context.specificity, rule.2, rule.1.state⟩)) :
    set.enumerated.foldl step none = (set.candidates rank).argmax weight := by
  rw [candidates, List.argmax]
  generalize (none : Option PermissionCandidate) = best
  induction set.enumerated generalizing best with
  | nil => rfl
  | cons first rest ih =>
    obtain ⟨rule, index⟩ := first
    rw [foldl_cons, ih, hstep]
    cases hrank : rank rule.1 with
    | none => simp [hrank]
    | some specificity => simp [hrank, pushCandidate_eq]

theorem bestKeyCandidate_eq (key : PermissionKey)
    (context : PermissionContext) : set.bestKeyCandidate key context =
      (set.candidates (keyRank key context)).argmax weight := by
  refine foldl_candidates set _ ?_
  intro best rule index
  rw [keyRank]
  cases hcontext : rule.1.context.isMatch context <;> cases hkey : rule.1.key.isMatch key <;>
    simp [hcontext, hkey]

theorem bestScopedKeyCandidate_eq (parent key : PermissionKey)
    (context : PermissionContext) : set.bestScopedKeyCandidate parent key context =
      (set.candidates (scopedKeyRank parent key context)).argmax weight := by
  refine foldl_candidates set _ ?_
  intro best rule index
  rw [scopedKeyRank]
  cases hcontext : rule.1.context.isMatch context <;> cases hkey : rule.1.key.isMatch key <;>
    cases hscopes : parent.scopes key <;> cases hparent : rule.1.key.isMatch parent <;>
      simp [hcontext, hkey, hparent]

theorem mem_candidates {set : PermissionSet} {rank : PermissionEntry → Option ℕ}
    {candidate : PermissionCandidate} (h : candidate ∈ set.candidates rank) :
    ∃ rule ∈ set.rules, rank rule.1 = some candidate.keySpecificity ∧
      rule.1.state = candidate.state ∧ rule.order candidate.keySpecificity = candidate.order := by
  obtain ⟨⟨rule, index⟩, hmem, hmap⟩ := mem_filterMap.mp h
  obtain ⟨specificity, hrank, rfl⟩ := Option.map_eq_some_iff.mp hmap
  exact ⟨rule, fst_mem_of_mem_zipIdx hmem, hrank, rfl, rfl⟩

theorem exists_candidate {set : PermissionSet} {rank : PermissionEntry → Option ℕ}
    {rule : PermissionRule} (h : rule ∈ set.rules) {specificity : ℕ}
    (hrank : rank rule.1 = some specificity) :
    ∃ candidate ∈ set.candidates rank, candidate.state = rule.1.state ∧
      candidate.order = rule.order specificity := by
  obtain ⟨index, hindex⟩ := mem_iff_getElem?.mp h
  have hmem : (rule, index) ∈ set.enumerated := mem_zipIdx_iff_getElem?.mpr hindex
  refine ⟨⟨index, specificity, rule.1.context.specificity, rule.2, rule.1.state⟩,
    mem_filterMap.mpr ⟨_, hmem, ?_⟩, rfl, rfl⟩
  simp [hrank]

theorem decides_argmax : Decides rank {rule | rule ∈ set.rules}
      (((set.candidates rank).argmax weight).map (·.state)) := by
  cases hbest : (set.candidates rank).argmax weight with
  | none =>
    rw [argmax_eq_none] at hbest
    intro rule hrule
    by_contra hne
    obtain ⟨specificity, hrank⟩ := Option.ne_none_iff_exists'.mp hne
    obtain ⟨candidate, hmem, -⟩ := exists_candidate hrule hrank
    simp [hbest] at hmem
  | some best =>
    obtain ⟨rule, hrule, hrank, hstate, horder⟩ := mem_candidates (argmax_mem hbest)
    refine ⟨rule, hrule, _, hrank, hstate, ?_⟩
    intro other hother level hlevel
    obtain ⟨candidate, hmem, hstate', horder'⟩ := exists_candidate hother hlevel
    have hnot := not_lt_of_mem_argmax hmem hbest
    rw [weight_lt, not_or, horder'] at hnot
    rw [horder]
    refine ⟨not_lt.mp hnot.1, ?_⟩
    intro heq hdeny
    cases hs : best.state with
    | deny => exact hs
    | allow => exact absurd ⟨heq, hs, hstate'.trans hdeny⟩ hnot.2

theorem decides_resolveKeyIn (key : PermissionKey)
    (context : PermissionContext) : Decides (keyRank key context) {rule | rule ∈ set.rules}
      (set.resolveKeyIn key context) := by
  rw [resolveKeyIn, bestKeyCandidate_eq]
  exact set.decides_argmax _

theorem decides_resolveScopedKeyIn (parent key : PermissionKey) (context : PermissionContext) :
    Decides (scopedKeyRank parent key context) {rule | rule ∈ set.rules}
      (set.resolveScopedKeyIn parent key context) := by
  rw [resolveScopedKeyIn, bestScopedKeyCandidate_eq]
  exact set.decides_argmax _

end PermissionSet

end Steel
