import Mathlib.Data.List.FinRange

/-! # First fit

Requests are served in their order, and each takes the first slot left that it accepts.
-/

namespace Steel

open List

namespace FirstFit

variable {β σ : Type*} [LinearOrder σ] (accepts : β → σ → Bool)

def serves : List β → List σ → Bool
  | [], _ => true
  | request :: requests, slots =>
    match slots.find? (accepts request) with
    | none => false
    | some slot => serves requests (slots.erase slot)

/-- An assignment of all slots to the requests, in the order of the requests. -/
def Assigned (requests : List β) (slots assigned : List σ) : Prop :=
  assigned.Perm slots ∧ List.Forall₂ (fun request slot => accepts request slot = true) requests
    assigned

/-- No request accepts a slot before its own that goes to a later request. -/
def Ordered (requests : List β) (assigned : List σ) : Prop :=
  (requests.zip assigned).Pairwise fun own later =>
    later.2 < own.2 → accepts own.1 later.2 = false

variable {accepts}

theorem le_of_find?_eq_some {p : σ → Bool} {slots : List σ} (hsorted : slots.Pairwise (· < ·))
    {slot : σ} (h : slots.find? p = some slot) {other : σ} (hother : other ∈ slots)
    (hp : p other = true) : slot ≤ other := by
  induction slots with
  | nil => cases hother
  | cons first rest ih =>
    rw [pairwise_cons] at hsorted
    rw [List.find?_cons] at h
    cases hfirst : p first with
    | true =>
      rw [hfirst] at h
      cases h
      rcases mem_cons.1 hother with rfl | hmem
      · exact le_rfl
      · exact (hsorted.1 other hmem).le
    | false =>
      rw [hfirst] at h
      rcases mem_cons.1 hother with rfl | hmem
      · rw [hp] at hfirst
        cases hfirst
      · exact ih hsorted.2 h hmem

omit [LinearOrder σ] in
theorem exists_mem_zip {requests : List β} {assigned : List σ}
    (hlength : assigned.length ≤ requests.length) {slot : σ} (h : slot ∈ assigned) :
    ∃ request, (request, slot) ∈ requests.zip assigned := by
  rw [← map_snd_zip hlength] at h
  obtain ⟨⟨request, _⟩, hmem, rfl⟩ := mem_map.1 h
  exact ⟨request, hmem⟩

theorem serves_iff {requests : List β} : ∀ {slots : List σ}, slots.Pairwise (· < ·) →
    requests.length = slots.length →
    (serves accepts requests slots = true ↔ ∃ assigned, Assigned accepts requests slots assigned ∧
        Ordered accepts requests assigned) := by
  induction requests with
  | nil =>
    intro slots _ hlength
    rw [length_eq_zero_iff.1 hlength.symm]
    exact iff_of_true rfl ⟨[], ⟨.nil, .nil⟩, .nil⟩
  | cons request requests ih =>
    intro slots hsorted hlength
    have hnodup : slots.Nodup := hsorted.imp fun h => h.ne
    have herase {slot : σ} (hmem : slot ∈ slots) :
        serves accepts requests (slots.erase slot) = true ↔
          ∃ assigned, Assigned accepts requests (slots.erase slot) assigned ∧
            Ordered accepts requests assigned := by
      refine ih (hsorted.sublist erase_sublist) ?_
      rw [length_erase_of_mem hmem, ← hlength]
      rfl
    rw [serves]
    constructor
    · cases hfind : slots.find? (accepts request) with
      | none => exact nofun
      | some slot =>
        intro hserves
        have hmem := List.mem_of_find?_eq_some hfind
        obtain ⟨assigned, ⟨hperm, haccepts⟩, hordered⟩ := (herase hmem).1 hserves
        refine ⟨slot :: assigned, ⟨?_, ?_⟩, ?_⟩
        · exact (hperm.cons slot).trans (perm_cons_erase hmem).symm
        · exact .cons (List.find?_some hfind) haccepts
        · refine pairwise_cons.2 ⟨fun later hlater hlt => ?_, hordered⟩
          have hlaterMem : later.2 ∈ slots :=
            mem_of_mem_erase (hperm.subset (of_mem_zip hlater).2)
          by_contra hpassed
          rw [Bool.not_eq_false] at hpassed
          exact (le_of_find?_eq_some hsorted hfind hlaterMem hpassed).not_gt hlt
    · rintro ⟨_, ⟨hperm, haccepts⟩, hordered⟩
      cases haccepts with
      | @cons _ slot _ assigned haccept haccepts =>
        rw [Ordered, zip_cons_cons, pairwise_cons] at hordered
        have hmem : slot ∈ slots := hperm.subset mem_cons_self
        cases hfind : slots.find? (accepts request) with
        | none => exact absurd haccept (by simpa using List.find?_eq_none.1 hfind slot hmem)
        | some found =>
          have hfoundMem := List.mem_of_find?_eq_some hfind
          have hfound : found = slot := by
            by_contra hne
            have hlt : found < slot :=
              (le_of_find?_eq_some hsorted hfind hmem haccept).lt_of_ne hne
            have hlater : found ∈ assigned :=
              (mem_cons.1 (hperm.symm.subset hfoundMem)).resolve_left hne
            obtain ⟨later, hzip⟩ := exists_mem_zip haccepts.length_eq.ge hlater
            have hpassed := hordered.1 (later, found) hzip hlt
            rw [List.find?_some hfind] at hpassed
            cases hpassed
          subst hfound
          refine (herase hmem).2 ⟨assigned, ⟨?_, haccepts⟩, hordered.2⟩
          exact (cons_perm_iff_perm_erase.1 hperm).2

section Positions

variable {accepts : β → ℕ → Bool} {requests : List β} {n : ℕ}

/-- The slots that a bijection with the first natural numbers assigns. -/
def positions (e : Fin requests.length ≃ Fin n) : List ℕ := List.ofFn fun i => (e i : ℕ)

theorem assigned_range_iff {assigned : List ℕ} : Assigned accepts requests (List.range n) assigned ↔
      ∃ e : Fin requests.length ≃ Fin n, assigned = positions e ∧
        ∀ i, accepts (requests.get i) (e i) = true := by
  constructor
  · rintro ⟨hperm, haccepts⟩
    have hlength : requests.length = assigned.length := haccepts.length_eq
    have hlt (i : Fin requests.length) : assigned.get (i.cast hlength) < n :=
      mem_range.1 (hperm.subset (get_mem _ _))
    have hnodup : assigned.Nodup := hperm.nodup_iff.2 nodup_range
    have hbijective : Function.Bijective fun i => (⟨_, hlt i⟩ : Fin n) := by
      constructor
      · intro i j hij
        have hget := nodup_iff_injective_get.1 hnodup (Fin.mk.inj hij)
        exact Fin.cast_injective hlength hget
      · intro slot
        obtain ⟨i, hi⟩ := mem_iff_get.1 (hperm.symm.subset (mem_range.2 slot.isLt))
        exact ⟨i.cast hlength.symm, Fin.ext hi⟩
    refine ⟨Equiv.ofBijective _ hbijective, ?_, fun i => ?_⟩
    · refine ext_getElem ?_ fun i hi hi' => ?_
      · rw [positions, length_ofFn, hlength]
      · simp [positions]
    · exact (forall₂_iff_get.1 haccepts).2 i i.isLt (hlength ▸ i.isLt)
  · rintro ⟨e, rfl, haccepts⟩
    constructor
    · have hnodup : (positions e).Nodup :=
        nodup_ofFn.2 (Fin.val_injective.comp e.injective)
      rw [perm_ext_iff_of_nodup hnodup nodup_range]
      intro slot
      rw [positions, mem_ofFn', Set.mem_range, mem_range]
      constructor
      · rintro ⟨i, rfl⟩
        exact (e i).isLt
      · intro hlt
        exact ⟨e.symm ⟨slot, hlt⟩, by rw [Equiv.apply_symm_apply]⟩
    · refine forall₂_iff_get.2 ⟨?_, fun i hi _ => ?_⟩
      · rw [positions, length_ofFn]
      · simp only [positions, get_eq_getElem, List.getElem_ofFn]
        exact haccepts ⟨i, hi⟩

theorem ordered_positions_iff (e : Fin requests.length ≃ Fin n) :
    Ordered accepts requests (positions e) ↔
      ∀ i j, i < j → e j < e i → accepts (requests.get i) (e j) = false := by
  have hzip : requests.zip (positions e) = List.ofFn fun i => (requests.get i, (e i : ℕ)) := by
    refine ext_getElem ?_ fun i hi hi' => ?_
    · rw [length_zip, positions, length_ofFn, length_ofFn, Nat.min_self]
    · simp [positions]
  rw [Ordered, hzip, pairwise_ofFn]
  rfl

end Positions

end FirstFit

end Steel
