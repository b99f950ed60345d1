import Mathlib.Data.Fintype.Card

/-! # Forests of parent links

A node has at most one parent, and each node lists its children. Links that are taken away leave no
cycle behind, and a new link closes none unless its target leads back to its source.
-/

namespace Steel

open Function List

variable {α : Type*} {parent parent' : α → Option α} {children : α → List α} {a b v : α}

def Linked (parent : α → Option α) (a b : α) : Prop := parent a = some b

def LeadsTo (parent : α → Option α) : α → α → Prop := Relation.ReflTransGen (Linked parent)

def Acyclic (parent : α → Option α) : Prop := ∀ a, ¬ Relation.TransGen (Linked parent) a a

def Prunes (parent parent' : α → Option α) : Prop := ∀ a, parent' a = none ∨ parent' a = parent a

theorem Prunes.linked (h : Prunes parent parent') (hab : Linked parent' a b) :
    Linked parent a b := by
  rcases h a with hnone | hsame
  · exact absurd (hnone.symm.trans hab) nofun
  · exact hsame.symm.trans hab

theorem Prunes.leadsTo (h : Prunes parent parent') (hab : LeadsTo parent' a b) :
    LeadsTo parent a b :=
  Relation.ReflTransGen.mono (fun _ _ => h.linked) a b hab

theorem Prunes.trans {parent'' : α → Option α} (h : Prunes parent parent')
    (h' : Prunes parent' parent'') : Prunes parent parent'' := by
  intro a
  rcases h' a with hnone | hsame
  · exact .inl hnone
  · rw [hsame]
    exact h a

theorem Acyclic.prune (h : Acyclic parent) (hprunes : Prunes parent parent') : Acyclic parent' :=
  fun a hcycle => h a (Relation.TransGen.mono (fun _ _ => hprunes.linked) a a hcycle)

theorem acyclic_none : Acyclic fun _ : α => none := by
  intro a hcycle
  obtain ⟨b, hab, -⟩ := Relation.TransGen.head'_iff.1 hcycle
  cases hab

theorem LeadsTo.cases_parent {x : α} (h : LeadsTo parent a x) :
    a = x ∨ ∃ b, parent a = some b ∧ LeadsTo parent b x := h.cases_head

theorem Acyclic.exists_root [Finite α] (h : Acyclic parent) (a : α) :
    ∃ root, LeadsTo parent a root ∧ parent root = none := by
  have hwf : WellFounded fun b a => Relation.TransGen (Linked parent) a b := by
    have : IsTrans α fun b a => Relation.TransGen (Linked parent) a b :=
      ⟨fun _ _ _ hab hbc => hbc.trans hab⟩
    have : Std.Irrefl fun b a => Relation.TransGen (Linked parent) a b := ⟨h⟩
    exact Finite.wellFounded_of_trans_of_irrefl _
  induction a using hwf.induction with
  | h a ih =>
    cases ha : parent a with
    | none => exact ⟨a, .refl, ha⟩
    | some b =>
      obtain ⟨root, hleads, hroot⟩ := ih b (.single ha)
      exact ⟨root, .head ha hleads, hroot⟩

section Update

variable [DecidableEq α]

theorem prunes_update_none : Prunes parent (Function.update parent a none) := by
  intro b
  by_cases hb : b = a
  · subst hb
    exact .inl (update_self b none parent)
  · exact .inr (update_of_ne hb _ _)

/-- A path that uses a new link goes to the source of the link and on from its target. -/
theorem transGen_update (hnot : ¬ LeadsTo parent v a) {x y : α}
    (h : Relation.TransGen (Linked (Function.update parent a (some v))) x y) :
    Relation.TransGen (Linked parent) x y ∨ LeadsTo parent x a ∧ LeadsTo parent v y := by
  have hlink : ∀ c d, Linked (Function.update parent a (some v)) c d →
      Linked parent c d ∨ c = a ∧ d = v := by
    intro c d hcd
    by_cases hc : c = a
    · subst hc
      rw [Linked, update_self] at hcd
      exact .inr ⟨rfl, (Option.some.inj hcd).symm⟩
    · rw [Linked, update_of_ne hc] at hcd
      exact .inl hcd
  induction h with
  | single hxy =>
    rcases hlink _ _ hxy with hold | ⟨rfl, rfl⟩
    · exact .inl (.single hold)
    · exact .inr ⟨.refl, .refl⟩
  | tail _ hyz ih =>
    rcases hlink _ _ hyz with hold | ⟨rfl, rfl⟩
    · rcases ih with hpath | ⟨hxa, hvy⟩
      · exact .inl (hpath.tail hold)
      · exact .inr ⟨hxa, hvy.tail hold⟩
    · rcases ih with hpath | ⟨-, hva⟩
      · exact .inr ⟨hpath.to_reflTransGen, .refl⟩
      · exact absurd hva hnot

theorem Acyclic.link (h : Acyclic parent) (hnot : ¬ LeadsTo parent v a) :
    Acyclic (Function.update parent a (some v)) := by
  intro x hcycle
  rcases transGen_update hnot hcycle with hold | ⟨hxa, hvx⟩
  · exact h x hold
  · exact hnot (hvx.trans hxa)

end Update

/-- Links in both directions that say the same. -/
structure LinkedForest (parent : α → Option α) (children : α → List α) : Prop where
  mem : ∀ a v, parent a = some v ↔ a ∈ children v
  nodup : ∀ v, (children v).Nodup
  acyclic : Acyclic parent

namespace LinkedForest

theorem empty : LinkedForest (fun _ : α => none) fun _ => [] :=
  ⟨by simp, fun _ => .nil, acyclic_none⟩

variable [DecidableEq α] (h : LinkedForest parent children)
include h

theorem unlink (hav : parent a = some v) : LinkedForest (Function.update parent a none)
      (Function.update children v ((children v).filter (· ≠ a))) where
  mem b u := by
    by_cases hu : u = v
    · subst hu
      rw [update_self, mem_filter, ← h.mem, decide_eq_true_eq]
      by_cases hb : b = a
      · subst hb
        simp
      · simp [hb]
    · rw [update_of_ne hu, ← h.mem]
      by_cases hb : b = a
      · subst hb
        rw [update_self, hav]
        exact ⟨nofun, fun heq => absurd (Option.some.inj heq).symm hu⟩
      · rw [update_of_ne hb]
  nodup u := by
    by_cases hu : u = v
    · subst hu
      rw [update_self]
      exact (h.nodup u).filter _
    · rw [update_of_ne hu]
      exact h.nodup u
  acyclic := h.acyclic.prune prunes_update_none

theorem link {l : List α} (ha : parent a = none) (hnot : ¬ LeadsTo parent v a)
    (hl : l.Perm (a :: children v)) :
    LinkedForest (Function.update parent a (some v)) (Function.update children v l) where
  mem b u := by
    by_cases hu : u = v
    · subst hu
      rw [update_self, hl.mem_iff, mem_cons, ← h.mem]
      by_cases hb : b = a
      · subst hb
        simp
      · simp [hb]
    · rw [update_of_ne hu, ← h.mem]
      by_cases hb : b = a
      · subst hb
        rw [update_self, ha]
        exact ⟨fun heq => absurd (Option.some.inj heq).symm hu, nofun⟩
      · rw [update_of_ne hb]
  nodup u := by
    by_cases hu : u = v
    · subst hu
      rw [update_self, hl.nodup_iff, nodup_cons, ← h.mem, ha]
      exact ⟨nofun, h.nodup u⟩
    · rw [update_of_ne hu]
      exact h.nodup u
  acyclic := h.acyclic.link hnot

theorem eject (hprunes : ∀ b, parent' b = if b ∈ children v then none else parent b) :
    LinkedForest parent' (Function.update children v []) where
  mem b u := by
    rw [hprunes]
    by_cases hu : u = v
    · subst hu
      rw [update_self]
      by_cases hb : b ∈ children u
      · simp [hb]
      · rw [if_neg hb, h.mem]
        simp [hb]
    · rw [update_of_ne hu]
      by_cases hb : b ∈ children v
      · rw [if_pos hb, ← h.mem, (h.mem b v).2 hb]
        exact ⟨nofun, fun heq => absurd (Option.some.inj heq).symm hu⟩
      · rw [if_neg hb, h.mem]
  nodup u := by
    by_cases hu : u = v
    · subst hu
      rw [update_self]
      exact .nil
    · rw [update_of_ne hu]
      exact h.nodup u
  acyclic := by
    apply h.acyclic.prune
    intro b
    rw [hprunes]
    by_cases hb : b ∈ children v
    · exact .inl (if_pos hb)
    · exact .inr (if_neg hb)

end LinkedForest

/-- The nodes that a walk along the links has seen. -/
structure Walked (parent : α → Option α) (seen : List α) (a : α) : Prop where
  nodup : seen.Nodup
  above : ∀ b ∈ seen, Relation.TransGen (Linked parent) b a

namespace Walked

variable {seen : List α}

theorem start (hab : parent a = some b) : Walked parent [a] b :=
  ⟨nodup_singleton a, fun _ hc => mem_singleton.1 hc ▸ .single hab⟩

variable (hw : Walked parent seen a) (hacyclic : Acyclic parent)
include hw hacyclic

theorem not_mem : a ∉ seen := fun ha => hacyclic a (hw.above a ha)

theorem nodup_cons : (a :: seen).Nodup := List.nodup_cons.2 ⟨hw.not_mem hacyclic, hw.nodup⟩

theorem next (hab : parent a = some b) : Walked parent (a :: seen) b where
  nodup := hw.nodup_cons hacyclic
  above c hc := by
    rcases mem_cons.1 hc with rfl | hc
    · exact .single hab
    · exact (hw.above c hc).tail hab

end Walked

end Steel
