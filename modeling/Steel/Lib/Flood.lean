import Mathlib.Algebra.Order.BigOperators.Group.List
import Mathlib.Algebra.Ring.Nat
import Steel.Lib.Loop
import Steel.Lib.Medium

/-! # Levels kept with two queues

A change takes away the levels that may have come through it, in the order of a first queue.
-/

set_option linter.unusedSectionVars false

namespace Steel

open List Nat

/-- A medium and what its queues need. Some links are open if the shape of the node they leave is
left aside, and only a node that is shaped has such links. A queue takes the nodes it has room
for. -/
structure Flood (α δ : Type*) extends Medium α δ where
  all : List δ
  mem_all (d : δ) : d ∈ all
  opensPlain : α → δ → Bool
  shaped : α → Bool
  opensPlain_of_opens (a : α) (d : δ) : opens a d = true → opensPlain a d = true
  opens_of_opensPlain (a : α) (d : δ) : shaped a = false → opensPlain a d = true → opens a d = true
  emission : α → ℕ
  room : α → Bool

structure FloodEntry (α δ : Type*) where
  pos : α
  level : ℕ
  directions : List δ
  shaped : Bool
  recheck : Bool
  write : Bool

@[ext] structure FloodState (α δ : Type*) where
  level : α → ℕ
  increases : List (FloodEntry α δ)
  decreases : List (FloodEntry α δ)
  refused : List α

namespace Flood

variable {α δ : Type*} [DecidableEq α] [DecidableEq δ] (m : Flood α δ) (e : FloodEntry α δ)

def passes (d : δ) : Bool :=
  if e.shaped then m.opens e.pos d else m.opensPlain e.pos d

def away (d : δ) : List δ := m.all.filter fun d' => d' ≠ m.opposite d

def spread (d : δ) : FloodEntry α δ where
  pos := m.next e.pos d
  level := e.level - m.cost (m.next e.pos d)
  directions := m.away d
  shaped := m.shaped (m.next e.pos d)
  recheck := false
  write := false

/-- Spreads the level that a node has, if it still has it. -/
def recheckEntry (a : α) (level : ℕ) : FloodEntry α δ := ⟨a, level, m.all, m.shaped a, true, false⟩

/-- Gives a node the level of its source back and spreads it. -/
def writeEntry (a : α) : FloodEntry α δ := ⟨a, m.emission a, m.all, m.shaped a, false, true⟩

def enqueueIncrease (s : FloodState α δ) : FloodState α δ :=
  if m.room e.pos then { s with increases := s.increases ++ [e] }
  else { s with refused := s.refused ++ [e.pos] }

def enqueueDecrease (s : FloodState α δ) : FloodState α δ :=
  if m.room e.pos then { s with decreases := s.decreases ++ [e] }
  else { s with refused := s.refused ++ [e.pos] }

def setLevel (a : α) (level : ℕ) (s : FloodState α δ) : FloodState α δ :=
  { s with level := Function.update s.level a level }

def relight (a : α) (s : FloodState α δ) : FloodState α δ :=
  if m.emission a = 0 then s else m.enqueueIncrease (m.writeEntry a) s

def raise (s : FloodState α δ) (d : δ) : FloodState α δ :=
  if m.passes e d ∧ s.level (m.next e.pos d) + m.cost (m.next e.pos d) < e.level then
    if 1 < (m.spread e d).level then
      m.enqueueIncrease (m.spread e d) (setLevel (m.next e.pos d) (m.spread e d).level s)
    else setLevel (m.next e.pos d) (m.spread e d).level s
  else s

/-- Takes the level of a neighbour away if it may have come over this link. A higher level is
spread again later. -/
def lower (s : FloodState α δ) (d : δ) : FloodState α δ :=
  if m.passes e d ∧ s.level (m.next e.pos d) ≠ 0 then
    if s.level (m.next e.pos d) + m.cost (m.next e.pos d) ≤ e.level then
      m.enqueueDecrease (m.spread e d)
        (setLevel (m.next e.pos d) 0 (m.relight (m.next e.pos d) s))
    else m.enqueueIncrease (m.recheckEntry (m.next e.pos d) (s.level (m.next e.pos d))) s
  else s

/-- Takes an entry of the second queue. Its level is out of date, or is written, or is what the
node has. -/
def stepIncrease (s : FloodState α δ) : Option (FloodState α δ) :=
  match s.increases with
  | [] => none
  | e :: rest =>
    if e.recheck && s.level e.pos != e.level then some { s with increases := rest }
    else some (e.directions.foldl (m.raise e)
      (if !e.recheck && e.write then setLevel e.pos e.level { s with increases := rest }
      else { s with increases := rest }))

def stepDecrease (s : FloodState α δ) : Option (FloodState α δ) :=
  match s.decreases with
  | [] => none
  | e :: rest => some (e.directions.foldl (m.lower e) { s with decreases := rest })

variable {m} {s : FloodState α δ} {e : FloodEntry α δ}

@[simp] theorem mem_away {d d' : δ} : d' ∈ m.away d ↔ d' ≠ m.opposite d := by
  simp [away, m.mem_all]

theorem enqueueIncrease_of_room (h : m.room e.pos = true) :
    m.enqueueIncrease e s = { s with increases := s.increases ++ [e] } := if_pos h

theorem enqueueDecrease_of_room (h : m.room e.pos = true) :
    m.enqueueDecrease e s = { s with decreases := s.decreases ++ [e] } := if_pos h

theorem length_away_le (d : δ) : (m.away d).length ≤ m.all.length :=
  length_filter_le _ _

@[simp] theorem enqueueIncrease_decreases : (m.enqueueIncrease e s).decreases = s.decreases := by
  unfold enqueueIncrease
  split_ifs <;> rfl

@[simp] theorem enqueueDecrease_increases : (m.enqueueDecrease e s).increases = s.increases := by
  unfold enqueueDecrease
  split_ifs <;> rfl

@[simp] theorem setLevel_increases (a : α) (level : ℕ) :
    (setLevel a level s).increases = s.increases := rfl

@[simp] theorem setLevel_decreases (a : α) (level : ℕ) :
    (setLevel a level s).decreases = s.decreases := rfl

@[simp] theorem relight_decreases (a : α) : (m.relight a s).decreases = s.decreases := by
  unfold relight
  split_ifs
  · rfl
  · exact enqueueIncrease_decreases

def weight (m : Flood α δ) (queue : List (FloodEntry α δ)) : ℕ :=
  (queue.map fun e => (m.all.length + 1) ^ e.level).sum

def share (m : Flood α δ) (e : FloodEntry α δ) : ℕ :=
  if e.level = 0 then 0 else (m.all.length + 1) ^ (e.level - 1)

/-- No entry has more directions than there are. -/
structure Sized (m : Flood α δ) (s : FloodState α δ) : Prop where
  increases : ∀ e ∈ s.increases, e.directions.length ≤ m.all.length
  decreases : ∀ e ∈ s.decreases, e.directions.length ≤ m.all.length

variable (queue : List (FloodEntry α δ))

@[simp] theorem weight_cons :
    m.weight (e :: queue) = (m.all.length + 1) ^ e.level + m.weight queue := by
  simp [weight]

theorem weight_append_singleton :
    m.weight (queue ++ [e]) = m.weight queue + (m.all.length + 1) ^ e.level := by
  simp [weight]

section

variable (hs : m.Sized s)

include hs

theorem Sized.setLevel (a : α) (level : ℕ) : m.Sized (setLevel a level s) :=
  ⟨hs.increases, hs.decreases⟩

theorem Sized.enqueueIncrease (he : e.directions.length ≤ m.all.length) :
    m.Sized (m.enqueueIncrease e s) := by
  constructor
  · unfold Flood.enqueueIncrease
    split_ifs
    · simpa [or_imp, forall_and] using ⟨hs.increases, he⟩
    · exact hs.increases
  · rw [enqueueIncrease_decreases]
    exact hs.decreases

theorem Sized.enqueueDecrease (he : e.directions.length ≤ m.all.length) :
    m.Sized (m.enqueueDecrease e s) := by
  constructor
  · rw [enqueueDecrease_increases]
    exact hs.increases
  · unfold Flood.enqueueDecrease
    split_ifs
    · simpa [or_imp, forall_and] using ⟨hs.decreases, he⟩
    · exact hs.decreases

theorem Sized.relight (a : α) : m.Sized (m.relight a s) := by
  unfold Flood.relight
  split_ifs
  · exact hs
  · exact hs.enqueueIncrease (le_refl _)

theorem Sized.raise (e : FloodEntry α δ) (d : δ) : m.Sized (m.raise e s d) := by
  unfold Flood.raise
  split_ifs
  · exact (hs.setLevel _ _).enqueueIncrease (length_away_le d)
  · exact hs.setLevel _ _
  · exact hs

theorem Sized.lower (e : FloodEntry α δ) (d : δ) : m.Sized (m.lower e s d) := by
  unfold Flood.lower
  split_ifs
  · exact ((hs.relight _).setLevel _ _).enqueueDecrease (length_away_le d)
  · exact hs.enqueueIncrease (le_refl _)
  · exact hs

end

theorem pow_spread_le (d : δ) (h : (m.spread e d).level ≠ 0) :
    (m.all.length + 1) ^ (m.spread e d).level ≤ m.share e := by
  have hcost := m.cost_pos (m.next e.pos d)
  simp only [spread] at h ⊢
  rw [share, if_neg (by omega)]
  exact Nat.pow_le_pow_right (Nat.succ_pos _) (by omega)

theorem weight_raise_le (e : FloodEntry α δ) (s : FloodState α δ) (d : δ) :
    m.weight (m.raise e s d).increases ≤ m.weight s.increases + m.share e := by
  unfold raise enqueueIncrease
  split_ifs with hpass htarget
  · rw [weight_append_singleton]
    exact Nat.add_le_add_left (pow_spread_le d (Nat.ne_of_gt (Nat.lt_of_succ_lt htarget))) _
  all_goals exact Nat.le_add_right _ _

theorem weight_lower_le (e : FloodEntry α δ) (s : FloodState α δ) (d : δ) :
    m.weight (m.lower e s d).decreases ≤ m.weight s.decreases + m.share e := by
  unfold lower enqueueDecrease
  split_ifs with hpass hlevel
  · have htarget : (m.spread e d).level ≠ 0 := by
      simp only [spread]
      omega
    rw [setLevel_decreases, relight_decreases, weight_append_singleton]
    exact Nat.add_le_add_left (pow_spread_le d htarget) _
  · rw [setLevel_decreases, relight_decreases]
    exact le_add_right _ _
  · rw [enqueueIncrease_decreases]
    exact le_add_right _ _
  · exact le_add_right _ _

theorem length_mul_share_lt {directions : List δ} (h : directions.length ≤ m.all.length) :
    directions.length * m.share e < (m.all.length + 1) ^ e.level := by
  unfold share
  cases hlevel : e.level with
  | zero => simp
  | succ level =>
    rw [if_neg (Nat.succ_ne_zero level), Nat.add_sub_cancel, Nat.pow_succ, Nat.mul_comm]
    exact Nat.mul_lt_mul_of_pos_left (Nat.lt_succ_of_le h) (Nat.pow_pos (Nat.succ_pos _))

theorem weight_foldl_raise_le (e : FloodEntry α δ) (directions : List δ) (s : FloodState α δ) :
    m.weight (directions.foldl (m.raise e) s).increases ≤
      m.weight s.increases + directions.length * m.share e := by
  induction directions generalizing s with
  | nil => simp
  | cons d directions ih =>
    have hrest := ih (m.raise e s d)
    have hfirst := weight_raise_le (m := m) e s d
    rw [foldl_cons, length_cons, succ_mul]
    omega

theorem weight_foldl_lower_le (e : FloodEntry α δ) (directions : List δ) (s : FloodState α δ) :
    m.weight (directions.foldl (m.lower e) s).decreases ≤
      m.weight s.decreases + directions.length * m.share e := by
  induction directions generalizing s with
  | nil => simp
  | cons d directions ih =>
    have hrest := ih (m.lower e s d)
    have hfirst := weight_lower_le (m := m) e s d
    rw [foldl_cons, length_cons, succ_mul]
    omega

section

variable (hs : m.Sized s)

include hs

theorem Sized.foldl_raise (e : FloodEntry α δ) (directions : List δ) :
    m.Sized (directions.foldl (m.raise e) s) := by
  induction directions generalizing s with
  | nil => exact hs
  | cons d directions ih => exact ih (hs.raise e d)

theorem Sized.foldl_lower (e : FloodEntry α δ) (directions : List δ) :
    m.Sized (directions.foldl (m.lower e) s) := by
  induction directions generalizing s with
  | nil => exact hs
  | cons d directions ih => exact ih (hs.lower e d)

theorem Sized.stepIncrease {s' : FloodState α δ} (h : m.stepIncrease s = some s') :
    m.Sized s' ∧ m.weight s'.increases < m.weight s.increases := by
  unfold Flood.stepIncrease at h
  cases hqueue : s.increases with
  | nil => simp [hqueue] at h
  | cons e rest =>
    simp only [hqueue] at h
    have hrest : m.Sized { s with increases := rest } :=
      ⟨fun e' he' => hs.increases e' (hqueue ▸ mem_cons_of_mem e he'), hs.decreases⟩
    have hsize := length_mul_share_lt (e := e) (hs.increases e (hqueue ▸ mem_cons_self))
    rw [weight_cons]
    split_ifs at h with hskip hwrite
    · obtain rfl := Option.some.inj h
      exact ⟨hrest, Nat.lt_add_of_pos_left (Nat.pow_pos (Nat.succ_pos _))⟩
    · obtain rfl := Option.some.inj h
      have hweight := weight_foldl_raise_le (m := m) e e.directions
        (Flood.setLevel e.pos e.level { s with increases := rest })
      rw [setLevel_increases] at hweight
      exact ⟨(hrest.setLevel _ _).foldl_raise e _, by simp only at hweight ⊢; omega⟩
    · obtain rfl := Option.some.inj h
      have hweight := weight_foldl_raise_le (m := m) e e.directions { s with increases := rest }
      exact ⟨hrest.foldl_raise e _, by simp only at hweight ⊢; omega⟩

theorem Sized.stepDecrease {s' : FloodState α δ} (h : m.stepDecrease s = some s') :
    m.Sized s' ∧ m.weight s'.decreases < m.weight s.decreases := by
  unfold Flood.stepDecrease at h
  cases hqueue : s.decreases with
  | nil => simp [hqueue] at h
  | cons e rest =>
    simp only [hqueue, Option.some.injEq] at h
    subst h
    have hrest : m.Sized { s with decreases := rest } :=
      ⟨hs.increases, fun e' he' => hs.decreases e' (hqueue ▸ mem_cons_of_mem e he')⟩
    have hsize := length_mul_share_lt (e := e) (hs.decreases e (hqueue ▸ mem_cons_self))
    have hweight := weight_foldl_lower_le (m := m) e e.directions { s with decreases := rest }
    rw [weight_cons]
    exact ⟨hrest.foldl_lower e _, by simp only at hweight ⊢; omega⟩

theorem Sized.exists_loop_increase :
    ∃ fuel s', loop m.stepIncrease fuel s = some s' :=
  exists_loop (fun s => m.weight s.increases) (fun _ _ hs h => hs.stepIncrease h) hs

theorem Sized.exists_loop_decrease :
    ∃ fuel s', loop m.stepDecrease fuel s = some s' :=
  exists_loop (fun s => m.weight s.decreases) (fun _ _ hs h => hs.stepDecrease h) hs

end

end Flood

end Steel
