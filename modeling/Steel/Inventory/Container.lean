import Steel.Inventory.ItemStack

/-! # Containers

A container is a row of slots. Adding a stack first fills slots that hold its kind and then empty
ones; each slot is asked once in each pass, with what is left of the stack.
-/

namespace Steel

open ItemStack hiding count
open Nat

open List (map_nil sum_nil map_cons sum_cons range)

variable {κ : Type} [ItemKind κ]

/-- Slots with the size limit of the container and the rule for what they accept. The rule sees
the contents, and `changed` is set by `set_changed`. -/
structure Container (κ : Type) where
  items : List (ItemStack κ)
  maxStackSize : ℤ
  canPlaceItem : List (ItemStack κ) → ℕ → ItemStack κ → Bool
  changed : Bool

namespace Container

variable (c : Container κ)

def getContainerSize : ℕ := c.items.length

def setChanged : Container κ := { c with changed := true }

def getMaxStackSizeForItem (item : ItemStack κ) : ℤ :=
  min c.maxStackSize item.maxStackSize

/-- The state of `add`: the slots, what is left of the stack, and whether anything changed. -/
structure Adding (κ : Type) where
  items : List (ItemStack κ)
  stack : ItemStack κ
  changed : Bool

/-- Visit slots until the stack is empty; the answer tells whether the loop returned early. -/
def sweep (body : ℕ → Adding κ → Adding κ) : List ℕ → Adding κ → Adding κ × Bool
  | [], s => (s, false)
  | slot :: slots, s => if s.stack.IsEmpty then (s, true) else sweep body slots (body slot s)

variable [DecidableEq κ]

def topUp (maxSize : ℤ) (slot : ℕ) (s : Adding κ) : Adding κ :=
  if !c.canPlaceItem s.items slot s.stack then s
  else
    let existing := s.items.getD slot .empty
    if ¬ existing.IsEmpty ∧ existing.IsSameItemSameComponents s.stack then
      let space := maxSize - existing.shownCount
      if 0 < space then
        let toAdd := min s.stack.shownCount space
        ⟨s.items.set slot (existing.grow toAdd), s.stack.shrink toAdd, true⟩
      else s
    else s

def fillEmpty (maxSize : ℤ) (slot : ℕ) (s : Adding κ) : Adding κ :=
  if (s.items.getD slot .empty).IsEmpty ∧ c.canPlaceItem s.items slot s.stack then
    let toPlace := min s.stack.shownCount maxSize
    let (placed, left) := s.stack.split toPlace
    ⟨s.items.set slot placed, left, true⟩
  else s

/-- The slots after `add`. -/
def finish (s : Adding κ) : Container κ :=
  if s.changed then setChanged { c with items := s.items } else { c with items := s.items }

variable (stack : ItemStack κ)

/-- Whether the whole stack was added, the container and the rest of the stack. -/
def add : Bool × Container κ × ItemStack κ :=
  if stack.IsEmpty then (true, c, stack)
  else
    let size := c.getContainerSize
    let maxSize := c.getMaxStackSizeForItem stack
    let start : Adding κ := ⟨c.items, stack, false⟩
    let (s, returned) :=
      if stack.isStackable then sweep (c.topUp maxSize) (range size) start else (start, false)
    if returned then (true, c.finish s, s.stack)
    else
      let (s, returned) := sweep (c.fillEmpty maxSize) (range size) s
      if returned then (true, c.finish s, s.stack)
      else (decide s.stack.IsEmpty, c.finish s, s.stack)

def matchingItemCount (predicate : ItemStack κ → Bool) (amountToRemove : ℤ) (countingOnly : Bool) :
    ℤ :=
  if stack.IsEmpty ∨ ¬ predicate stack then 0
  else if countingOnly then stack.shownCount
  else if amountToRemove < 0 then stack.shownCount
  else min amountToRemove stack.shownCount

/-- The loop over the slots, with the number of items so far. -/
def clearLoop (predicate : ItemStack κ → Bool) (amountToRemove : ℤ) (countingOnly : Bool) :
    List (ItemStack κ) → ℤ → List (ItemStack κ) × ℤ
  | [], count => ([], count)
  | stack :: others, count =>
    let stackCount := stack.shownCount
    let amountRemoved := matchingItemCount stack predicate (amountToRemove - count) countingOnly
    let left :=
      if 0 < amountRemoved ∧ !countingOnly then
        if amountRemoved = stackCount then .empty else stack.shrink amountRemoved
      else stack
    let (left', total) :=
      clearLoop predicate amountToRemove countingOnly others (count + amountRemoved)
    (left :: left', total)

def clearOrCountMatchingItems (predicate : ItemStack κ → Bool) (amountToRemove : ℤ)
    (countingOnly : Bool) : ℤ × Container κ :=
  let (items, count) := clearLoop predicate amountToRemove countingOnly c.items 0
  let c : Container κ := { c with items := items }
  (count, if 0 < count ∧ !countingOnly then c.setChanged else c)

section Passes

variable {body : ℕ → Adding κ → Adding κ} {s : Adding κ}

def visit (body : ℕ → Adding κ → Adding κ) (s : Adding κ) (slot : ℕ) : Adding κ :=
  if s.stack.IsEmpty then s else body slot s

def stateAt (body : ℕ → Adding κ → Adding κ) (s : Adding κ) (slot : ℕ) : Adding κ :=
  (range slot).foldl (visit body) s

omit [DecidableEq κ] in
theorem foldl_visit_of_isEmpty (h : s.stack.IsEmpty) (slots : List ℕ) :
    slots.foldl (visit body) s = s := by
  induction slots with
  | nil => rfl
  | cons slot slots ih => rw [List.foldl_cons, visit, if_pos h, ih]

omit [DecidableEq κ] in
/-- A sweep visits all slots; it returns early only when the stack is empty. -/
theorem sweep_spec (body : ℕ → Adding κ → Adding κ) (slots : List ℕ) (s : Adding κ) :
    (sweep body slots s).1 = slots.foldl (visit body) s ∧
      ((sweep body slots s).2 = true → (sweep body slots s).1.stack.IsEmpty) := by
  induction slots generalizing s with
  | nil => exact ⟨rfl, nofun⟩
  | cons slot slots ih =>
    rw [sweep, List.foldl_cons, visit]
    split
    case isTrue h => exact ⟨(foldl_visit_of_isEmpty h slots).symm, fun _ => h⟩
    case isFalse => exact ih (body slot s)

omit [DecidableEq κ] in
theorem stateAt_succ (body : ℕ → Adding κ → Adding κ) (s : Adding κ) (slot : ℕ) :
    stateAt body s (slot + 1) = visit body (Container.stateAt body s slot) slot := by
  rw [stateAt, List.range_succ, List.foldl_append]
  rfl

def ChangesOwn (body : ℕ → Adding κ → Adding κ) : Prop :=
  ∀ slot s, ∃ stack, (body slot s).items = s.items.set slot stack

omit [DecidableEq κ] in
theorem ChangesOwn.visit (h : ChangesOwn body) (s : Adding κ) (slot : ℕ) :
    (visit body s slot).items.length = s.items.length ∧
      ∀ i, i ≠ slot → (Container.visit body s slot).items[i]? = s.items[i]? := by
  unfold Container.visit
  split
  case isTrue => exact ⟨rfl, fun i _ => rfl⟩
  case isFalse =>
    obtain ⟨stack, hset⟩ := h slot s
    rw [hset]
    exact ⟨List.length_set, fun i hne => List.getElem?_set_ne hne.symm⟩

omit [DecidableEq κ] in
theorem ChangesOwn.stateAt (h : ChangesOwn body) (s : Adding κ) (n : ℕ) :
    (Container.stateAt body s n).items.length = s.items.length ∧
    (∀ i, n ≤ i → (Container.stateAt body s n).items[i]? = s.items[i]?) ∧
    ∀ i, i < n → (Container.stateAt body s n).items[i]? =
      (Container.stateAt body s (i + 1)).items[i]? := by
  induction n with
  | zero => exact ⟨rfl, fun i _ => rfl, fun i hi => absurd hi (not_lt_zero i)⟩
  | succ n ih =>
    obtain ⟨hlen, hlater, hearlier⟩ := ih
    rw [stateAt_succ]
    obtain ⟨hlen', hother⟩ := h.visit (Container.stateAt body s n) n
    refine ⟨hlen'.trans hlen, fun i hi => ?_, fun i hi => ?_⟩
    · rw [hother i (by omega)]
      exact hlater i (by omega)
    · rcases lt_or_ge i n with hlt | hge
      · rw [hother i (by omega)]
        exact hearlier i hlt
      · obtain rfl : i = n := by omega
        rw [stateAt_succ]

omit [DecidableEq κ] in
theorem not_isEmpty_stateAt {n : ℕ} (h : ¬ (Container.stateAt body s n).stack.IsEmpty) {i : ℕ}
    (hi : i ≤ n) :
    ¬ (Container.stateAt body s i).stack.IsEmpty := by
  induction n with
  | zero =>
    obtain rfl := le_zero.mp hi
    exact h
  | succ n ih =>
    have hn : ¬ (Container.stateAt body s n).stack.IsEmpty := by
      intro hempty
      rw [stateAt_succ, visit, if_pos hempty] at h
      exact h hempty
    rcases lt_or_ge n i with hlt | hge
    · obtain rfl : i = n + 1 := by omega
      exact h
    · exact ih hn hge

end Passes

def Adding.total (s : Adding κ) : κ → ℤ := (s.items.map amount).sum + s.stack.amount

/-- A slot stays as it is, or gets items of the kind up to the size limit. -/
def SlotChange (kind : κ) (maxSize : ℤ) (old new : ItemStack κ) : Prop :=
  new = old ∨ new.kind = kind ∧ (old.IsEmpty ∨ old.kind = kind) ∧
    old.shownCount ≤ new.shownCount ∧ new.shownCount ≤ maxSize

variable {c : Container κ} {maxSize : ℤ} {s : Adding κ} {slot : ℕ} {old : ItemStack κ} {kind : κ}

omit [DecidableEq κ] in
theorem SlotChange.trans {mid new : ItemStack κ} (h : SlotChange kind maxSize old mid)
    (h' : SlotChange kind maxSize mid new) : SlotChange kind maxSize old new := by
  rcases h with rfl | ⟨hkind, hold, hle, hmax⟩
  · exact h'
  · rcases h' with rfl | ⟨hkind', -, hle', hmax'⟩
    · exact .inr ⟨hkind, hold, hle, hmax⟩
    · exact .inr ⟨hkind', hold, hle.trans hle', hmax'⟩

omit [DecidableEq κ] in
theorem shownCount_of_not_isEmpty {stack : ItemStack κ} (h : ¬ stack.IsEmpty) :
    stack.shownCount = stack.count := if_neg h

omit [DecidableEq κ] in
theorem shownCount_le_one {stack : ItemStack κ} (h : ¬ stack.IsEmpty) : 1 ≤ stack.shownCount := by
  rw [shownCount_of_not_isEmpty h]
  exact count_pos h

omit [DecidableEq κ] in
theorem same_of_kind_eq {a b : ItemStack κ} (h : a.kind = b.kind) (ha : ¬ a.IsEmpty)
    (hb : ¬ b.IsEmpty) : a.IsSameItemSameComponents b := by
  refine ⟨?_, .inr h⟩
  rw [ItemStack.IsSameItem, item, item, if_neg ha, if_neg hb, h]

theorem sum_map_set {α M : Type} [AddCommMonoid M] (f : α → M) {l : List α} {i : ℕ} {a : α}
    (h : l[i]? = some a) (b : α) : ((l.set i b).map f).sum + f a = (l.map f).sum + f b := by
  induction l generalizing i with
  | nil => simp at h
  | cons x l ih =>
    cases i with
    | zero =>
      rw [List.getElem?_cons_zero, Option.some.injEq] at h
      subst h
      rw [List.set_cons_zero, map_cons, map_cons, sum_cons, sum_cons]
      abel
    | succ i =>
      rw [List.set_cons_succ, map_cons, map_cons, sum_cons, sum_cons, add_assoc,
        ih h, add_assoc]

section

variable (hold : s.items[slot]? = some old)

include hold

theorem total_set {new left : ItemStack κ} {changed : Bool}
    (h : new.amount + left.amount = old.amount + s.stack.amount) :
    (⟨s.items.set slot new, left, changed⟩ : Adding κ).total = s.total := by
  have hset := sum_map_set amount hold new
  have hsum : ((s.items.set slot new).map amount).sum + old.amount + left.amount =
      (s.items.map amount).sum + (old.amount + s.stack.amount) := by
    rw [hset, add_assoc, h]
  have hcancel : ((s.items.set slot new).map amount).sum + left.amount + old.amount =
      (s.items.map amount).sum + s.stack.amount + old.amount := by
    rw [add_right_comm, hsum]
    abel
  exact add_right_cancel hcancel

omit [ItemKind κ] [DecidableEq κ] in
theorem getElem?_set_of_some (new : ItemStack κ) :
    (s.items.set slot new)[slot]? = some new := by
  rw [List.getElem?_set_self (List.getElem?_eq_some_iff.mp hold).1]

omit [DecidableEq κ] in
theorem getD_of_some : s.items.getD slot .empty = old := by
  rw [List.getD_eq_getElem?_getD, hold, Option.getD_some]

end

/-- What every visit keeps. -/
structure VisitSpec (maxSize : ℤ) (s s' : Adding κ) (old new : ItemStack κ) : Prop where
  kind : s'.stack.kind = s.stack.kind
  nonneg : 0 ≤ s'.stack.count
  total : s'.total = s.total
  change : SlotChange s.stack.kind maxSize old new

/-- A visit of the first pass fills the slot as far as it accepts the stack. -/
theorem topUp_spec (hold : s.items[slot]? = some old) (hne : ¬ s.stack.IsEmpty) :
    ∃ new, (c.topUp maxSize slot s).items[slot]? = some new ∧
      VisitSpec maxSize s (c.topUp maxSize slot s) old new ∧ (old.IsEmpty → new = old) ∧
      (¬ old.IsEmpty → old.kind = s.stack.kind →
        c.canPlaceItem s.items slot s.stack = true → ¬ (c.topUp maxSize slot s).stack.IsEmpty →
          maxSize ≤ new.shownCount) := by
  have hpos := count_pos hne
  have hsame : VisitSpec maxSize s s old old := ⟨rfl, hpos.le, rfl, .inl rfl⟩
  unfold topUp
  rw [getD_of_some hold]
  dsimp only
  split
  case isTrue hrejects =>
    refine ⟨old, hold, hsame, fun _ => rfl, fun _ _ haccepts => ?_⟩
    rw [haccepts] at hrejects
    cases hrejects
  case isFalse =>
    split
    case isFalse hnot =>
      refine ⟨old, hold, hsame, fun _ => rfl, fun hold' hkind => ?_⟩
      exact absurd ⟨hold', same_of_kind_eq hkind hold' hne⟩ hnot
    case isTrue hmatch =>
      obtain ⟨hold', hmatch⟩ := hmatch
      have hkind := kind_eq_of_same hmatch hne
      have hcount := count_pos hold'
      split
      case isFalse hspace => exact ⟨old, hold, hsame, fun _ => rfl, fun _ _ _ _ => by omega⟩
      case isTrue hspace =>
        rw [shownCount_of_not_isEmpty hold', shownCount_of_not_isEmpty hne]
        rw [shownCount_of_not_isEmpty hold'] at hspace
        generalize hadd : min s.stack.count (maxSize - old.count) = toAdd
        have haddpos : 0 < toAdd := by omega
        have hnew : ¬ (old.grow toAdd).IsEmpty :=
          not_isEmpty_mk hold' (by omega)
        have hnewcount : (old.grow toAdd).shownCount = old.count + toAdd :=
          shownCount_of_not_isEmpty hnew
        refine ⟨old.grow toAdd, getElem?_set_of_some hold _, ⟨rfl, ?_, ?_, ?_⟩, ?_, ?_⟩
        · change 0 ≤ s.stack.count - toAdd
          omega
        · exact total_set hold (amount_transfer hkind hcount.le haddpos.le (by omega))
        · refine .inr ⟨hkind, .inr hkind, ?_, ?_⟩
          · rw [hnewcount, shownCount_of_not_isEmpty hold']
            omega
          · rw [hnewcount]
            omega
        · exact fun hempty => absurd hempty hold'
        · intro _ _ _ hleft
          have hleftpos : 0 < s.stack.count - toAdd := count_pos hleft
          omega

/-- A visit of the second pass places a part of the stack in an empty slot that accepts it. -/
theorem fillEmpty_spec (hmax : 0 ≤ maxSize) (hold : s.items[slot]? = some old)
    (hne : ¬ s.stack.IsEmpty) :
    ∃ new, (c.fillEmpty maxSize slot s).items[slot]? = some new ∧
      VisitSpec maxSize s (c.fillEmpty maxSize slot s) old new ∧ (¬ old.IsEmpty → new = old) ∧
      (old.IsEmpty → 1 ≤ maxSize → c.canPlaceItem s.items slot s.stack = true → ¬ new.IsEmpty) := by
  have hpos := count_pos hne
  unfold fillEmpty
  rw [getD_of_some hold]
  split
  case isFalse hnot =>
    refine ⟨old, hold, ⟨rfl, hpos.le, rfl, .inl rfl⟩, fun _ => rfl, fun hempty _ haccepts => ?_⟩
    exact absurd ⟨hempty, haccepts⟩ hnot
  case isTrue hfill =>
    obtain ⟨hempty, -⟩ := hfill
    rw [shownCount_of_not_isEmpty hne]
    have htake : min (min s.stack.count maxSize) s.stack.count = min s.stack.count maxSize :=
      min_eq_left (min_le_left _ _)
    simp only [split, htake]
    generalize hplace : min s.stack.count maxSize = toPlace
    refine ⟨⟨s.stack.kind, toPlace⟩, getElem?_set_of_some hold _, ⟨rfl, ?_, ?_, ?_⟩, ?_, ?_⟩
    · change 0 ≤ s.stack.count - toPlace
      omega
    · refine total_set hold ?_
      rw [amount_split s.stack (by omega) (by omega),
        amount_of_isEmpty hempty, zero_add]
    · refine .inr ⟨rfl, .inl hempty, ?_, ?_⟩
      · rw [shownCount, if_pos hempty, shownCount]
        split
        · exact le_rfl
        · change 0 ≤ toPlace
          omega
      · rw [shownCount]
        split
        · exact hmax
        · change toPlace ≤ maxSize
          omega
    · exact fun hnot => absurd hempty hnot
    · exact fun _ hone _ => not_isEmpty_mk hne (by omega)

omit [ItemKind κ] [DecidableEq κ] in
theorem exists_eq_set (items : List (ItemStack κ)) (stack : ItemStack κ) (slot : ℕ) :
    ∃ stack, items = items.set slot stack := by
  by_cases hslot : slot < items.length
  · exact ⟨items[slot], (List.set_getElem_self hslot).symm⟩
  · exact ⟨stack, (List.set_eq_of_length_le (not_lt.mp hslot)).symm⟩

theorem changesOwn_topUp (maxSize : ℤ) : ChangesOwn (c.topUp maxSize) := by
  intro slot s
  unfold topUp
  dsimp only
  split_ifs
  · exact exists_eq_set s.items s.stack slot
  · exact ⟨_, rfl⟩
  · exact exists_eq_set s.items s.stack slot
  · exact exists_eq_set s.items s.stack slot

omit [DecidableEq κ] in
theorem changesOwn_fillEmpty (maxSize : ℤ) : ChangesOwn (c.fillEmpty maxSize) := by
  intro slot s
  unfold fillEmpty
  split_ifs
  · exact ⟨_, rfl⟩
  · exact exists_eq_set s.items s.stack slot

section Pass

variable {body : ℕ → Adding κ → Adding κ} {n : ℕ}

omit [DecidableEq κ] in
theorem slot_after_pass (hown : ChangesOwn body) (hn : slot < n)
    (hold : s.items[slot]? = some old) :
    (Container.stateAt body s slot).items[slot]? = some old ∧
    (Container.stateAt body s n).items[slot]? =
      if (Container.stateAt body s slot).stack.IsEmpty then some old
      else (body slot (Container.stateAt body s slot)).items[slot]? := by
  have hbefore : (Container.stateAt body s slot).items[slot]? = some old :=
    ((hown.stateAt s slot).2.1 slot le_rfl).trans hold
  refine ⟨hbefore, ?_⟩
  rw [(hown.stateAt s n).2.2 slot hn, stateAt_succ, visit]
  split
  · exact hbefore
  · rfl

def Conserves (maxSize : ℤ) (body : ℕ → Adding κ → Adding κ) : Prop :=
  ∀ slot s old, s.items[slot]? = some old → ¬ s.stack.IsEmpty →
    ∃ new, (body slot s).items[slot]? = some new ∧ VisitSpec maxSize s (body slot s) old new

theorem Conserves.stateAt (h : Conserves maxSize body) (hown : ChangesOwn body)
    (hs : 0 ≤ s.stack.count) (hn : n ≤ s.items.length) :
    (Container.stateAt body s n).stack.kind = s.stack.kind ∧
      0 ≤ (Container.stateAt body s n).stack.count ∧
      (Container.stateAt body s n).total = s.total := by
  induction n with
  | zero => exact ⟨rfl, hs, rfl⟩
  | succ n ih =>
    obtain ⟨hkind, hcount, htotal⟩ := ih (le_of_succ_le hn)
    rw [stateAt_succ, visit]
    split
    case isTrue => exact ⟨hkind, hcount, htotal⟩
    case isFalse hne =>
      have hget : (Container.stateAt body s n).items[n]? = some s.items[n] :=
        ((hown.stateAt s n).2.1 n le_rfl).trans (List.getElem?_eq_getElem hn)
      obtain ⟨new, -, hspec⟩ := h n _ _ hget hne
      exact ⟨hspec.kind.trans hkind, hspec.nonneg, hspec.total.trans htotal⟩

theorem Conserves.slotChange (h : Conserves maxSize body) (hown : ChangesOwn body)
    (hs : 0 ≤ s.stack.count) (hold : s.items[slot]? = some old) :
    ∃ new, (Container.stateAt body s s.items.length).items[slot]? = some new ∧
      SlotChange s.stack.kind maxSize old new := by
  have hslot := (List.getElem?_eq_some_iff.mp hold).1
  obtain ⟨hbefore, hafter⟩ := slot_after_pass hown hslot hold
  rw [hafter]
  split
  case isTrue => exact ⟨old, rfl, .inl rfl⟩
  case isFalse hne =>
    obtain ⟨new, hnew, hspec⟩ := h slot _ old hbefore hne
    have hkind := (h.stateAt (n := slot) hown hs hslot.le).1
    exact ⟨new, hnew, hkind ▸ hspec.change⟩

end Pass

theorem conserves_topUp (maxSize : ℤ) : Conserves maxSize (c.topUp maxSize) := by
  intro slot s old hold hne
  obtain ⟨new, hnew, hspec, -⟩ := @topUp_spec κ _ _ c maxSize s slot old hold hne
  exact ⟨new, hnew, hspec⟩

theorem conserves_fillEmpty (hmax : 0 ≤ maxSize) : Conserves maxSize (c.fillEmpty maxSize) := by
  intro slot s old hold hne
  obtain ⟨new, hnew, hspec, -⟩ := c.fillEmpty_spec hmax hold hne
  exact ⟨new, hnew, hspec⟩

def topUpState (slot : ℕ) : Adding κ :=
  stateAt (c.topUp (c.getMaxStackSizeForItem stack)) ⟨c.items, stack, false⟩ slot

/-- The state after the first pass; stacks that cannot be stacked have none. -/
def toppedUp : Adding κ :=
  if stack.isStackable then c.topUpState stack c.items.length else ⟨c.items, stack, false⟩

def fillState (slot : ℕ) : Adding κ :=
  stateAt (c.fillEmpty (c.getMaxStackSizeForItem stack)) (c.toppedUp stack) slot

/-- The slot accepts what is left of the stack when the first pass asks it. -/
def AcceptsMore (slot : ℕ) : Prop :=
  c.canPlaceItem (c.topUpState stack slot).items slot (c.topUpState stack slot).stack = true

/-- The slot accepts what is left of the stack when the second pass asks it. -/
def AcceptsRest (slot : ℕ) : Prop :=
  c.canPlaceItem (c.fillState stack slot).items slot (c.fillState stack slot).stack = true

variable {stack : ItemStack κ}

/-- The early returns change nothing: the result is that of two complete passes. -/
theorem add_eq (hne : ¬ stack.IsEmpty) :
    c.add stack = (decide (c.fillState stack c.items.length).stack.IsEmpty,
      c.finish (c.fillState stack c.items.length), (c.fillState stack c.items.length).stack) := by
  have hfirst : ∃ returned, (if stack.isStackable then
      sweep (c.topUp (c.getMaxStackSizeForItem stack)) (range c.getContainerSize)
        ⟨c.items, stack, false⟩ else (⟨c.items, stack, false⟩, false)) =
          (c.toppedUp stack, returned) ∧ (returned = true → (c.toppedUp stack).stack.IsEmpty) := by
    unfold toppedUp
    split
    case isTrue =>
      obtain ⟨hsweep, hreturned⟩ := sweep_spec (c.topUp (c.getMaxStackSizeForItem stack))
        (range c.getContainerSize) ⟨c.items, stack, false⟩
      refine ⟨_, Prod.ext hsweep rfl, fun h => ?_⟩
      have hempty := hreturned h
      rwa [hsweep] at hempty
    case isFalse => exact ⟨false, rfl, nofun⟩
  obtain ⟨returned, hfirst, hempty⟩ := hfirst
  obtain ⟨hsweep, hreturned⟩ := sweep_spec (c.fillEmpty (c.getMaxStackSizeForItem stack))
    (range c.getContainerSize) (c.toppedUp stack)
  have hfill : (sweep (c.fillEmpty (c.getMaxStackSizeForItem stack))
      (range c.getContainerSize) (c.toppedUp stack)).1 =
        c.fillState stack c.items.length := hsweep
  unfold add
  rw [if_neg hne]
  dsimp only
  rw [hfirst]
  cases returned with
  | true =>
    have hdone : c.fillState stack c.items.length = c.toppedUp stack :=
      foldl_visit_of_isEmpty (hempty rfl) _
    rw [hdone, decide_eq_true (hempty rfl)]
    rfl
  | false =>
    rw [hfill] at hreturned
    rw [← hfill]
    cases hsecond : (sweep (c.fillEmpty (c.getMaxStackSizeForItem stack))
        (range c.getContainerSize) (c.toppedUp stack)).2 with
    | true =>
      rw [hfill, decide_eq_true (hreturned hsecond)]
      rfl
    | false => rfl

omit [ItemKind κ] [DecidableEq κ] in
@[simp] theorem finish_items (s : Adding κ) : (c.finish s).items = s.items := by
  unfold finish
  split <;> rfl

theorem toppedUp_spec (hne : ¬ stack.IsEmpty) : (c.toppedUp stack).items.length = c.items.length ∧
    (c.toppedUp stack).stack.kind = stack.kind ∧ 0 ≤ (c.toppedUp stack).stack.count ∧
    (c.toppedUp stack).total = (c.items.map amount).sum + stack.amount ∧
    ∀ i old, c.items[i]? = some old → ∃ mid, (c.toppedUp stack).items[i]? = some mid ∧
      SlotChange stack.kind (c.getMaxStackSizeForItem stack) old mid ∧
      (old.IsEmpty → mid = old) ∧
      (¬ old.IsEmpty → old.kind = stack.kind →
        stack.isStackable = true ∨ c.getMaxStackSizeForItem stack ≤ 1 → c.AcceptsMore stack i →
          ¬ (c.toppedUp stack).stack.IsEmpty →
            c.getMaxStackSizeForItem stack ≤ mid.shownCount) := by
  have hpos := (count_pos hne).le
  have hown := c.changesOwn_topUp (c.getMaxStackSizeForItem stack)
  have hconserves := c.conserves_topUp (c.getMaxStackSizeForItem stack)
  unfold toppedUp
  split
  case isFalse hstackable =>
    refine ⟨rfl, rfl, hpos, rfl, fun i old hold => ⟨old, hold, .inl rfl, fun _ => rfl, ?_⟩⟩
    rintro hold' - (hstack | hone) - -
    · exact absurd hstack hstackable
    · exact hone.trans (shownCount_le_one hold')
  case isTrue =>
    obtain ⟨hkind, hcount, htotal⟩ :=
      hconserves.stateAt (s := ⟨c.items, stack, false⟩) hown hpos le_rfl
    refine ⟨(hown.stateAt _ _).1, hkind, hcount, htotal, fun i old hold => ?_⟩
    obtain ⟨mid, hmid, hchange⟩ :=
      hconserves.slotChange (s := ⟨c.items, stack, false⟩) hown hpos hold
    have hi := (List.getElem?_eq_some_iff.mp hold).1
    obtain ⟨hbefore, hafter⟩ := slot_after_pass (s := ⟨c.items, stack, false⟩) hown hi hold
    refine ⟨mid, hmid, hchange, ?_⟩
    rw [hmid] at hafter
    split at hafter
    case isTrue hdone =>
      obtain rfl := Option.some.inj hafter
      refine ⟨fun _ => rfl, fun _ _ _ _ hleft => ?_⟩
      exact absurd hdone (not_isEmpty_stateAt hleft hi.le)
    case isFalse hleft =>
      obtain ⟨new, hnew, -, hsame, hfull⟩ := c.topUp_spec hbefore hleft
      obtain rfl := Option.some.inj (hafter.trans hnew)
      refine ⟨hsame, fun hold' hkind' _ haccepts hleft' => ?_⟩
      have hkindi := (hconserves.stateAt (s := ⟨c.items, stack, false⟩) (n := i) hown hpos hi.le).1
      have hnext := not_isEmpty_stateAt hleft' (succ_le_of_lt hi)
      rw [stateAt_succ, visit, if_neg hleft] at hnext
      exact hfull hold' (hkind'.trans hkindi.symm) haccepts hnext

/-- Adding a stack moves items from it to the slots that accept them, as far as possible: first to
slots of its kind, then to empty ones. -/
structure AddExact (c : Container κ) (stack : ItemStack κ) : Prop where
  conserved : ((c.add stack).2.1.items.map amount).sum + (c.add stack).2.2.amount =
    (c.items.map amount).sum + stack.amount
  left_kind : (c.add stack).2.2.kind = stack.kind
  length_eq : (c.add stack).2.1.items.length = c.items.length
  change : ∀ (i : ℕ) (old new : ItemStack κ), c.items[i]? = some old →
    (c.add stack).2.1.items[i]? = some new →
    SlotChange stack.kind (c.getMaxStackSizeForItem stack) old new
  full_of_left : ∀ (i : ℕ) (old new : ItemStack κ), c.items[i]? = some old →
    (c.add stack).2.1.items[i]? = some new → ¬ (c.add stack).2.2.IsEmpty → ¬ old.IsEmpty →
    old.IsSameItemSameComponents stack →
    stack.isStackable = true ∨ c.getMaxStackSizeForItem stack ≤ 1 → c.AcceptsMore stack i →
      c.getMaxStackSizeForItem stack ≤ new.shownCount
  taken_of_left : ∀ (i : ℕ) (old new : ItemStack κ), c.items[i]? = some old →
    (c.add stack).2.1.items[i]? = some new → ¬ (c.add stack).2.2.IsEmpty → old.IsEmpty →
    1 ≤ c.getMaxStackSizeForItem stack → c.AcceptsRest stack i → ¬ new.IsEmpty
  full_of_taken : ∀ (i : ℕ) (old new : ItemStack κ), c.items[i]? = some old →
    (c.add stack).2.1.items[i]? = some new → old.IsEmpty → ¬ new.IsEmpty →
    ∀ (j : ℕ) (other : ItemStack κ), c.items[j]? = some other → ¬ other.IsEmpty →
    other.IsSameItemSameComponents stack →
    stack.isStackable = true ∨ c.getMaxStackSizeForItem stack ≤ 1 → c.AcceptsMore stack j →
      ∃ full, (c.add stack).2.1.items[j]? = some full ∧
        c.getMaxStackSizeForItem stack ≤ full.shownCount
  answer : (c.add stack).1 = true ↔ (c.add stack).2.2.IsEmpty

theorem addExact (hne : ¬ stack.IsEmpty) (hmax : 0 ≤ c.getMaxStackSizeForItem stack) :
    c.AddExact stack := by
  have hitems : (c.add stack).2.1.items = (c.fillState stack c.items.length).items := by
    rw [add_eq hne, finish_items]
  have hleft : (c.add stack).2.2 = (c.fillState stack c.items.length).stack := by
    rw [add_eq hne]
  obtain ⟨hlen, hkind, hcount, htotal, hslots⟩ := c.toppedUp_spec hne
  have hown := c.changesOwn_fillEmpty (c.getMaxStackSizeForItem stack)
  have hconserves := c.conserves_fillEmpty hmax
  obtain ⟨hkind', hcount', htotal'⟩ := hconserves.stateAt hown hcount hlen.ge
  have hsecond : ∀ i mid, (c.toppedUp stack).items[i]? = some mid →
      ∃ new, (c.fillState stack c.items.length).items[i]? = some new ∧
        SlotChange stack.kind (c.getMaxStackSizeForItem stack) mid new ∧
        (¬ mid.IsEmpty → new = mid) ∧
        (mid.IsEmpty → ¬ new.IsEmpty → ¬ (c.toppedUp stack).stack.IsEmpty) ∧
        (mid.IsEmpty → 1 ≤ c.getMaxStackSizeForItem stack → c.AcceptsRest stack i →
          ¬ (c.fillState stack c.items.length).stack.IsEmpty → ¬ new.IsEmpty) := by
    intro i mid hmid
    have hi := (List.getElem?_eq_some_iff.mp hmid).1
    obtain ⟨new, hnew, hchange⟩ := hconserves.slotChange hown hcount hmid
    rw [hlen] at hnew hi
    rw [hkind] at hchange
    obtain ⟨hbefore, hafter⟩ := slot_after_pass hown hi hmid
    refine ⟨new, hnew, hchange, ?_⟩
    rw [hnew] at hafter
    split at hafter
    case isTrue hdone =>
      obtain rfl := Option.some.inj hafter
      refine ⟨fun _ => rfl, fun hempty hfilled => absurd hempty hfilled, fun _ _ _ hleft => ?_⟩
      exact absurd hdone (not_isEmpty_stateAt hleft hi.le)
    case isFalse hleft =>
      obtain ⟨new', hnew', -, hsame, hplaced⟩ := c.fillEmpty_spec hmax hbefore hleft
      obtain rfl := Option.some.inj (hafter.trans hnew')
      refine ⟨hsame, fun _ _ => ?_, fun hempty hone haccepts _ => hplaced hempty hone haccepts⟩
      exact not_isEmpty_stateAt hleft (zero_le i)
  have hstays : ∀ j other, c.items[j]? = some other → ¬ other.IsEmpty →
      other.IsSameItemSameComponents stack →
      stack.isStackable = true ∨ c.getMaxStackSizeForItem stack ≤ 1 → c.AcceptsMore stack j →
      ¬ (c.toppedUp stack).stack.IsEmpty →
      ∃ full, (c.fillState stack c.items.length).items[j]? = some full ∧
        c.getMaxStackSizeForItem stack ≤ full.shownCount := by
    intro j other hother hother' hmatch hstackable haccepts hleft
    obtain ⟨midj, hmidj, hchangej, -, hfullj⟩ := hslots j other hother
    obtain ⟨full, hfullget, -, hkeptj, -⟩ := hsecond j midj hmidj
    have hsize := hfullj hother' (kind_eq_of_same hmatch hne) hstackable haccepts hleft
    have hmidj' : ¬ midj.IsEmpty := by
      intro hempty
      rcases hchangej with rfl | ⟨-, -, hle, -⟩
      · exact hother' hempty
      · have hone := shownCount_le_one hother'
        rw [shownCount, shownCount, if_neg hother', if_pos hempty] at hle
        rw [shownCount_of_not_isEmpty hother'] at hone
        omega
    refine ⟨full, hfullget, ?_⟩
    rw [hkeptj hmidj']
    exact hsize
  constructor
  case conserved =>
    rw [hitems, hleft]
    exact htotal'.trans htotal
  case left_kind =>
    rw [hleft]
    exact hkind'.trans hkind
  case length_eq =>
    rw [hitems]
    exact (hown.stateAt _ _).1.trans hlen
  case answer => rw [add_eq hne, decide_eq_true_iff]
  all_goals
    simp only [hitems, hleft]
    intro i old new hold hnew
    obtain ⟨mid, hmid, hchange, hsame, hfull⟩ := hslots i old hold
    obtain ⟨new', hnew', hchange', hkept, hfilled, hplaced⟩ := hsecond i mid hmid
    obtain rfl := Option.some.inj (hnew.symm.trans hnew')
  case change => exact hchange.trans hchange'
  case full_of_left =>
    intro hrest hold' hmatch hstackable haccepts
    obtain ⟨full, hfullget, hle⟩ := hstays i old hold hold' hmatch hstackable haccepts
      (not_isEmpty_stateAt hrest (zero_le _))
    rwa [Option.some.inj (hnew.symm.trans hfullget)]
  case taken_of_left =>
    intro hrest hempty hone haccepts
    obtain rfl := hsame hempty
    exact hplaced hempty hone haccepts hrest
  case full_of_taken =>
    intro hempty htaken j other hother hother' hmatch hstackable haccepts
    obtain rfl := hsame hempty
    exact hstays j other hother hother' hmatch hstackable haccepts (hfilled hempty htaken)

section Clear

variable {predicate : ItemStack κ → Bool} {limit count : ℤ} {items : List (ItemStack κ)}

def matching (predicate : ItemStack κ → Bool) (stack : ItemStack κ) : ℤ :=
  if stack.IsEmpty ∨ ¬ predicate stack then 0 else stack.shownCount

/-- How many of the matching items of a slot are removed when earlier slots hold some already.
A negative limit is none. -/
def removed (limit earlier matching : ℤ) : ℤ :=
  if limit < 0 then matching else min matching (max (limit - earlier) 0)

omit [DecidableEq κ] in
theorem matching_nonneg (predicate : ItemStack κ → Bool) (stack : ItemStack κ) :
    0 ≤ matching predicate stack := by
  unfold matching
  split
  case isTrue => exact le_rfl
  case isFalse h =>
    rw [not_or] at h
    exact (zero_le_one (α := ℤ)).trans (shownCount_le_one h.1)

omit [DecidableEq κ] in
theorem sum_matching_nonneg (predicate : ItemStack κ → Bool) (items : List (ItemStack κ)) :
    0 ≤ (items.map (matching predicate)).sum := by
  induction items with
  | nil => exact le_rfl
  | cons stack items ih =>
    exact add_nonneg (matching_nonneg predicate stack) ih

omit [DecidableEq κ] in
theorem clearLoop_counting (items : List (ItemStack κ)) (count : ℤ) :
    clearLoop predicate limit true items count =
      (items, count + (items.map (matching predicate)).sum) := by
  induction items generalizing count with
  | nil => simp [clearLoop]
  | cons stack items ih =>
    have hcount : matchingItemCount stack predicate (limit - count) true =
        matching predicate stack := by
      unfold matchingItemCount matching
      split <;> rfl
    simp [clearLoop, ih, hcount, ↓reduceIte, add_assoc]

omit [DecidableEq κ] in
theorem matchingItemCount_removing (h0 : 0 ≤ count) (hle : limit < 0 ∨ count ≤ limit) :
    matchingItemCount stack predicate (limit - count) false =
      removed limit count (matching predicate stack) := by
  unfold matchingItemCount removed matching
  by_cases hmatch : stack.IsEmpty ∨ ¬ predicate stack
  · rw [if_pos hmatch, if_pos hmatch]
    split <;> omega
  · rw [if_neg hmatch, if_neg hmatch]
    simp only [Bool.false_eq_true, ↓reduceIte]
    split <;> split <;> omega

def leftOver (amountRemoved : ℤ) (stack : ItemStack κ) : ItemStack κ :=
  if 0 < amountRemoved then
    if amountRemoved = stack.shownCount then .empty else stack.shrink amountRemoved
  else stack

omit [DecidableEq κ] in
/-- The loop removes from every slot what the limit leaves after the slots before it. -/
theorem clearLoop_removing (items : List (ItemStack κ)) (h0 : 0 ≤ count)
    (hle : limit < 0 ∨ count ≤ limit) :
    (clearLoop predicate limit false items count).2 =
      (if limit < 0 then count + (items.map (matching predicate)).sum
        else min limit (count + (items.map (matching predicate)).sum)) ∧
    (clearLoop predicate limit false items count).1.length = items.length ∧
    ∀ i old, items[i]? = some old →
      (clearLoop predicate limit false items count).1[i]? = some (leftOver
        (removed limit (count + ((items.take i).map (matching predicate)).sum)
          (matching predicate old)) old) := by
  induction items generalizing count with
  | nil =>
    refine ⟨?_, rfl, by simp⟩
    simp only [clearLoop, map_nil, sum_nil, add_zero]
    split <;> omega
  | cons stack items ih =>
    have hmatching := matching_nonneg predicate stack
    have hsum := sum_matching_nonneg predicate items
    have hcount : matchingItemCount stack predicate (limit - count) false =
        removed limit count (matching predicate stack) := matchingItemCount_removing h0 hle
    have hbound : 0 ≤ removed limit count (matching predicate stack) ∧
        removed limit count (matching predicate stack) ≤ matching predicate stack ∧
        (limit < 0 ∨ count + removed limit count (matching predicate stack) ≤ limit) ∧
        (count + removed limit count (matching predicate stack) = limit ∨
          removed limit count (matching predicate stack) = matching predicate stack) := by
      unfold removed
      split <;> omega
    obtain ⟨hpos, hmost, hle', hrest⟩ := hbound
    obtain ⟨htotal, hlen, hitems⟩ := @ih
      (count + removed limit count (matching predicate stack)) (by omega) hle'
    simp only [clearLoop, hcount, Bool.not_false, and_true]
    refine ⟨?_, by rw [List.length_cons, hlen, List.length_cons], ?_⟩
    · rw [htotal, map_cons, sum_cons]
      split
      case isTrue hneg => rw [removed, if_pos hneg, add_assoc]
      case isFalse => omega
    · intro i old hold
      cases i with
      | zero =>
        obtain rfl := Option.some.inj hold
        rw [List.take_zero, map_nil, sum_nil, add_zero]
        rfl
      | succ i =>
        rw [List.getElem?_cons_succ] at hold ⊢
        rw [hitems i old hold, List.take_succ_cons, map_cons, sum_cons]
        have hsum' := sum_matching_nonneg predicate (items.take i)
        have hsame : removed limit (count + removed limit count (matching predicate stack) +
            ((items.take i).map (matching predicate)).sum) (matching predicate old) =
            removed limit (count + (matching predicate stack +
              ((items.take i).map (matching predicate)).sum)) (matching predicate old) := by
          unfold removed at hrest ⊢
          split <;> omega
        rw [hsame]

/-- Counting changes nothing. Clearing removes as many of the matching items as the limit allows,
all of them if it is negative, from the first slots on, and tells their number. -/
structure ClearExact (c : Container κ) (predicate : ItemStack κ → Bool) (limit : ℤ) : Prop where
  counted : c.clearOrCountMatchingItems predicate limit true =
    ((c.items.map (matching predicate)).sum, c)
  answer : (c.clearOrCountMatchingItems predicate limit false).1 =
    if limit < 0 then (c.items.map (matching predicate)).sum
    else min limit (c.items.map (matching predicate)).sum
  length_eq : (c.clearOrCountMatchingItems predicate limit false).2.items.length = c.items.length
  slot : ∀ (i : ℕ) (old : ItemStack κ), c.items[i]? = some old → ∃ new,
    (c.clearOrCountMatchingItems predicate limit false).2.items[i]? = some new ∧
    new.shownCount = old.shownCount -
      removed limit ((c.items.take i).map (matching predicate)).sum (matching predicate old) ∧
    (new = old ∨ new = .empty ∨ new.kind = old.kind ∧ predicate old = true)

omit [DecidableEq κ] in
theorem clearExact (predicate : ItemStack κ → Bool) (limit : ℤ) : c.ClearExact predicate limit := by
  obtain ⟨htotal, hlen, hitems⟩ := @clearLoop_removing κ _ predicate limit 0
    c.items le_rfl (lt_or_ge limit 0)
  simp only [zero_add] at htotal hitems
  refine ⟨?_, htotal, ?_, fun i old hold => ?_⟩
  · simp [clearOrCountMatchingItems, clearLoop_counting, ↓reduceIte]
  · rw [← hlen]
    simp only [clearOrCountMatchingItems]
    split <;> rfl
  · have hget : (c.clearOrCountMatchingItems predicate limit false).2.items[i]? =
        (clearLoop predicate limit false c.items 0).1[i]? := by
      simp only [clearOrCountMatchingItems]
      split <;> rfl
    refine ⟨_, hget.trans (hitems i old hold), ?_⟩
    have hmatching := matching_nonneg predicate old
    have hsum := sum_matching_nonneg predicate (c.items.take i)
    generalize hearlier : ((c.items.take i).map (matching predicate)).sum = earlier at hsum ⊢
    have hremoved : 0 ≤ removed limit earlier (matching predicate old) ∧
        removed limit earlier (matching predicate old) ≤ matching predicate old := by
      unfold removed
      split <;> omega
    generalize removed limit earlier (matching predicate old) = amount at hremoved ⊢
    obtain ⟨hnonneg, hle⟩ := hremoved
    unfold leftOver
    split
    case isFalse hzero =>
      obtain rfl : amount = 0 := by omega
      exact ⟨(sub_zero _).symm, .inl rfl⟩
    case isTrue hpos =>
      have hmatch : ¬ old.IsEmpty ∧ predicate old = true := by
        unfold matching at hle
        split at hle
        case isTrue => omega
        case isFalse hnot => simpa using hnot
      have hshown : matching predicate old = old.shownCount := by
        rw [matching, if_neg (by simpa using hmatch)]
      split
      case isTrue hall =>
        refine ⟨?_, .inr (.inl rfl)⟩
        rw [hall, sub_self, shownCount, if_pos isEmpty_empty]
      case isFalse hpart =>
        have hcount := shownCount_of_not_isEmpty hmatch.1
        have hleft : ¬ (old.shrink amount).IsEmpty :=
          not_isEmpty_mk hmatch.1 (by omega)
        refine ⟨?_, .inr (.inr ⟨rfl, hmatch.2⟩)⟩
        rw [shownCount_of_not_isEmpty hleft, hcount]
        rfl

end Clear

theorem add_and_clear_exact (c : Container κ) (stack : ItemStack κ) (hne : ¬ stack.IsEmpty)
    (hmax : 0 ≤ c.getMaxStackSizeForItem stack) (predicate : ItemStack κ → Bool) (limit : ℤ) :
    c.AddExact stack ∧ c.ClearExact predicate limit :=
  ⟨addExact hne hmax, clearExact predicate limit⟩

end Container

/-- Air and one more item. -/
inductive Pebble where
  | air
  | pebble
  deriving DecidableEq

instance : ItemKind Pebble where
  item
    | .air => 0
    | .pebble => 1
  air := .air
  item_air := rfl
  maxStackSize _ := 10
  one_le_maxStackSize _ := by omega
  maxStackSize_le _ := by omega
  isDamaged _ := false

namespace Container

/-- Two slots; the first one rejects stacks of more than twelve items. -/
def pickySlots : Container Pebble :=
  ⟨[⟨.pebble, 1⟩, ⟨.pebble, 1⟩], 99, fun _ slot stack => slot = 1 ∨ stack.count ≤ 12, false⟩

theorem add_and_clear_exact_pickySlots :
    pickySlots.AddExact ⟨.pebble, 20⟩ ∧ pickySlots.ClearExact (fun _ => true) 1 :=
  add_and_clear_exact pickySlots ⟨.pebble, 20⟩ (by decide) (by decide) _ 1

/-- A slot that rejected the whole stack accepts what is left of it, has space, and is not asked
again. -/
theorem accepting_slot_left :
    ¬ ∀ (c : Container Pebble) (stack : ItemStack Pebble), ¬ stack.IsEmpty →
      1 ≤ c.getMaxStackSizeForItem stack → ¬ (c.add stack).2.2.IsEmpty →
      ∀ i new, (c.add stack).2.1.items[i]? = some new → ¬ new.IsEmpty →
        new.IsSameItemSameComponents stack →
        c.canPlaceItem (c.add stack).2.1.items i (c.add stack).2.2 = true →
          c.getMaxStackSizeForItem stack ≤ new.shownCount := by
  intro hall
  have hslot := hall pickySlots ⟨.pebble, 20⟩ (by decide) (by decide) (by decide) 0 ⟨.pebble, 1⟩
    (by decide) (by decide) (by decide) (by decide)
  exact absurd hslot (by decide)

end Container

end Steel
