import Steel.Lib.FirstFit
import Steel.Recipe.CraftingInput

/-! # Shapeless recipes

A shapeless recipe gives each of its ingredients the first stack left that the ingredient accepts.
-/

namespace Steel

open FirstFit ItemStack List Bool

structure ShapelessRecipe where
  ingredients : List Ingredient

namespace ShapelessRecipe

def unused (n : ℕ) (used : List Bool) : List ℕ :=
  (List.range n).filter fun i => used[i]? == some false

theorem unused_set {n : ℕ} {used : List Bool} {i : ℕ} (h : i ∈ unused n used) :
    unused n (used.set i true) = (unused n used).erase i := by
  have hnodup : (unused n used).Nodup := nodup_range.filter _
  rw [hnodup.erase_eq_filter, unused, unused, filter_filter]
  refine filter_congr fun j _ => ?_
  obtain ⟨-, hused⟩ := mem_filter.1 h
  by_cases hij : i = j
  · subst hij
    have hlt : i < used.length := by
      by_contra hge
      rw [List.getElem?_eq_none (not_lt.1 hge)] at hused
      cases hused
    rw [List.getElem?_set_self hlt, bne_self_eq_false, Bool.false_and]
    rfl
  · rw [List.getElem?_set_ne hij, bne_iff_ne.2 (Ne.symm hij), Bool.true_and]

theorem unused_replicate (n : ℕ) : unused n (List.replicate n false) = List.range n := by
  refine filter_eq_self.2 fun i hi => ?_
  rw [List.getElem?_replicate, if_pos (mem_range.1 hi)]
  rfl

variable {κ : Type} [ItemKind κ] [ItemTags]

/-- The first stack that is not used and that an ingredient accepts. -/
def findUnused (ingredient : Ingredient) (nonEmpty : List (ItemStack κ)) (used : List Bool) :
    Option ℕ :=
  (List.range nonEmpty.length).find? fun i =>
    used[i]? == some false && nonEmpty[i]?.any ingredient.test

/-- The loop of `matches` over the ingredients. -/
def assign (nonEmpty : List (ItemStack κ)) : List Ingredient → List Bool → Bool
  | [], _ => true
  | ingredient :: ingredients, used =>
    match findUnused ingredient nonEmpty used with
    | none => false
    | some i => assign nonEmpty ingredients (used.set i true)

variable (recipe : ShapelessRecipe)

/-- `matches`. No result stands for a panic. -/
def matchesInput (input : CraftingInput κ) : Option Bool :=
  if input.ingredientCount ≠ recipe.ingredients.length then some false
  else
    match recipe.ingredients with
    | [ingredient] => (input.items.find? isFilled).map ingredient.test
    | ingredients =>
      let nonEmpty := input.items.filter isFilled
      some (assign nonEmpty ingredients (List.replicate nonEmpty.length false))

def accepts (nonEmpty : List (ItemStack κ)) (ingredient : Ingredient) (i : ℕ) : Bool :=
  nonEmpty[i]?.any ingredient.test

variable {nonEmpty : List (ItemStack κ)} (ingredient : Ingredient)

theorem findUnused_eq (used : List Bool) : findUnused ingredient nonEmpty used =
      (unused nonEmpty.length used).find? (accepts nonEmpty ingredient) := by
  rw [findUnused, unused, find?_filter]
  refine congrArg (List.find? · _) (funext fun i => ?_)
  rw [decide_and, decide_eq_true, decide_eq_true]
  rfl

theorem assign_eq_serves (ingredients : List Ingredient) : ∀ used : List Bool,
    assign nonEmpty ingredients used =
      serves (accepts nonEmpty) ingredients (unused nonEmpty.length used) := by
  induction ingredients with
  | nil => exact fun _ => rfl
  | cons ingredient ingredients ih =>
    intro used
    rw [assign, serves, findUnused_eq]
    cases hfind : (unused nonEmpty.length used).find? (accepts nonEmpty ingredient) with
    | none => rfl
    | some i =>
      dsimp only
      rw [ih, unused_set (mem_of_find?_eq_some hfind)]

theorem assign_singleton (stack : ItemStack κ) :
    assign [stack] [ingredient] [false] = ingredient.test stack := by
  cases htest : ingredient.test stack <;> simp [assign, findUnused, htest]

theorem matchesInput_eq {input : CraftingInput κ} (hitems : input.items.filter isFilled = nonEmpty)
    (hcount : input.ingredientCount = nonEmpty.length) :
    recipe.matchesInput input = some (decide (nonEmpty.length = recipe.ingredients.length) &&
      assign nonEmpty recipe.ingredients (List.replicate nonEmpty.length false)) := by
  rw [matchesInput, hcount]
  by_cases hlength : nonEmpty.length = recipe.ingredients.length
  · rw [if_neg (not_not.2 hlength), decide_eq_true hlength, Bool.true_and, hitems]
    split
    next ingredient hingredients =>
      rw [hingredients] at hlength ⊢
      obtain ⟨stack, rfl⟩ := length_eq_one_iff.1 hlength
      have hfind : input.items.find? isFilled = some stack := by
        rw [← head?_filter, hitems]
        rfl
      rw [hfind]
      exact congrArg some (assign_singleton ingredient stack).symm
    next => rfl
  · rw [if_pos hlength, decide_eq_false hlength, Bool.false_and]

section Matches

variable (recipe : ShapelessRecipe) (offered : List (ItemStack κ))

abbrev Assignment : Type := Fin recipe.ingredients.length ≃ Fin offered.length

variable {recipe offered}

/-- Every ingredient accepts the stack that it is assigned. -/
def Assignment.Accepted (e : recipe.Assignment offered) : Prop :=
  ∀ i, (recipe.ingredients.get i).test (offered.get (e i)) = true

/-- No ingredient accepts a stack that comes before its own and goes to a later ingredient. -/
def Assignment.Ordered (e : recipe.Assignment offered) : Prop :=
  ∀ i j, i < j → e j < e i → (recipe.ingredients.get i).test (offered.get (e j)) = false

theorem accepts_get (i : Fin offered.length) :
    accepts offered ingredient i = ingredient.test (offered.get i) := by
  rw [accepts, List.getElem?_eq_getElem i.isLt, Option.any_some]
  rfl

theorem assign_iff (hlength : offered.length = recipe.ingredients.length) :
    assign offered recipe.ingredients (List.replicate offered.length false) = true ↔
      ∃ e : recipe.Assignment offered, e.Accepted ∧ e.Ordered := by
  rw [assign_eq_serves, unused_replicate, serves_iff pairwise_lt_range
    (hlength.symm.trans length_range.symm)]
  constructor
  · rintro ⟨assigned, hassigned, hordered⟩
    obtain ⟨e, rfl, haccepts⟩ := assigned_range_iff.1 hassigned
    refine ⟨e, fun i => ?_, fun i j hij hlt => ?_⟩
    · rw [← accepts_get]
      exact haccepts i
    · rw [← accepts_get]
      exact (ordered_positions_iff e).1 hordered i j hij hlt
  · rintro ⟨e, haccepts, hordered⟩
    refine ⟨positions e, assigned_range_iff.2 ⟨e, rfl, fun i => ?_⟩,
      (ordered_positions_iff e).2 fun i j hij hlt => ?_⟩
    · rw [accepts_get]
      exact haccepts i
    · rw [accepts_get]
      exact hordered i j hij hlt

variable (recipe) (grid : CraftingGrid κ)

def matchesGrid : Option Bool := do
  recipe.matchesInput (← grid.asPositionedInput).input

def gridStacks : List (ItemStack κ) := grid.items.filter isFilled

/-- The recipe answers without a panic, and its answer is whether an ordered assignment exists. -/
theorem matchesGrid_eq : ∃ answer, recipe.matchesGrid grid = some answer ∧
    (answer = true ↔ ∃ e : recipe.Assignment (gridStacks grid), e.Accepted ∧ e.Ordered) := by
  obtain ⟨positioned, hpositioned, hitems, hcount⟩ : ∃ positioned,
      grid.asPositionedInput = some positioned ∧
      positioned.input.items.filter isFilled = gridStacks grid ∧
      positioned.input.ingredientCount = (gridStacks grid).length := by
    by_cases h : grid.occupied = []
    · have hstacks : gridStacks grid = [] := CraftingGrid.filter_items_of_occupied h
      rw [hstacks]
      exact ⟨.empty, CraftingGrid.asPositionedInput_empty h, rfl, rfl⟩
    · obtain ⟨positioned, hpositioned, hspanned⟩ := CraftingGrid.asPositionedInput_spanned h
      refine ⟨positioned, hpositioned, hspanned.filter_items, ?_⟩
      rw [hspanned.count, hspanned.filter_items]
      rfl
  rw [matchesGrid, hpositioned]
  refine ⟨_, recipe.matchesInput_eq hitems hcount, ?_⟩
  rw [and_eq_true, decide_eq_true_eq]
  by_cases hlength : (gridStacks grid).length = recipe.ingredients.length
  · rw [and_iff_right hlength, assign_iff hlength]
  · refine iff_of_false (fun h => hlength h.1) ?_
    rintro ⟨e, -⟩
    exact hlength (Fin.equiv_iff_eq.1 ⟨e⟩).symm

/-- A recipe matches exactly if there is an assignment if and only if, whenever there is one, there
is one in which no ingredient is passed over. -/
theorem matchesGrid_iff_assignment_iff :
    (recipe.matchesGrid grid = some true ↔ ∃ e : recipe.Assignment (gridStacks grid), e.Accepted) ↔
      ((∃ e : recipe.Assignment (gridStacks grid), e.Accepted) →
        ∃ e : recipe.Assignment (gridStacks grid), e.Accepted ∧ e.Ordered) := by
  obtain ⟨answer, hanswer, hiff⟩ := recipe.matchesGrid_eq grid
  rw [hanswer, Option.some_inj, hiff]
  constructor
  · intro h
    exact h.2
  · intro h
    constructor
    · rintro ⟨e, haccepted, -⟩
      exact ⟨e, haccepted⟩
    · exact h

end Matches

/-- The first ingredient accepts any ingot, the second one iron. -/
def anyAndIron : ShapelessRecipe := ⟨[.choice [1, 2], .item 1]⟩

def ironAndGold : CraftingGrid Ingot := ⟨2, 1, [⟨.iron, 1⟩, ⟨.gold, 1⟩], rfl⟩

omit [ItemTags] in
/-- The first ingredient takes the iron, and the second one is left with the gold. -/
theorem anyAndIron_passes_over :
    ¬ ∀ (_ : ItemTags) (recipe : ShapelessRecipe) (grid : CraftingGrid Ingot),
      (∀ ingredient ∈ recipe.ingredients, ingredient ≠ .empty) →
      (recipe.matchesGrid grid = some true ↔
        ∃ e : recipe.Assignment (gridStacks grid), e.Accepted) := by
  intro h
  have hiff := @h noTags anyAndIron ironAndGold (by decide)
  have hstacks : gridStacks ironAndGold = [⟨.iron, 1⟩, ⟨.gold, 1⟩] := by decide
  have hassignment : ∃ e : anyAndIron.Assignment (gridStacks ironAndGold),
      @Assignment.Accepted _ _ noTags _ _ e := by
    rw [hstacks]
    refine ⟨(Equiv.swap 0 1 : Fin 2 ≃ Fin 2), ?_⟩
    unfold Assignment.Accepted
    decide
  exact absurd (hiff.2 hassignment) (by decide +kernel)

end ShapelessRecipe

end Steel
