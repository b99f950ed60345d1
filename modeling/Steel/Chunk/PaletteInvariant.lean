import Mathlib.Data.List.TakeWhile
import Steel.Lib.Run
import Steel.Chunk.PalettedContainer

/-! # Paletted containers are arrays

A container represents a cube of cells; its palette, if it has one, is a tally of the cells.
-/

namespace Steel

open List PalettedContainer Steel.Cube Nat

namespace Cube

variable {V : Type} {d : ℕ}

def index (x y z : Fin d) : Fin (d * d * d) :=
  ⟨(y * d + z) * d + x, by
    have hyz : y * d + z < d * d := by
      calc y * d + z < y * d + d := Nat.add_lt_add_left z.isLt _
        _ = (y + 1) * d := (Nat.succ_mul _ _).symm
        _ ≤ d * d := Nat.mul_le_mul_right _ y.isLt
    calc (y * d + z) * d + x < (y * d + z) * d + d := Nat.add_lt_add_left x.isLt _
      _ = (y * d + z + 1) * d := (Nat.succ_mul _ _).symm
      _ ≤ d * d * d := mul_le_mul_right _ hyz⟩

variable (x y z : Fin d) (i : Fin (d * d * d))

theorem xOf_index : xOf (index x y z) = x := by
  apply Fin.ext
  simp only [xOf, index, Nat.mul_add_mod', Nat.mod_eq_of_lt x.isLt]

theorem index_div : (index x y z : ℕ) / d = y * d + z := by
  have hd : 0 < d := Nat.zero_lt_of_lt x.isLt
  simp only [index]
  rw [Nat.mul_comm _ d, Nat.mul_add_div hd, Nat.div_eq_of_lt x.isLt, Nat.add_zero]

theorem zOf_index : zOf (index x y z) = z := by
  apply Fin.ext
  simp only [zOf, index_div, mul_add_mod', mod_eq_of_lt z.isLt]

theorem yOf_index : yOf (index x y z) = y := by
  have hd : 0 < d := Nat.zero_lt_of_lt x.isLt
  apply Fin.ext
  simp only [yOf]
  rw [← Nat.div_div_eq_div_mul, index_div, Nat.mul_comm _ d, Nat.mul_add_div hd,
    Nat.div_eq_of_lt z.isLt, Nat.add_zero]

theorem index_of : index (xOf i) (yOf i) (zOf i) = i := by
  apply Fin.ext
  simp only [index, xOf, yOf, zOf]
  rw [← Nat.div_div_eq_div_mul, Nat.div_add_mod', Nat.div_add_mod']

variable (cube : Cube V d)

theorem atIndex_index : cube.atIndex (index x y z) = cube y z x := by
  rw [atIndex, xOf_index, yOf_index, zOf_index]

theorem flat_eq_ofFn : cube.flat = List.ofFn cube.atIndex := by
  rw [ofFn_mul, ofFn_mul, flat]
  congr 3
  funext y
  congr 1
  funext z
  congr 1
  funext x
  exact (atIndex_index x y z cube).symm

theorem length_flat : cube.flat.length = d * d * d := by
  rw [flat_eq_ofFn, length_ofFn]

theorem mem_flat {cube : Cube V d} {v : V} : v ∈ cube.flat ↔ ∃ x y z, cube y z x = v := by
  rw [flat_eq_ofFn, mem_ofFn]
  constructor
  · rintro ⟨i, hi⟩
    exact ⟨xOf i, yOf i, zOf i, hi⟩
  · rintro ⟨x, y, z, rfl⟩
    exact ⟨index x y z, atIndex_index x y z cube⟩

theorem flat_any {cube : Cube V d} {p : V → Bool} :
    cube.flat.any p = true ↔ ∃ x y z, p (cube y z x) = true := by
  rw [any_eq_true]
  constructor
  · rintro ⟨v, hv, hp⟩
    obtain ⟨x, y, z, rfl⟩ := mem_flat.mp hv
    exact ⟨x, y, z, hp⟩
  · rintro ⟨x, y, z, hp⟩
    exact ⟨_, mem_flat.mpr ⟨x, y, z, rfl⟩, hp⟩

theorem flat_const (v : V) : (const v : Cube V d).flat = List.replicate (d * d * d) v := by
  rw [flat_eq_ofFn]
  exact ofFn_const _ _

theorem atIndex_set (v : V) (i : Fin (d * d * d)) :
    (cube.set x y z v).atIndex i = if i = index x y z then v else cube.atIndex i := by
  have hiff : i = index x y z ↔ yOf i = y ∧ zOf i = z ∧ xOf i = x := by
    constructor
    · rintro rfl
      exact ⟨yOf_index x y z, zOf_index x y z, xOf_index x y z⟩
    · rintro ⟨rfl, rfl, rfl⟩
      exact (index_of i).symm
  simp only [atIndex, set, hiff]

theorem flat_set (v : V) : (cube.set x y z v).flat = cube.flat.set (index x y z) v := by
  rw [flat_eq_ofFn, flat_eq_ofFn]
  refine ext_getElem (by simp) fun k hk _ => ?_
  rw [List.getElem_ofFn, atIndex_set, getElem_set, List.getElem_ofFn]
  simp only [Fin.ext_iff, eq_comm]

theorem getElem_flat_index : cube.flat[(index x y z : ℕ)]? = some (cube y z x) := by
  rw [flat_eq_ofFn, List.getElem?_ofFn, dif_pos (index x y z).isLt]
  exact congrArg some (atIndex_index x y z cube)

theorem flat_set_perm [DecidableEq V] (cube : Cube V d) (v : V) :
    (cube.set x y z v).flat.Perm ((v :: cube.flat).erase (cube y z x)) := by
  rw [flat_set]
  exact set_perm_erase (getElem_flat_index x y z cube) v

theorem set_self : cube.set x y z (cube y z x) = cube := by
  funext y' z' x'
  simp only [set]
  split
  case isTrue h => obtain ⟨rfl, rfl, rfl⟩ := h; rfl
  case isFalse => rfl

end Cube

namespace PalettedContainer

variable {V : Type} [DecidableEq V] {d : ℕ}

theorem volume_lt (hd : d ≤ 40) : d * d * d + 1 < 2 ^ 16 := by
  have h := Nat.mul_le_mul (Nat.mul_le_mul hd hd) hd
  omega

theorem tallies_countRuns (flat done : List V) (palette : List (V × UInt16))
    (h : Tallies done palette) (hlen : flat.length + done.length < 2 ^ 16) :
    Tallies (flat ++ done) (countRuns flat palette) := by
  induction flat, palette using countRuns.induct generalizing done with
  | case1 palette => simpa only [countRuns, nil_append] using h
  | case2 v flat palette run ih =>
    have hrun : run = List.replicate run.length v :=
      eq_replicate_of_mem fun w hw => by simpa using mem_takeWhile_imp hw
    have hsplit : run ++ flat.dropWhile (· = v) = flat := takeWhile_append_dropWhile
    have hlen' := congrArg List.length hsplit
    rw [length_append] at hlen'
    rw [length_cons] at hlen
    have hn : (UInt16.ofNat (run.length + 1)).toNat = run.length + 1 := by
      rw [UInt16.toNat_ofNat', mod_eq_of_lt (by omega)]
    have hadd := h.add (n := UInt16.ofNat (run.length + 1)) (by omega) (by omega) v
    rw [hn, replicate_succ, ← hrun] at hadd
    rw [countRuns]
    refine (ih _ hadd ?_).perm ?_
    · rw [length_append, length_cons]
      omega
    · calc flat.dropWhile (· = v) ++ (v :: run ++ done)
        _ = flat.dropWhile (· = v) ++ (v :: run) ++ done := (append_assoc ..).symm
        _ |>.Perm <| v :: run ++ flat.dropWhile (· = v) ++ done :=
          (perm_append_comm).append_right done
        _ = v :: flat ++ done := by rw [cons_append, hsplit]

def Represents : PalettedContainer V d → Cube V d → Prop
  | .homogeneous v, cube => cube = .const v
  | .heterogeneous data, cube => data.cube = cube ∧ Tallies cube.flat data.palette ∧
      2 ≤ data.palette.length
  | .building cells, cube => cells = cube

variable {data : HeterogeneousPalette V d} {cube : Cube V d} {c : PalettedContainer V d}

/-- A tally with one entry belongs to a constant cube, so it may be dropped. -/
theorem represents_collapse (hd : 0 < d) (h : Tallies data.cube.flat data.palette) :
    Represents (collapse data) data.cube := by
  obtain ⟨cube, palette⟩ := data
  have hmem : ∀ x y z, ∃ c, (cube y z x, c) ∈ palette := fun x y z =>
    h.complete _ (mem_flat.mpr ⟨x, y, z, rfl⟩)
  match palette with
  | [] =>
    obtain ⟨c, hc⟩ := hmem ⟨0, hd⟩ ⟨0, hd⟩ ⟨0, hd⟩
    simp at hc
  | [(v, k)] =>
    change cube = .const v
    funext y z x
    obtain ⟨c, hc⟩ := hmem x y z
    rw [mem_singleton, Prod.mk.injEq] at hc
    exact hc.1
  | e :: e' :: palette => exact ⟨rfl, h, by simp⟩

theorem represents_fromCube (hd : 0 < d) (hd' : d ≤ 40) (cube : Cube V d) :
    Represents (fromCube cube) cube := by
  have hv := volume_lt hd'
  have ht := tallies_countRuns cube.flat [] [] .nil (by rw [cube.length_flat]; simp; omega)
  rw [append_nil] at ht
  exact represents_collapse hd ht

theorem represents_set (hd' : d ≤ 40) (h : Represents c cube) (x y z : Fin d) (v : V) :
    (c.set x y z v).1 = cube y z x ∧ Represents (c.set x y z v).2 (cube.set x y z v) := by
  have hd : 0 < d := zero_lt_of_lt x.isLt
  have hvol := volume_lt hd'
  cases c with
  | homogeneous w =>
    obtain rfl : cube = .const w := h
    simp only [set]
    by_cases hvw : v = w
    · subst hvw
      rw [if_neg (by simp)]
      exact ⟨rfl, set_self x y z (.const v)⟩
    · rw [if_pos hvw]
      exact ⟨rfl, represents_fromCube hd hd' _⟩
  | heterogeneous data =>
    obtain ⟨rfl, ht, -⟩ := h
    refine ⟨rfl, represents_collapse hd ?_⟩
    have hlen := data.cube.length_flat
    have hone : (1 : UInt16).toNat = 1 := rfl
    have hadd := ht.add (n := 1) (by decide) (by omega) v
    have hsub := hadd.sub (v := data.cube y z x) (by rw [length_append, length_replicate]; omega)
      (mem_append_right _ (mem_flat.mpr ⟨x, y, z, rfl⟩))
    exact hsub.perm (flat_set_perm x y z data.cube v).symm
  | building cells =>
    obtain rfl : cells = cube := h
    exact ⟨rfl, rfl⟩

theorem represents_enterBuildingMode (h : Represents c cube) :
    Represents c.enterBuildingMode cube := by
  cases c with
  | homogeneous v => exact Eq.symm h
  | heterogeneous data => exact h.1
  | building cells => exact h

theorem represents_finalizeBuilding (hd : 0 < d) (hd' : d ≤ 40) (h : Represents c cube) :
    Represents c.finalizeBuilding cube := by
  cases c with
  | homogeneous v => exact h
  | heterogeneous data => exact h
  | building cells =>
    obtain rfl : cells = cube := h
    exact represents_fromCube hd hd' cells

def position (palette : List (V × UInt16)) (v : V) : ℕ := palette.findIdx fun e => e.1 = v

theorem position_spec {flat : List V} {palette : List (V × UInt16)} (ht : Tallies flat palette)
    {v : V} (hv : v ∈ flat) :
    (palette.findIdx? fun e => e.1 = v) = some (position palette v) ∧
      ∃ c, palette[position palette v]? = some (v, c) := by
  obtain ⟨c, hc⟩ := ht.complete v hv
  have hlt : position palette v < palette.length :=
    findIdx_lt_length.mpr ⟨(v, c), hc, by simp⟩
  refine ⟨List.findIdx?_eq_some_iff_findIdx_eq.mpr ⟨hlt, rfl⟩, ?_⟩
  have hp := findIdx_getElem (w := hlt)
  simp only [decide_eq_true_eq] at hp
  refine ⟨palette[position palette v].2, ?_⟩
  rw [List.getElem?_eq_getElem hlt]
  exact congrArg some (Prod.ext hp rfl)

def positions (data : HeterogeneousPalette V d) : List UInt32 :=
  data.cube.flat.map fun v => UInt32.ofNat (position data.palette v)

theorem position_lt (ht : Tallies data.cube.flat data.palette) {v : V} (hv : v ∈ data.cube.flat) :
    position data.palette v < data.palette.length := by
  obtain ⟨c, hc⟩ := (position_spec ht hv).2
  exact (List.getElem?_eq_some_iff.mp hc).1

theorem map_toNat_positions (ht : Tallies data.cube.flat data.palette)
    (hlen : data.palette.length < 2 ^ 32) :
    (positions data).map UInt32.toNat = data.cube.flat.map (position data.palette) := by
  rw [positions, map_map]
  refine map_congr_left fun v hv => ?_
  exact UInt32.toNat_ofNat_of_lt' (lt_trans (position_lt ht hv) hlen)

/-- All ways to look at the container show the cells of the cube. -/
structure Shows (c : PalettedContainer V d) (cube : Cube V d) : Prop where
  get : ∀ x y z, c.get x y z = cube y z x
  getAtIndex : ∀ x y z, c.getAtIndex (Cube.index x y z) = cube y z x
  copyColumnInto : ∀ x z out, d ≤ out.length →
    c.copyColumnInto x z out = some ((List.ofFn fun y => cube y z x) ++ out.drop d)
  collectValues : c.collectValues.length = d * d * d ∧
    ∀ x y z, c.collectValues[(Cube.index x y z : ℕ)]? = some (cube y z x)
  set_fst : ∀ x y z v, (c.set x y z v).1 = cube y z x
  palette : ∀ data, c = .heterogeneous data →
    Tallies cube.flat data.palette ∧ 2 ≤ data.palette.length
  maybeHas : ∀ p, c.maybeHas p = true ↔ ∃ x y z, p (cube y z x) = true
  countWhere : ∀ p, (c.countWhere p).toNat = cube.flat.countP p

section

variable (h : Represents c cube)

include h

theorem collectValues_eq : c.collectValues = cube.flat := by
  cases c with
  | homogeneous v => rw [show cube = .const v from h, flat_const]; rfl
  | heterogeneous data => rw [← h.1]; rfl
  | building cells => rw [show cells = cube from h]; rfl

theorem get_eq (x y z : Fin d) : c.get x y z = cube y z x := by
  cases c with
  | homogeneous v => rw [show cube = .const v from h]; rfl
  | heterogeneous data => rw [← h.1]; rfl
  | building cells => rw [show cells = cube from h]; rfl

theorem getAtIndex_eq (i : Fin (d * d * d)) :
    c.getAtIndex i = cube.atIndex i := by
  cases c with
  | homogeneous v => rw [show cube = .const v from h]; rfl
  | heterogeneous data => rw [← h.1]; rfl
  | building cells => rw [show cells = cube from h]; rfl

theorem copyColumnInto_eq (x z : Fin d) {out : List V} (hout : d ≤ out.length) :
    c.copyColumnInto x z out = some ((List.ofFn fun y => cube y z x) ++ out.drop d) := by
  unfold copyColumnInto
  rw [if_neg (not_lt.mpr hout)]
  cases c with
  | homogeneous v =>
    rw [show cube = .const v from h]
    simp [const, ofFn_const]
  | heterogeneous data => rw [← h.1]
  | building cells => rw [show cells = cube from h]

end

theorem maybeHas_iff (hd : 0 < d) (h : Represents c cube) (p : V → Bool) :
    c.maybeHas p = true ↔ ∃ x y z, p (cube y z x) = true := by
  cases c with
  | homogeneous v =>
    rw [show cube = .const v from h]
    exact ⟨fun hp => ⟨⟨0, hd⟩, ⟨0, hd⟩, ⟨0, hd⟩, hp⟩, fun ⟨_, _, _, hp⟩ => hp⟩
  | heterogeneous data =>
    obtain ⟨rfl, ht, -⟩ := h
    rw [← flat_any, any_eq_true]
    simp only [maybeHas, any_eq_true]
    constructor
    · rintro ⟨e, he, hp⟩
      exact ⟨e.1, ht.mem_fst_iff.mp (mem_map.mpr ⟨e, he, rfl⟩), hp⟩
    · rintro ⟨v, hv, hp⟩
      obtain ⟨c, hc⟩ := ht.complete v hv
      exact ⟨(v, c), hc, hp⟩
  | building cells =>
    obtain rfl : cells = cube := h
    exact flat_any

theorem toNat_countWhere (hd' : d ≤ 40) (h : Represents c cube) (p : V → Bool) :
    (c.countWhere p).toNat = cube.flat.countP p := by
  have hvol := volume_lt hd'
  have hlen := cube.length_flat
  cases c with
  | homogeneous v =>
    rw [show cube = .const v from h, flat_const, countP_replicate]
    simp only [countWhere]
    split
    · rw [UInt16.toNat_ofNat', mod_eq_of_lt (by omega)]
    · rfl
  | heterogeneous data =>
    obtain ⟨rfl, ht, -⟩ := h
    have hsum := ht.foldl_add p 0 (by simp; omega)
    rwa [show (0 : UInt16).toNat = 0 from rfl, zero_add] at hsum
  | building cells =>
    obtain rfl : cells = cube := h
    have hsum := Tally.foldl_count p cells.flat 0 (by simp; omega)
    rwa [show (0 : UInt16).toNat = 0 from rfl, zero_add] at hsum

theorem Represents.shows (hd : 0 < d) (hd' : d ≤ 40) (h : Represents c cube) : Shows c cube where
  get := get_eq h
  getAtIndex x y z := (getAtIndex_eq h _).trans (atIndex_index x y z cube)
  copyColumnInto x z _ := copyColumnInto_eq h x z
  collectValues := by
    rw [collectValues_eq h]
    exact ⟨cube.length_flat, fun x y z => getElem_flat_index x y z cube⟩
  set_fst x y z v := (represents_set hd' h x y z v).1
  palette := by
    rintro data rfl
    exact h.2
  maybeHas := maybeHas_iff hd h
  countWhere := toNat_countWhere hd' h

/-- A write, or a change between the paletted and the building representation. -/
inductive Op (V : Type) (d : ℕ) where
  | set (x y z : Fin d) (value : V)
  | enterBuildingMode
  | finalizeBuilding

def Op.step (c : PalettedContainer V d) : Op V d → PalettedContainer V d
  | .set x y z value => (c.set x y z value).2
  | .enterBuildingMode => c.enterBuildingMode
  | .finalizeBuilding => c.finalizeBuilding

def Op.write (cube : Cube V d) : Op V d → Cube V d
  | .set x y z value => cube.set x y z value
  | _ => cube

/-- The container is freshly made from a single value or from a cube. -/
def Fresh (c : PalettedContainer V d) (cube : Cube V d) : Prop :=
  (∃ v, c = .homogeneous v ∧ cube = .const v) ∨ c = fromCube cube

theorem Represents.step (hd : 0 < d) (hd' : d ≤ 40) (h : Represents c cube) (op : Op V d) :
    Represents (op.step c) (op.write cube) := by
  cases op with
  | set x y z v => exact (represents_set hd' h x y z v).2
  | enterBuildingMode => exact represents_enterBuildingMode h
  | finalizeBuilding => exact represents_finalizeBuilding hd hd' h

/-- Containers of one to forty cells a side show the last written values after every
sequence of operations. -/
theorem shows_last_written (hd : 1 ≤ d) (hd' : d ≤ 40) (c : PalettedContainer V d)
    (cube : Cube V d) (hc : Fresh c cube) (ops : List (Op V d)) :
    Shows (runSteps Op.step c ops) (runSteps Op.write cube ops) := by
  have hstart : Represents c cube := by
    rcases hc with ⟨v, rfl, rfl⟩ | rfl
    · rfl
    · exact represents_fromCube hd hd' cube
  have hrun : Guarded Op.step (fun _ _ => True) c ops := guarded_of_forall fun _ _ _ => trivial
  have hend : Represents (runSteps Op.step c ops) (runSteps Op.write cube ops) :=
    Guarded.simulation (fun _ _ op h _ => h.step hd hd' op) hrun hstart
  exact hend.shows hd hd'

theorem shows_last_written_block : Shows (runSteps Op.step (.homogeneous 0 : BlockPalette)
        [.set 3 4 5 99, .enterBuildingMode, .set 3 4 5 7, .finalizeBuilding])
      (runSteps Op.write (.const 0)
        [.set 3 4 5 99, .enterBuildingMode, .set 3 4 5 7, .finalizeBuilding]) :=
  shows_last_written (by decide) (by decide) _ _ (.inl ⟨0, rfl, rfl⟩) _

theorem fromCube_ne_building (cube cells : Cube V d) : fromCube cube ≠ .building cells := by
  unfold fromCube collapse
  split <;> simp

theorem finalizeBuilding_ne_building (c : PalettedContainer V d) (cells : Cube V d) :
    c.finalizeBuilding ≠ .building cells := by
  cases c with
  | homogeneous v => rintro ⟨⟩
  | heterogeneous data => rintro ⟨⟩
  | building cube => exact fromCube_ne_building cube cells

theorem set_ne_building (h : ∀ cells, c ≠ .building cells) (x y z : Fin d) (v : V)
    (cells : Cube V d) : (c.set x y z v).2 ≠ .building cells := by
  cases c with
  | homogeneous w =>
    simp only [set]
    split
    · exact fromCube_ne_building _ cells
    · rintro ⟨⟩
  | heterogeneous data =>
    simp only [set, collapse]
    split <;> rintro ⟨⟩
  | building cube => exact absurd rfl (h cube)

def nearlyConst (d : ℕ) (hd : 0 < d) : Cube UInt16 d :=
  (const 0).set ⟨0, hd⟩ ⟨0, hd⟩ ⟨0, hd⟩ 1

/-- If the zeros do not fit a 16-bit count, neither representation is possible. -/
theorem not_shows_nearlyConst {d : ℕ} (hd : 0 < d) (hd' : 2 ^ 16 < d * d * d) :
    ¬ Shows (fromCube (nearlyConst d hd)) (nearlyConst d hd) := by
  intro h
  have hcount : (nearlyConst d hd).flat.count 0 = d * d * d - 1 := by
    rw [nearlyConst, (flat_set_perm _ _ _ _ _).count_eq, flat_const]
    simp [const]
  cases hc : fromCube (nearlyConst d hd) with
  | homogeneous v =>
    have hd₁ : 1 < d := by
      by_contra hle
      obtain rfl : d = 1 := by omega
      omega
    have hget := h.get
    rw [hc] at hget
    have h₁ : v = 1 := hget ⟨0, hd⟩ ⟨0, hd⟩ ⟨0, hd⟩
    have h₀ : v = 0 :=
      (hget ⟨1, hd₁⟩ ⟨0, hd⟩ ⟨0, hd⟩).trans (by simp [nearlyConst, Cube.set, const])
    rw [h₁] at h₀
    exact absurd h₀ (by decide)
  | heterogeneous data =>
    obtain ⟨ht, -⟩ := h.palette data hc
    obtain ⟨c, he⟩ := ht.complete 0 (count_pos_iff.mp (by omega))
    have hc := ((ht.mem_iff _ _).mp he).2
    have hlt := c.toNat_lt
    omega
  | building cells => exact fromCube_ne_building _ _ hc

/-- Forty-one cells a side overflow the counts, and a container without cells is stored with
an empty palette. -/
theorem not_shows_extreme_sizes :
    ¬ Shows (fromCube (nearlyConst 41 (by decide))) (nearlyConst 41 (by decide)) ∧
      ¬ Shows (fromCube (const 0 : Cube UInt16 0)) (const 0) := by
  refine ⟨not_shows_nearlyConst _ (by decide), fun h => ?_⟩
  have hc : fromCube (const 0 : Cube UInt16 0) = .heterogeneous ⟨const 0, []⟩ := by
    simp [fromCube, flat, countRuns, collapse]
  have hlen := (h.palette _ hc).2
  simp at hlen

end PalettedContainer

end Steel
