import Mathlib.Data.List.OfFn
import Mathlib.Tactic.Ring
import Steel.Lib.Tally

/-! # Paletted containers

A container of `d × d × d` cells is stored as one value, as a cube with a
palette that counts the occurrences of each value, or, while a chunk is being
generated, as a bare cube.
-/

namespace Steel

/-- `[[[V; DIM]; DIM]; DIM]`, indexed by y, z, x. -/
def Cube (V : Type) (d : ℕ) := Fin d → Fin d → Fin d → V

namespace Cube

variable {V : Type} {d : ℕ}

/-- `[[[value; DIM]; DIM]; DIM]`. -/
def const (v : V) : Cube V d := fun _ _ _ => v

variable (cube : Cube V d)

/-- `cube[y][z][x] = value`. -/
def set (x y z : Fin d) (v : V) : Cube V d :=
  fun y' z' x' => if y' = y ∧ z' = z ∧ x' = x then v else cube y' z' x'

/-- `cube.iter().flatten().flatten()`, in y, z, x order. -/
def flat : List V :=
  (List.ofFn fun y => List.ofFn fun z => List.ofFn fun x => cube y z x).flatten.flatten

theorem pos_of_index (i : Fin (d * d * d)) : 0 < d := by
  rcases Nat.eq_zero_or_pos d with rfl | h
  · exact absurd i.isLt (by simp)
  · exact h

/-- The coordinates of a linear index `x + z * DIM + y * DIM * DIM`. -/
def yOf (i : Fin (d * d * d)) : Fin d :=
  ⟨i / (d * d), Nat.div_lt_of_lt_mul i.isLt⟩

def zOf (i : Fin (d * d * d)) : Fin d := ⟨i / d % d, Nat.mod_lt _ (pos_of_index i)⟩

def xOf (i : Fin (d * d * d)) : Fin d := ⟨i % d, Nat.mod_lt _ (pos_of_index i)⟩

def atIndex (i : Fin (d * d * d)) : V := cube (yOf i) (zOf i) (xOf i)

end Cube

/-- A cube with its palette of `(value, count)` pairs. -/
structure HeterogeneousPalette (V : Type) (d : ℕ) where
  cube : Cube V d
  palette : List (V × UInt16)

inductive PalettedContainer (V : Type) (d : ℕ) where
  | homogeneous (value : V)
  | heterogeneous (data : HeterogeneousPalette V d)
  | building (cube : Cube V d)

variable {V : Type} [DecidableEq V] {d : ℕ}

/-- Raise the count of the new value, then lower that of the old one. -/
def HeterogeneousPalette.set (data : HeterogeneousPalette V d) (x y z : Fin d) (value : V) :
    V × HeterogeneousPalette V d :=
  let oldValue := data.cube y z x
  let palette := Tally.sub (Tally.add data.palette value 1) oldValue
  (oldValue, ⟨data.cube.set x y z value, palette⟩)

namespace PalettedContainer

/-- The counting loop of `from_cube`: runs of equal cells are counted at once. -/
def countRuns : List V → List (V × UInt16) → List (V × UInt16)
  | [], palette => palette
  | v :: flat, palette =>
    let run := flat.takeWhile (· = v)
    countRuns (flat.dropWhile (· = v)) (Tally.add palette v (UInt16.ofNat (run.length + 1)))
termination_by flat => flat.length
decreasing_by
  exact Nat.lt_succ_of_le (List.dropWhile_sublist _).length_le

/-- A palette with one entry is dropped together with its cube. -/
def collapse (data : HeterogeneousPalette V d) : PalettedContainer V d :=
  match data.palette with
  | [(v, _)] => .homogeneous v
  | _ => .heterogeneous data

def fromCube (cube : Cube V d) : PalettedContainer V d :=
  collapse ⟨cube, countRuns cube.flat []⟩

variable (c : PalettedContainer V d)

def get (x y z : Fin d) : V :=
  match c with
  | .homogeneous value => value
  | .heterogeneous data => data.cube y z x
  | .building cube => cube y z x

def getAtIndex (index : Fin (d * d * d)) : V :=
  match c with
  | .homogeneous value => value
  | .heterogeneous data => data.cube.atIndex index
  | .building cube => cube.atIndex index

/-- Overwrites the first `DIM` slots of `out`; a shorter slice is out of range. -/
def copyColumnInto (x z : Fin d) (out : List V) : Option (List V) :=
  if out.length < d then none
  else
    match c with
    | .homogeneous value => some (List.replicate d value ++ out.drop d)
    | .heterogeneous data => some ((List.ofFn fun y => data.cube y z x) ++ out.drop d)
    | .building cube => some ((List.ofFn fun y => cube y z x) ++ out.drop d)

def maybeHas (predicate : V → Bool) : Bool :=
  match c with
  | .homogeneous value => predicate value
  | .heterogeneous data => data.palette.any fun e => predicate e.1
  | .building cube => cube.flat.any predicate

def collectValues : List V :=
  match c with
  | .homogeneous value => List.replicate (d * d * d) value
  | .heterogeneous data => data.cube.flat
  | .building cube => cube.flat

def enterBuildingMode : PalettedContainer V d :=
  match c with
  | .building cube => .building cube
  | .homogeneous value => .building (Cube.const value)
  | .heterogeneous data => .building data.cube

def finalizeBuilding : PalettedContainer V d :=
  match c with
  | .building cube => fromCube cube
  | c => c

def set (x y z : Fin d) (value : V) : V × PalettedContainer V d :=
  match c with
  | .homogeneous original =>
    if value ≠ original then
      (original, fromCube ((Cube.const original : Cube V d).set x y z value))
    else (original, .homogeneous original)
  | .heterogeneous data =>
    let (original, data) := data.set x y z value
    (original, collapse data)
  | .building cube => (cube y z x, .building (cube.set x y z value))

/-- The number of cells with a property, summed up in 16 bits. -/
def countWhere (p : V → Bool) (c : PalettedContainer V d) : UInt16 :=
  match c with
  | .homogeneous v => if p v then UInt16.ofNat (d * d * d) else 0
  | .heterogeneous data =>
    data.palette.foldl (fun count e => if p e.1 then count + e.2 else count) 0
  | .building cube => cube.flat.foldl (fun count v => if p v then count + 1 else count) 0

end PalettedContainer

abbrev BlockStateId := UInt16

abbrev BlockPalette := PalettedContainer BlockStateId 16

abbrev BiomePalette := PalettedContainer UInt16 4

end Steel
