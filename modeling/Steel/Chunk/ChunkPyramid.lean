import Mathlib.Tactic.Common

/-! # Dependencies of chunk generation

Each step of generation needs neighbours of certain statuses within certain distances.
-/

namespace Steel

/-- The generation stage a chunk has reached. -/
inductive ChunkStatus where
  | empty | structureStarts | structureReferences | biomes | noise | surface
  | carvers | features | initializeLight | light | spawn | full
  deriving DecidableEq

namespace ChunkStatus

def getIndex : ChunkStatus → ℕ
  | empty => 0
  | structureStarts => 1
  | structureReferences => 2
  | biomes => 3
  | noise => 4
  | surface => 5
  | carvers => 6
  | features => 7
  | initializeLight => 8
  | light => 9
  | spawn => 10
  | full => 11

def fromIndex : ℕ → Option ChunkStatus
  | 0 => some empty
  | 1 => some structureStarts
  | 2 => some structureReferences
  | 3 => some biomes
  | 4 => some noise
  | 5 => some surface
  | 6 => some carvers
  | 7 => some features
  | 8 => some initializeLight
  | 9 => some light
  | 10 => some spawn
  | 11 => some full
  | _ => none

theorem getIndex_lt (s : ChunkStatus) : s.getIndex < 256 := by cases s <;> decide

@[simp] theorem fromIndex_getIndex (s : ChunkStatus) : fromIndex s.getIndex = some s := by
  cases s <;> rfl

end ChunkStatus

def maxRadius : ℕ := 16

/-- The dependency at each distance. -/
structure ChunkDependencies where
  dependencyByRadius : List (Option ChunkStatus)
  deriving DecidableEq

namespace ChunkDependencies

/-- The last distance at which a dependency is at least the given status, or 0. -/
def lastRadius (status : ChunkStatus) (dependencies : List (Option ChunkStatus)) : ℕ :=
  dependencies.zipIdx.foldl (fun radius e =>
    match e.1 with
    | some dependency => if status.getIndex ≤ dependency.getIndex then e.2 else radius
    | none => radius) 0

/-- Extend the list up to the radius of a requirement and raise lower entries to its status. -/
def require (dependencies : List (Option ChunkStatus)) (requirement : ChunkStatus × ℕ) :
    List (Option ChunkStatus) :=
  let (status, radius) := requirement
  let extended :=
    dependencies ++ List.replicate (radius + 1 - dependencies.length) (some status)
  extended.zipIdx.map fun e =>
    match e.1 with
    | some existing =>
      if e.2 < radius + 1 ∧ existing.getIndex < status.getIndex then some status else e.1
    | none => none

def fromRequirements (requirements : List (ChunkStatus × ℕ)) (parentStatus : Option ChunkStatus) :
    ChunkDependencies :=
  ⟨requirements.foldl require (parentStatus.map some).toList⟩

def maxStatus : Option ChunkStatus → Option ChunkStatus → Option ChunkStatus
  | some a, some b => if b.getIndex < a.getIndex then some a else some b
  | some a, none => some a
  | none, b => b

/-- Merge with the accumulated dependencies of the parent. -/
def accumulate (direct parentAccumulated : ChunkDependencies) (parentStatus : ChunkStatus) :
    ChunkDependencies :=
  let radiusOfParent := lastRadius parentStatus direct.dependencyByRadius
  let length := max (radiusOfParent + parentAccumulated.dependencyByRadius.length)
    direct.dependencyByRadius.length
  ⟨(List.range (min length maxRadius)).map fun distance =>
    maxStatus (direct.dependencyByRadius.getD distance none)
      (parentAccumulated.dependencyByRadius.getD (distance - radiusOfParent) none)⟩

variable (dependencies : ChunkDependencies)

def getRadiusOf (status : ChunkStatus) : ℕ :=
  lastRadius status dependencies.dependencyByRadius

def get (distance : ℕ) : Option ChunkStatus :=
  dependencies.dependencyByRadius.getD distance none

end ChunkDependencies

structure ChunkStep where
  targetStatus : ChunkStatus
  directDependencies : ChunkDependencies
  accumulatedDependencies : ChunkDependencies
  deriving DecidableEq

def ChunkStep.add (steps : List ChunkStep) (step : ChunkStatus × List (ChunkStatus × ℕ)) :
    List ChunkStep :=
  let (status, requirements) := step
  match steps.getLast? with
  | none =>
    let direct := ChunkDependencies.fromRequirements requirements none
    steps ++ [⟨status, direct, direct⟩]
  | some parent =>
    let direct := ChunkDependencies.fromRequirements requirements (some parent.targetStatus)
    steps ++ [⟨status, direct,
      direct.accumulate parent.accumulatedDependencies parent.targetStatus⟩]

/-- `GENERATION_PYRAMID`. -/
def generationPyramid : List ChunkStep :=
  [(.empty, []), (.structureStarts, []), (.structureReferences, [(.structureStarts, 8)]),
    (.biomes, [(.structureStarts, 8)]), (.noise, [(.structureStarts, 8), (.biomes, 1)]),
    (.surface, [(.structureStarts, 8), (.biomes, 1)]), (.carvers, [(.structureStarts, 8)]),
    (.features, [(.structureStarts, 8), (.carvers, 1)]), (.initializeLight, []),
    (.light, [(.initializeLight, 1)]), (.spawn, [(.biomes, 1)]), (.full, [])].foldl ChunkStep.add []

/-- `get_step_to(ChunkStatus::Full).accumulated_dependencies`. -/
def fullDependencies : ChunkDependencies :=
  ((generationPyramid[ChunkStatus.full.getIndex]?).map
    ChunkStep.accumulatedDependencies).getD ⟨[]⟩

end Steel
