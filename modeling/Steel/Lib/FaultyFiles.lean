import Mathlib.Data.List.Basic

/-! # File operations that may fail

A program changes files by operations of which each may fail, and a crash may end the program at
each of them.
-/

namespace Steel

open Function (update)

abbrev Files (P : Type*) := P → Option (List UInt8)

inductive FileOperation (P : Type*) where
  | createDirAll
  | create (path : P)
  | write (path : P) (bytes : List UInt8)
  | sync (path : P)
  | syncDirectory
  | rename (source destination : P)
  | remove (path : P)
  deriving DecidableEq

/-- What may befall an operation, with the number of bytes of a file under way that are kept. -/
inductive Fault where
  | error (kept : ℕ)
  | crash (kept : ℕ)

/-- What a program comes to. After a failure the caller goes on, after a crash nobody does. -/
inductive Outcome (α : Type*) where
  | done (value : α)
  | failed
  | crashed
  deriving DecidableEq

/-- The faults say in advance what befalls the operations. Those that succeed are recorded. -/
structure FileWorld (P : Type*) where
  files : Files P
  faults : List (Option Fault)
  operations : List (FileOperation P)

section Operations

variable {P : Type*} [DecidableEq P]

/-- The files after an operation that succeeds, if it can. -/
def FileOperation.apply : FileOperation P → Files P → Option (Files P)
  | .createDirAll, files | .syncDirectory, files | .sync _, files => some files
  | .create path, files => some (update files path (some []))
  | .write path bytes, files =>
    (files path).map fun content => update files path (some (content ++ bytes))
  | .rename source destination, files =>
    (files source).map fun content =>
      update (update files source none) destination (some content)
  | .remove path, files => (files path).map fun _ => update files path none

def FileOperation.torn (kept : ℕ) : FileOperation P → Files P → Files P
  | .write path bytes, files =>
    update files path ((files path).map fun content => content ++ bytes.take kept)
  | .sync path, files =>
    update files path ((files path).map fun content => content.take kept)
  | _, files => files

end Operations

universe u v

def FileProgram (P : Type u) (α : Type v) := FileWorld P → Outcome α × FileWorld P

namespace FileProgram

variable {P : Type u} {α β : Type v}

instance : Monad (FileProgram P) where
  pure a := fun world => (.done a, world)
  bind m f := fun world =>
    match m world with
    | (.done a, world) => f a world
    | (.failed, world) => (.failed, world)
    | (.crashed, world) => (.crashed, world)

def guarded (torn : ℕ → Files P → Files P) (act : FileProgram P α) : FileProgram P α :=
  fun world =>
    match world.faults with
    | some (.error kept) :: faults =>
      (.failed, { world with files := torn kept world.files, faults := faults })
    | some (.crash kept) :: faults =>
      (.crashed, { world with files := torn kept world.files, faults := faults })
    | faults => act { world with faults := faults.tail }

def operation [DecidableEq P] (op : FileOperation P) : FileProgram P Unit :=
  guarded op.torn fun world =>
    match op.apply world.files with
    | none => (.failed, world)
    | some files =>
      (.done (), { world with files := files, operations := world.operations ++ [op] })

def tryExists (path : P) : FileProgram P Bool :=
  guarded (fun _ files => files) fun world => (.done (world.files path).isSome, world)

def read (path : P) : FileProgram P (List UInt8) :=
  guarded (fun _ files => files) fun world =>
    match world.files path with
    | none => (.failed, world)
    | some bytes => (.done bytes, world)

def attempt (m : FileProgram P Unit) : FileProgram P Bool := fun world =>
  match m world with
  | (.done _, world) => (.done true, world)
  | (.failed, world) => (.done false, world)
  | (.crashed, world) => (.crashed, world)

/-- What holds of the files and of the operations done so far. -/
abbrev Assertion (P : Type*) := Files P → List (FileOperation P) → Prop

/-- The answer satisfies `post`, or the program has stopped where `stop` holds. -/
def Reaches (post : α → Assertion P) (stop : Assertion P) : Outcome α × FileWorld P → Prop
  | (.done a, world) => post a world.files world.operations
  | (.failed, world) => stop world.files world.operations
  | (.crashed, world) => stop world.files world.operations

/-- From each world where `pre` holds the program leads to one where `post` holds of its answer, or
stops in one where `stop` holds, whatever the faults are. -/
def Meets (m : FileProgram P α) (pre : Assertion P) (post : α → Assertion P)
    (stop : Assertion P) : Prop :=
  ∀ world, pre world.files world.operations → Reaches post stop (m world)

variable {m : FileProgram P α} {f : α → FileProgram P β} {pre pre' stop stop' : Assertion P}
  {post post' : α → Assertion P} {last : β → Assertion P}

theorem Meets.bind {q : α → Assertion P} (hm : m.Meets pre q stop)
    (hf : ∀ a, (f a).Meets (q a) last stop) : (m >>= f).Meets pre last stop := by
  intro world hpre
  have hfirst := hm world hpre
  show Reaches last stop (match m world with
    | (.done a, world) => f a world
    | (.failed, world) => (.failed, world)
    | (.crashed, world) => (.crashed, world))
  generalize m world = result at hfirst ⊢
  rcases result with ⟨_ | _ | _, world'⟩
  · exact hf _ world' hfirst
  · exact hfirst
  · exact hfirst

theorem Meets.imp (hm : m.Meets pre post stop)
    (hpre : ∀ files operations, pre' files operations → pre files operations)
    (hpost : ∀ a files operations, post a files operations → post' a files operations)
    (hstop : ∀ files operations, stop files operations → stop' files operations) :
    m.Meets pre' post' stop' := by
  intro world h
  have hrun := hm world (hpre _ _ h)
  generalize m world = result at hrun ⊢
  rcases result with ⟨_ | _ | _, world'⟩
  · exact hpost _ _ _ hrun
  · exact hstop _ _ hrun
  · exact hstop _ _ hrun

variable {post : Bool → Assertion P}

theorem Meets.attempt {m : FileProgram P Unit} (hm : m.Meets pre (fun _ => post true)
      fun files operations => post false files operations ∧ stop files operations) :
    m.attempt.Meets pre post stop := by
  intro world hpre
  have hrun := hm world hpre
  unfold FileProgram.attempt
  generalize m world = result at hrun ⊢
  rcases result with ⟨_ | _ | _, world'⟩
  · exact hrun
  · exact hrun.1
  · exact hrun.2

end FileProgram

end Steel
