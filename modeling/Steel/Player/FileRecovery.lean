import Steel.Player.FileStorage

/-! # Files survive crashes

The committed bytes of a file are in the file itself or, while it is missing, in its backup.
-/

namespace Steel

open FileProgram List Function Option Meets StorageCall PathBuf

section Paths

variable (path : PathBuf)

end Paths

/-- An assertion that neither the content of a path nor operations other than one can change. -/
structure Framed (keep : Assertion PathBuf) (path : PathBuf) (commit : FileOperation PathBuf) :
    Prop where
  update : ∀ files operations content, keep files operations →
    keep (Function.update files path content) operations
  append : ∀ files operations op, op ≠ commit → keep files operations →
    keep files (operations ++ [op])

variable {keep : Assertion PathBuf}

variable {path : PathBuf} {version : Option (List UInt8)} {bytes : List UInt8}

def committed (path : PathBuf) (files : Files PathBuf) : Option (List UInt8) :=
  (files path).or (files (atomicBackupPath path))

def commitOperation (path : PathBuf) : FileOperation PathBuf := .rename (atomicTempPath path) path

def Before (path : PathBuf) (version : Option (List UInt8)) : Assertion PathBuf :=
  fun files operations => committed path files = version ∧ commitOperation path ∉ operations

def After (path : PathBuf) (bytes : List UInt8) : Assertion PathBuf :=
  fun files operations => committed path files = some bytes ∧ commitOperation path ∈ operations

variable {other : PathBuf}

variable {operations : List (FileOperation PathBuf)}

/-- While the backup is made, the temporary file is complete and the file is there. -/
def Staged (path : PathBuf) (bytes content : List UInt8) : Assertion PathBuf :=
  fun files operations => files path = some content ∧ files (atomicTempPath path) = some bytes ∧
    commitOperation path ∉ operations

theorem Staged.before {content : List UInt8} {files : Files PathBuf}
    (h : Staged path bytes content files operations) :
    Before path (some content) files operations := by
  refine ⟨?_, h.2.2⟩
  rw [committed, h.1, some_or]

/-- The temporary file is complete, and the file may be there. -/
def Written (path : PathBuf) (version : Option (List UInt8)) (bytes : List UInt8) :
    Assertion PathBuf :=
  fun files operations => Before path version files operations ∧
    files (atomicTempPath path) = some bytes

def CallRecord.committed (path : PathBuf) (record : CallRecord) : Option (List UInt8) :=
  match record.call with
  | .write bytes => if commitOperation path ∈ record.operations then some bytes else none
  | .load => none

end Steel
