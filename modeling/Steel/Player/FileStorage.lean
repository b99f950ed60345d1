import Steel.Lib.FaultyFiles
import Steel.Utils.Uuid

/-! # The files of the players

A file is replaced by way of a temporary file that is renamed over it, after a copy of the file has
become its backup. The names of these files are apart.
-/

namespace Steel

/-- The path of a file in a directory. -/
structure PathBuf where
  parent : List String
  fileName : String
  deriving DecidableEq

/-- A name is split at its last dot, unless the name begins with it. -/
def rsplitFileAtDot (name : String) : String × Option String :=
  let reversed := name.toList.reverse
  match reversed.dropWhile (· ≠ '.') with
  | _ :: before =>
    if before.isEmpty then (name, none)
    else (String.ofList before.reverse,
      some (String.ofList (reversed.takeWhile (· ≠ '.')).reverse))
  | [] => (name, none)

def PathBuf.extension (path : PathBuf) : Option String := (rsplitFileAtDot path.fileName).2

def PathBuf.withExtension (path : PathBuf) (extension : String) : PathBuf :=
  { path with fileName := (rsplitFileAtDot path.fileName).1 ++ "." ++ extension }

def atomicTempPath (path : PathBuf) : PathBuf :=
  path.withExtension (match path.extension with
    | some extension => extension ++ ".tmp"
    | none => "tmp")

def atomicBackupPath (path : PathBuf) : PathBuf :=
  path.withExtension (match path.extension with
    | some extension => extension ++ "_old"
    | none => "old")

section PathConstructors

variable (saveRoot : List String)

def globalDir : List String := saveRoot ++ ["global"]

def globalPlayersDir : List String := globalDir saveRoot ++ ["players"]

def playerPermissionsFile : PathBuf := ⟨globalDir saveRoot, "player_permissions.toml"⟩

def knownPlayersFile : PathBuf := ⟨globalDir saveRoot, "known_players.dat"⟩

def domainPlayersDir (domain : String) : List String := saveRoot ++ [domain] ++ ["players"]

def playerDataFile (playersDir : List String) (uuid : Uuid) : PathBuf :=
  ⟨playersDir ++ ["data"], uuid.hyphenated⟩

def playerStatsFile (playersDir : List String) (uuid : Uuid) : PathBuf :=
  ⟨playersDir ++ ["stats"], uuid.hyphenated ++ ".toml"⟩

/-- The files that are replaced atomically. -/
inductive PlayerFile where
  | globalData (uuid : Uuid)
  | domainData (domain : String) (uuid : Uuid)
  | domainStats (domain : String) (uuid : Uuid)
  | permissions
  | knownPlayers

def PlayerFile.path : PlayerFile → PathBuf
  | .globalData uuid => playerDataFile (globalPlayersDir saveRoot) uuid
  | .domainData domain uuid => playerDataFile (domainPlayersDir saveRoot domain) uuid
  | .domainStats domain uuid => playerStatsFile (domainPlayersDir saveRoot domain) uuid
  | .permissions => playerPermissionsFile saveRoot
  | .knownPlayers => knownPlayersFile saveRoot

end PathConstructors

abbrev StorageProgram := FileProgram PathBuf

open FileProgram

def writeSyncedFile (path : PathBuf) (bytes : List UInt8) : StorageProgram Unit := do
  operation (.create path)
  operation (.write path bytes)
  operation (.sync path)

def copySyncedFile (source destination : PathBuf) : StorageProgram Unit := do
  let content ← read source
  operation (.create destination)
  operation (.write destination content)
  operation (.sync destination)

def syncParent : StorageProgram Unit := operation .syncDirectory

variable (finalPath : PathBuf)

def writeAtomicPathLocked (bytes : List UInt8) : StorageProgram Unit := do
  operation .createDirAll
  let tempPath := atomicTempPath finalPath
  let backupPath := atomicBackupPath finalPath
  let backupTempPath := atomicTempPath backupPath
  writeSyncedFile tempPath bytes
  let finalExists ← tryExists finalPath
  if finalExists then
    copySyncedFile finalPath backupTempPath
    operation (.rename backupTempPath backupPath)
  operation (.rename tempPath finalPath)
  -- a failure of the last step is only logged
  let _ ← attempt syncParent
  pure ()

def recoverMissingAtomicPathLocked : StorageProgram Bool := do
  let finalExists ← tryExists finalPath
  if finalExists then pure true
  else
    let backupPath := atomicBackupPath finalPath
    let tempPath := atomicTempPath finalPath
    let backupExists ← tryExists backupPath
    if backupExists then
      operation (.rename backupPath finalPath)
      syncParent
      let tempExists ← tryExists tempPath
      if tempExists then
        let _ ← attempt (operation (.remove tempPath))
      pure true
    else
      let tempExists ← tryExists tempPath
      if tempExists then
        let _ ← attempt (operation (.remove tempPath))
      pure false

def loadPathLocked : StorageProgram (Option (List UInt8)) := do
  let recovered ← recoverMissingAtomicPathLocked finalPath
  if recovered then
    let bytes ← read finalPath
    pure (some bytes)
  else pure none

inductive StorageCall where
  | write (bytes : List UInt8)
  | load
  deriving DecidableEq

/-- A call with the operations that it has done and with what it came to. A write has no answer. -/
structure CallRecord where
  call : StorageCall
  operations : List (FileOperation PathBuf)
  result : Outcome (Option (List UInt8))
  deriving DecidableEq

def StorageCall.program : StorageCall → StorageProgram (Option (List UInt8))
  | .write bytes => do
    writeAtomicPathLocked finalPath bytes
    pure none
  | .load => loadPathLocked finalPath

open List String PathBuf

/-- The files that belong to a file. -/
inductive DerivedFile where
  | temp
  | backup
  | backupTemp
  deriving DecidableEq

def DerivedFile.path : DerivedFile → PathBuf → PathBuf
  | .temp, path => atomicTempPath path
  | .backup, path => atomicBackupPath path
  | .backupTemp, path => atomicTempPath (atomicBackupPath path)

/-- What follows the first dot in the names of the files of the players. -/
inductive FileEnding where
  | none
  | toml
  | dat
  deriving DecidableEq

def FileEnding.text : FileEnding → String
  | .none => ""
  | .toml => ".toml"
  | .dat => ".dat"

def FileEnding.derived : FileEnding → DerivedFile → String
  | ending, .temp => ending.text ++ ".tmp"
  | .none, .backup => ".old"
  | ending, .backup => ending.text ++ "_old"
  | .none, .backupTemp => ".old.tmp"
  | ending, .backupTemp => ending.text ++ "_old.tmp"

def PlayerFile.ending : PlayerFile → FileEnding
  | .globalData _ | .domainData _ _ => .none
  | .domainStats _ _ | .permissions => .toml
  | .knownPlayers => .dat

section Names

variable {path : PathBuf} {stem : String} {ending : FileEnding}

end Names

end Steel
