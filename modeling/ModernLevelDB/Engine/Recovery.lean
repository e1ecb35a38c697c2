import ModernLevelDB.Engine.Entry
import ModernLevelDB.Format.WriteBatchReader
import ModernLevelDB.Metadata.Recover

/-! # Replaying logs (`engine/recovery.cc`)

An opened database replays the logs that its version set does not cover into memtables, which become
tables of level 0, and goes on with a new log. A memtable is the list of its additions, and a table has
them in the order of internal keys. What building a table file takes, and how much memory a memtable
uses, is decided from outside. -/
namespace ModernLevelDB
set_option autoImplicit false

/-- What a recovery is given. `memoryUsage` is `MemTable::memory_usage` after these additions, and
`writeTable` writes and verifies the table of a number and returns its size. -/
structure RecoveryContext where
  extend : CrcExtend
  comparator : Comparator
  policy : ReadPolicy
  path : FileName → String
  memtableSizeThreshold : Nat
  syncWalCreation : Bool
  memoryUsage : List (Entry Bytes Bytes) → Nat
  writeTable : Nat → List (Entry Bytes Bytes) → Result Nat

/-! ## Selecting the logs -/

/-- The numbers of the tables and of the logs to replay. -/
structure ReplayInputs where
  tables : List Nat := []
  logs : List Nat := []

def collectReplayInputs (names : List Bytes) (currentLog previousLog : Nat) : ReplayInputs :=
  names.foldl (fun inputs name =>
    match parseFileName name with
    | some (.table number) => { inputs with tables := number :: inputs.tables }
    | some (.log number) =>
        if currentLog ≤ number ∨ number = previousLog then
          { inputs with logs := inputs.logs ++ [number] }
        else inputs
    | _ => inputs) {}

namespace RecoveryContext

variable (context : RecoveryContext)

def validateReferencedTableFiles (version : Version ByteKey) (existing : List Nat) : Status :=
  (List.finRange numLevels).forM fun level =>
    (version.files level).forM fun file =>
      if existing.contains file.number then .ok ()
      else .error (Error.corruption ("table file is missing: " ++ context.path (.table file.number)))

def markReplayLogNumbersUsed (versions : VersionSet ByteKey) (logs : List Nat) :
    Result (VersionSet ByteKey) :=
  logs.foldlM (fun versions number =>
    match versions.markFileNumberUsed number with
    | .ok versions => .ok versions
    | .error _ => .error (Error.corruption
        ("log file number is beyond the file number limit: " ++ toString number))) versions

/-- `PrepareLogsForReplay`, for the names in the directory. -/
def prepareLogsForReplay (names : List Bytes) (versions : VersionSet ByteKey) :
    Result (List Nat × VersionSet ByteKey) := do
  let inputs := collectReplayInputs names versions.logNumber versions.prevLogNumber
  context.validateReferencedTableFiles versions.current inputs.tables
  let logs := inputs.logs.mergeSort (fun a b => a ≤ b)
  let versions ← markReplayLogNumbersUsed versions logs
  return (logs, versions)

/-! ## Tables -/

/-- A table that replay has written. -/
structure RecoveryTable where
  metadata : FileMetadata ByteKey
  entries : List (Entry Bytes Bytes)

def iterate (memtable : List (Entry Bytes Bytes)) : List (Entry Bytes Bytes) :=
  memtable.mergeSort (fun a b => (context.comparator.internal a.key b.key).isLE)

/-- `BuildTable`; a memtable without entries has no table. -/
def buildTable (memtable : List (Entry Bytes Bytes)) (number : Nat) : Result (Option RecoveryTable) :=
  match (context.iterate memtable).head?, (context.iterate memtable).getLast? with
  | some smallest, some largest => do
      let fileSize ← context.writeTable number (context.iterate memtable)
      return some ⟨{ number, fileSize, smallest := smallest.key, largest := largest.key },
        context.iterate memtable⟩
  | _, _ => return none

/-! ## Replay -/

/-- `LogReplay`, with the logs that it opened and the tables that it wrote. -/
structure LogReplay where
  versions : VersionSet ByteKey
  edit : VersionEdit ByteKey := {}
  memtable : List (Entry Bytes Bytes) := []
  hasEntries : Bool := false
  lastSequence : Nat := 0
  opened : List Nat := []
  tables : List RecoveryTable := []

def flush (replay : LogReplay) : Result LogReplay :=
  if replay.hasEntries = false then .ok replay
  else
    let (number, versions) := replay.versions.newFileNumber
    match context.buildTable replay.memtable number with
    | .error error => .error error
    -- The access to an empty optional would throw; a memtable with entries has a table.
    | .ok none => .error (Error.aborted "bad optional access")
    | .ok (some table) => .ok { replay with
        versions
        edit := VersionSet.orKeep replay.edit (replay.edit.addFile 0 table.metadata)
        memtable := []
        hasEntries := false
        tables := replay.tables ++ [table] }

def entryOf (entry : WriteBatchEntry) : Entry Bytes Bytes :=
  ⟨⟨entry.key, entry.sequence, entry.kind⟩, entry.value⟩

def applyRecord (replay : LogReplay) (record : Bytes) : Result LogReplay :=
  match WriteBatchReader.openBatch record with
  | .error error =>
      .error (Error.corruption ("log record is not a write batch: " ++ error.message))
  | .ok batch =>
      if batch.sequence ≤ replay.lastSequence then
        .error (Error.corruption ("log record's sequence " ++ toString batch.sequence ++
          " does not follow " ++ toString replay.lastSequence))
      else if batch.count = 0 then .ok { replay with lastSequence := batch.sequence - 1 }
      else
        let replay := { replay with
          memtable := replay.memtable ++ batch.entries.map entryOf
          lastSequence := (batch.sequence + batch.count - 1) % 2 ^ 64
          hasEntries := true }
        if context.memoryUsage replay.memtable > context.memtableSizeThreshold then
          context.flush replay
        else .ok replay

/-- The loop of `ReplayLog`: damage is skipped. -/
def replayEvents (replay : LogReplay) : List WalReadEvent → Result LogReplay
  | [] => .ok replay
  | .corruption _ _ _ :: events => replayEvents replay events
  | .record data _ :: events => do
      let replay ← context.applyRecord replay data
      replayEvents replay events

def replayLog (disk : Disk) (replay : LogReplay) (number : Nat) : Result LogReplay := do
  let file ← openSequential context.policy disk (.log number)
  context.replayEvents { replay with opened := replay.opened ++ [number] }
    (VersionSet.manifestEvents context.extend file)

def replayLogs (disk : Disk) (logs : List Nat) (replay : LogReplay) : Result LogReplay := do
  let replay ← logs.foldlM (context.replayLog disk) replay
  context.flush replay

/-! ## The new log -/

def createRecoveryLog (number : Nat) : FileM WalWriter := do
  perform (.openWritable (.log number))
  let log : WalWriter := { file := .log number }
  if context.syncWalCreation then
    log.sync
    perform .syncDirectory
  return log

/-- The new log. -/
structure RecoveryLog where
  writer : WalWriter
  number : Nat

def installRecoveryLog (versions : VersionSet ByteKey) (edit : VersionEdit ByteKey) (world : World) :
    Outcome (RecoveryLog × VersionSet ByteKey) × World :=
  let (number, versions) := versions.newFileNumber
  match context.createRecoveryLog number world with
  | (.failed error, world) => (.failed error, world)
  | (.threw, world) => (.threw, world)
  | (.returned writer, world) =>
      let edit := (edit.setLogNumber number).setPrevLogNumber 0
      match versions.logAndApply context.extend context.comparator .checked edit world with
      | (.returned (), versions, world) => (.returned (⟨writer, number⟩, versions), world)
      | (.failed error, _, world) => (.failed error, world)
      | (.threw, _, world) => (.threw, world)

/-- What `Recover` hands to the database. -/
structure RecoveredDatabase where
  log : RecoveryLog
  versions : VersionSet ByteKey
  replay : LogReplay

def replayAndInstallLogs (names : List Bytes) (versions : VersionSet ByteKey) (world : World) :
    Outcome RecoveredDatabase × World :=
  match context.prepareLogsForReplay names versions with
  | .error error => (.failed error, world)
  | .ok (logs, versions) =>
      match context.replayLogs world.disk logs { versions } with
      | .error error => (.failed error, world)
      | .ok replay =>
          let versions := replay.versions.setLastSequence
            (max replay.versions.lastSequence replay.lastSequence)
          match context.installRecoveryLog versions replay.edit world with
          | (.returned (log, versions), world) => (.returned { log, versions, replay }, world)
          | (.failed error, world) => (.failed error, world)
          | (.threw, world) => (.threw, world)

end RecoveryContext
end ModernLevelDB
