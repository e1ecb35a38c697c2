import ModernLevelDB.Metadata.LogAndApply
import ModernLevelDB.Wal.WalReader

/-! # `VersionSet::Create` and `VersionSet::Recover`

CURRENT selects a MANIFEST. Its records are edits; recovery folds all of them into one builder and
into the counters, builds the version once at the end, and checks that the counters are there and are
consistent. -/
namespace ModernLevelDB.VersionSet
set_option autoImplicit false

/-! ## The selected MANIFEST -/

def readCurrentContents : (fuel : Nat) → SequentialFile → Bytes → Bytes
  | 0, _, contents => contents
  | fuel + 1, file, contents =>
      let (chunk, file) := file.read 64
      if chunk = [] then contents else readCurrentContents fuel file (contents ++ chunk)

def readCurrent (policy : ReadPolicy) (disk : Disk) : Result Bytes := do
  let file ← openSequential policy disk .current
  return readCurrentContents (file.rest.length + 1) file []

/-- The MANIFEST that CURRENT names. -/
structure SelectedManifest where
  number : Nat
  file : SequentialFile

def openSelectedManifest (policy : ReadPolicy) (disk : Disk) : Result SelectedManifest := do
  let current ← readCurrent policy disk
  let number ← parseCurrentFileContents current
  if fileNumberLimit ≤ number then
    .error (Error.corruption "CURRENT names a MANIFEST beyond the file number limit")
  else match openSequential policy disk (.descriptor number) with
    | .ok file => .ok { number, file }
    | .error error =>
        if error.code = .notFound then
          .error (Error.corruption ("CURRENT names a missing MANIFEST: " ++ error.message))
        else .error error

/-! ## Replaying its records -/

def inManifest (offset : Nat) (error : Error) : Error :=
  Error.corruption ("MANIFEST record at offset " ++ toString offset ++ ": " ++ error.message)

/-- `ManifestRecovery`, with the compact pointers of the set that it recovers. -/
structure ManifestRecovery where
  builder : VersionBuilder ByteKey := VersionBuilder.ofVersion {}
  compactPointers : Level → Option ByteKey := fun _ => none
  nextFile : Option Nat := none
  logNumber : Option Nat := none
  lastSequence : Option Nat := none
  prevLogNumber : Nat := 0
  largestNumber : Nat := 0

namespace ManifestRecovery

def checkComparator (edit : VersionEdit ByteKey) (comparatorName : Bytes) : Status :=
  match edit.comparatorName with
  | none => .ok ()
  | some name =>
      if name ≠ comparatorName then
        .error (Error.invalidArgument ("MANIFEST comparator " ++ asString name ++ " does not match " ++
          asString comparatorName))
      else .ok ()

def includeAddedFileNumbers (recovery : ManifestRecovery) (edit : VersionEdit ByteKey) :
    ManifestRecovery :=
  { recovery with
    largestNumber := edit.newFiles.foldl (fun largest added => max largest added.2.number)
      recovery.largestNumber }

/-- The log number must not decrease. -/
def accumulateLogNumber (recovery : ManifestRecovery) (edit : VersionEdit ByteKey) (offset : Nat) :
    Result ManifestRecovery :=
  match edit.logNumber with
  | none => .ok recovery
  | some number =>
      if recovery.logNumber.any (number < ·) then
        .error (inManifest offset (Error.corruption "log number decreases"))
      else .ok { recovery with logNumber := some number }

/-- What an edit does not set stays. -/
def accumulateSparseCounters (recovery : ManifestRecovery) (edit : VersionEdit ByteKey) :
    ManifestRecovery :=
  { recovery with
    nextFile := edit.nextFileNumber.or recovery.nextFile
    lastSequence := edit.lastSequence.or recovery.lastSequence
    prevLogNumber := edit.prevLogNumber.getD recovery.prevLogNumber }

def accumulateCounters (recovery : ManifestRecovery) (edit : VersionEdit ByteKey) (offset : Nat) :
    Result ManifestRecovery := do
  let recovery ← (recovery.includeAddedFileNumbers edit).accumulateLogNumber edit offset
  let recovery := recovery.accumulateSparseCounters edit
  return { recovery with
    largestNumber := max (max recovery.largestNumber (recovery.logNumber.getD 0))
      recovery.prevLogNumber }

def atRecord {α : Type} (offset : Nat) : Result α → Result α
  | .ok value => .ok value
  | .error error => .error (inManifest offset error)

def applyRecord (comparator : Comparator) (recovery : ManifestRecovery) (record : Bytes)
    (offset : Nat) : Result ManifestRecovery := do
  let edit ← atRecord offset (VersionEdit.decode record)
  checkComparator edit comparator.name
  let builder ← atRecord offset (recovery.builder.apply comparator.internal edit)
  { recovery with
    builder, compactPointers := applyCompactPointerEdits edit recovery.compactPointers
  }.accumulateCounters edit offset

/-- Stops at the first damaged or rejected record. -/
def replay (comparator : Comparator) : ManifestRecovery → List WalReadEvent → Result ManifestRecovery
  | recovery, [] => .ok recovery
  | _, .corruption error _ offset :: _ => .error (inManifest offset error)
  | recovery, .record data offset :: events => do
      let recovery ← recovery.applyRecord comparator data offset
      replay comparator recovery events

/-! ## Finishing -/

/-- `ValidateCounters`, with the next file number, log number and last sequence it found. -/
def validateCounters (recovery : ManifestRecovery) : Result (Nat × Nat × Nat) :=
  match recovery.nextFile with
  | none => .error (Error.corruption "MANIFEST has no next file number")
  | some next =>
    match recovery.logNumber with
    | none => .error (Error.corruption "MANIFEST has no log number")
    | some logNumber =>
      match recovery.lastSequence with
      | none => .error (Error.corruption "MANIFEST has no last sequence")
      | some lastSequence =>
          if fileNumberLimit < next then
            .error (Error.corruption "MANIFEST's next file number is beyond the file number limit")
          else if next ≤ recovery.largestNumber then
            .error (Error.corruption ("MANIFEST names file or log number " ++
              toString recovery.largestNumber ++ ", which is not below its next file number"))
          else .ok (next, logNumber, lastSequence)

/-- The new MANIFEST and the file numbers come behind all numbers in use. -/
def finish (comparator : Comparator) (recovery : ManifestRecovery) (selectedNumber : Nat) :
    Result (VersionSet ByteKey) := do
  let (next, logNumber, lastSequence) ← recovery.validateCounters
  match recovery.builder.build comparator.internal with
  | .error error => .error (Error.corruption ("MANIFEST: " ++ error.message))
  | .ok current =>
      return { current, compactPointers := recovery.compactPointers
               manifestFileNumber := max next (selectedNumber + 1)
               nextFileNumber := max next (selectedNumber + 1) + 1
               lastSequence, logNumber, prevLogNumber := recovery.prevLogNumber }

end ManifestRecovery

/-! ## The two ways to get a version set -/

def manifestEvents (extend : CrcExtend) (file : SequentialFile) : List WalReadEvent :=
  WalReader.events extend (2 * file.rest.length + 1) { file }

def recover (extend : CrcExtend) (comparator : Comparator) (policy : ReadPolicy) (disk : Disk) :
    Result (VersionSet ByteKey) := do
  let selected ← openSelectedManifest policy disk
  let recovery ← ManifestRecovery.replay comparator {} (manifestEvents extend selected.file)
  recovery.finish comparator selected.number

def create (extend : CrcExtend) (comparator : Comparator) (world : World) :
    Outcome (VersionSet ByteKey) × World :=
  match logAndApply extend comparator .checked {} {} world with
  | (.returned (), set, world) => (.returned set, world)
  | (.failed error, _, world) => (.failed error, world)
  | (.threw, _, world) => (.threw, world)

end ModernLevelDB.VersionSet
