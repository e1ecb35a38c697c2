import ModernLevelDB.Metadata.Version
import ModernLevelDB.Wal.WalWriter

/-! # The version set (`metadata/version_set.h`)

The current version with the database counters, and the checks and updates that `LogAndApply` makes
on them around its file operations. -/
namespace ModernLevelDB
set_option autoImplicit false

variable {κ : Type*}

/-- File numbers stay below this bound. -/
def fileNumberLimit : Nat := 2 ^ 63

/-- `manifest` is the writer of the MANIFEST that CURRENT names, once there is one. -/
structure VersionSet (κ : Type*) where
  current : Version κ := {}
  compactPointers : Level → Option κ := fun _ => none
  manifestFileNumber : Nat := 1
  nextFileNumber : Nat := 2
  lastSequence : Nat := 0
  logNumber : Nat := 0
  prevLogNumber : Nat := 0
  manifest : Option WalWriter := none
  failure : Option Error := none

namespace VersionSet

/-! ## Counters -/

def newFileNumber (set : VersionSet κ) : Nat × VersionSet κ :=
  (set.nextFileNumber, { set with nextFileNumber := set.nextFileNumber + 1 })

def markFileNumberUsed (set : VersionSet κ) (number : Nat) : Result (VersionSet κ) :=
  if fileNumberLimit ≤ number then
    .error (Error.invalidArgument ("file number " ++ toString number ++
      " is beyond the file number limit"))
  else .ok { set with nextFileNumber := max set.nextFileNumber (number + 1) }

def setLastSequence (set : VersionSet κ) (sequence : Nat) : VersionSet κ :=
  { set with lastSequence := sequence }

/-! ## The checks of an edit -/

def checkFileNumberCapacity (nextFileNumber : Nat) : Status :=
  if fileNumberLimit < nextFileNumber then
    .error (Error.invalidArgument "file numbers are exhausted")
  else .ok ()

def checkComparatorName (name : Option Bytes) (comparatorName : Bytes) : Status :=
  match name with
  | none => .ok ()
  | some name =>
      if name ≠ comparatorName then
        .error (Error.invalidArgument ("edit names comparator " ++ asString name))
      else .ok ()

def checkCurrentLogNumber (edited : Option Nat) (current nextFileNumber : Nat) : Status :=
  let logNumber := edited.getD current
  if logNumber < current ∨ nextFileNumber ≤ logNumber then
    .error (Error.invalidArgument ("edit's log number " ++ toString logNumber ++
      " is below the current one or not below the next file number"))
  else .ok ()

def checkPreviousLogNumber (edited : Option Nat) (nextFileNumber : Nat) : Status :=
  if nextFileNumber ≤ edited.getD 0 then
    .error (Error.invalidArgument "edit's previous log number is not below the next file number")
  else .ok ()

def checkAddedFileNumbers (edit : VersionEdit κ) (nextFileNumber : Nat) : Status :=
  edit.newFiles.forM fun added =>
    if nextFileNumber ≤ added.2.number then
      .error (Error.invalidArgument ("edit adds file " ++ toString added.2.number ++
        ", which is not below the next file number"))
    else .ok ()

def validate (comparatorName : Bytes) (set : VersionSet κ) (edit : VersionEdit κ) : Status := do
  checkFileNumberCapacity set.nextFileNumber
  checkComparatorName edit.comparatorName comparatorName
  checkCurrentLogNumber edit.logNumber set.logNumber set.nextFileNumber
  checkPreviousLogNumber edit.prevLogNumber set.nextFileNumber
  checkAddedFileNumbers edit set.nextFileNumber

/-! ## Preparing and publishing an edit -/

/-- A mutator whose status the source ignores. -/
def orKeep (edit : VersionEdit κ) : Result (VersionEdit κ) → VersionEdit κ
  | .ok changed => changed
  | .error _ => edit

def applyCompactPointerEdits (edit : VersionEdit κ) (pointers : Level → Option κ) :
    Level → Option κ :=
  edit.compactPointers.foldl (fun pointers pointer =>
    fun level => if level = pointer.1 then some pointer.2 else pointers level) pointers

def addSnapshotFiles (snapshot : VersionEdit κ) (level : Level) (files : List (FileMetadata κ)) :
    VersionEdit κ :=
  files.foldl (fun snapshot file => orKeep snapshot (snapshot.addFile level file)) snapshot

def addPresentSnapshotPointer (snapshot : VersionEdit κ) (level : Level) (pointer : Option κ) :
    VersionEdit κ :=
  match pointer with
  | none => snapshot
  | some key => snapshot.addCompactPointer level key

/-- `Snapshot`: the comparator name, the compact pointers, and every file. -/
def snapshot (comparatorName : Bytes) (set : VersionSet κ) : VersionEdit κ :=
  (List.finRange numLevels).foldl (fun snapshot level =>
    addSnapshotFiles (addPresentSnapshotPointer snapshot level (set.compactPointers level)) level
      (set.current.files level)) { comparatorName := some comparatorName }

/-- What `ApplyPrepared` has at hand before it writes. -/
structure Prepared (κ : Type*) where
  edit : VersionEdit κ
  version : Version κ
  logNumber : Nat
  prevLogNumber : Nat
  compactPointers : Level → Option κ
  snapshot : Option (VersionEdit κ)

/-- `ApplyPrepared` up to the write; the edit gets the counters of the set. -/
def prepare (comparatorName : Bytes) (set : VersionSet κ) (edit : VersionEdit κ)
    (version : Version κ) : Prepared κ :=
  let logNumber := edit.logNumber.getD set.logNumber
  let prevLogNumber := edit.prevLogNumber.getD set.prevLogNumber
  let edit := (edit.setLogNumber logNumber).setPrevLogNumber prevLogNumber
  let edit := orKeep edit (edit.setNextFileNumber set.nextFileNumber)
  let edit := orKeep edit (edit.setLastSequence set.lastSequence)
  { edit, version, logNumber, prevLogNumber
    compactPointers := applyCompactPointerEdits edit set.compactPointers
    snapshot := if set.manifest.isNone then some (set.snapshot comparatorName) else none }

/-- `LogAndApply` up to the write, with the overload's way to build the version. -/
def acceptEdit {κ : Type} (comparatorName : Bytes)
    (build : Version κ → VersionEdit κ → Result (Version κ)) (set : VersionSet κ)
    (edit : VersionEdit κ) : Result (Prepared κ) :=
  match set.failure with
  | some error => .error error
  | none => do
      set.validate comparatorName edit
      let version ← build set.current edit
      return set.prepare comparatorName edit version

def publish (set : VersionSet κ) (prepared : Prepared κ) : VersionSet κ :=
  { set with
    compactPointers := prepared.compactPointers
    logNumber := prepared.logNumber
    prevLogNumber := prepared.prevLogNumber
    current := prepared.version }

end VersionSet
end ModernLevelDB
