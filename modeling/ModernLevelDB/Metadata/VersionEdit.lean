import ModernLevelDB.Base.Bytes
import ModernLevelDB.Base.Result
import ModernLevelDB.Format.InternalKey

/-! # Version edits (`metadata/version_edit.h`)

One MANIFEST record: changes to the live table files and to the database counters, over any type of
internal keys. A key value is always a well-formed internal key here, so the mutators' check for a
moved-from key has no counterpart. -/
namespace ModernLevelDB
set_option autoImplicit false

abbrev numLevels : Nat := 7

abbrev Level := Fin numLevels

instance : NeZero numLevels := ⟨by decide⟩

/-- `allowedSeeks` is the runtime seek budget, which the MANIFEST does not record. -/
structure FileMetadata (κ : Type*) where
  number : Nat
  fileSize : Nat
  smallest : κ
  largest : κ
  allowedSeeks : Int := 0
deriving DecidableEq, Repr

/-- A level and a file number, in the order of `std::set<DeletedFile>`. -/
abbrev DeletedFile := Level ×ₗ ℕ

instance : LawfulBEq DeletedFile := inferInstance

def DeletedFile.mk (level : Level) (number : Nat) : DeletedFile := toLex (level, number)
def DeletedFile.level (file : DeletedFile) : Level := (ofLex file).1
def DeletedFile.number (file : DeletedFile) : Nat := (ofLex file).2

theorem no_deleted_sorted : ([] : List DeletedFile).Pairwise (· < ·) := .nil

/-- The deleted files are a set that is listed in order. -/
structure VersionEdit (κ : Type*) where
  comparatorName : Option Bytes := none
  logNumber : Option Nat := none
  prevLogNumber : Option Nat := none
  nextFileNumber : Option Nat := none
  lastSequence : Option Nat := none
  compactPointers : List (Level × κ) := []
  deletedFiles : List DeletedFile := []
  newFiles : List (Level × FileMetadata κ) := []
  deleted_sorted : deletedFiles.Pairwise (· < ·) := by exact no_deleted_sorted

namespace VersionEdit

variable {κ : Type*}

/-- Keeps the set sorted. -/
def insertDeleted (file : DeletedFile) (files : List DeletedFile) : List DeletedFile :=
  if file ∈ files then files else files.orderedInsert (· ≤ ·) file

theorem mem_insertDeleted {d file : DeletedFile} {files : List DeletedFile} :
    d ∈ insertDeleted file files ↔ d = file ∨ d ∈ files := by
  unfold insertDeleted
  split
  · next h =>
    constructor
    · exact .inr
    · rintro (rfl | hd)
      · exact h
      · exact hd
  · rw [List.mem_orderedInsert]

theorem insertDeleted_sorted {file : DeletedFile} {files : List DeletedFile}
    (h : files.Pairwise (· < ·)) : (insertDeleted file files).Pairwise (· < ·) := by
  unfold insertDeleted
  split
  · exact h
  · next hnot =>
    have hle : files.Pairwise (· ≤ ·) := h.imp le_of_lt
    have hsorted := hle.orderedInsert file
    have hnodup : (files.orderedInsert (· ≤ ·) file).Nodup := by
      rw [(List.perm_orderedInsert (· ≤ ·) file files).nodup_iff]
      exact List.nodup_cons.mpr ⟨hnot, h.imp ne_of_lt⟩
    exact (hsorted.and hnodup).imp (fun hab => lt_of_le_of_ne hab.1 hab.2)

def setLogNumber (edit : VersionEdit κ) (number : Nat) : VersionEdit κ :=
  { edit with logNumber := some number }

def setPrevLogNumber (edit : VersionEdit κ) (number : Nat) : VersionEdit κ :=
  { edit with prevLogNumber := some number }

def setNextFileNumber (edit : VersionEdit κ) (number : Nat) : Result (VersionEdit κ) :=
  if number = 0 then .error (Error.invalidArgument "next file number must be nonzero")
  else .ok { edit with nextFileNumber := some number }

def setLastSequence (edit : VersionEdit κ) (sequence : Nat) : Result (VersionEdit κ) :=
  if maxSequenceNumber < sequence then .error (Error.invalidArgument "last sequence exceeds 56 bits")
  else .ok { edit with lastSequence := some sequence }

def addCompactPointer (edit : VersionEdit κ) (level : Level) (key : κ) : VersionEdit κ :=
  { edit with compactPointers := edit.compactPointers ++ [(level, key)] }

def addFile (edit : VersionEdit κ) (level : Level) (file : FileMetadata κ) :
    Result (VersionEdit κ) :=
  if file.number = 0 then .error (Error.invalidArgument "new file number must be nonzero")
  else .ok { edit with newFiles := edit.newFiles ++ [(level, file)] }

def removeFile (edit : VersionEdit κ) (level : Level) (number : Nat) : Result (VersionEdit κ) :=
  if number = 0 then .error (Error.invalidArgument "deleted file number must be nonzero")
  else .ok { edit with
    deletedFiles := insertDeleted (DeletedFile.mk level number) edit.deletedFiles
    deleted_sorted := insertDeleted_sorted edit.deleted_sorted }

end VersionEdit
end ModernLevelDB
