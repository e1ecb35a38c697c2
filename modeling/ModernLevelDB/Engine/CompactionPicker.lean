import ModernLevelDB.Engine.Flush
import ModernLevelDB.Lib.Loop

/-! # Choosing a compaction (`engine/compaction_picker.h`)

A level is chosen by its score or by an exhausted seek budget. Its first input is then closed: over
overlapping files in level 0, over files that share the user key of the right edge, over the next
level, and once more over the same level when that adds nothing below.

Reading the front of an empty list, or the level after the last one, is undefined in the source and
`none` here; `Pick.undefined` is the result of a choice that runs into it. -/
namespace ModernLevelDB
set_option autoImplicit false

variable {K : Type*} [LinearOrder K]

def level0CompactionTrigger : Nat := 4
def expandedCompactionFactor : Nat := 25

/-- A level that has one below it. -/
abbrev SourceLevel := Fin 6

instance sourceLevels_neZero : NeZero 6 := ⟨by decide⟩

def SourceLevel.level (level : SourceLevel) : Level := level.castSucc
def SourceLevel.next (level : SourceLevel) : Level := level.succ

def Level.source? (level : Level) : Option SourceLevel :=
  if h : level.val < 6 then some ⟨level.val, h⟩ else none

/-! ## Scores -/

/-- The rounding of `double` arithmetic: monotone, and exact at 0 and 1. -/
structure Rounding where
  round : ℚ → ℚ
  mono : ∀ x y, x ≤ y → round x ≤ round y
  zero : round 0 = 0
  one : round 1 = 1

def Rounding.exact : Rounding := ⟨id, fun _ _ h => h, rfl, rfl⟩

/-- Ten times more at each level. -/
def maxBytesForLevel (level : Level) : ℚ := 10 * 1048576 * 10 ^ (level.val - 1)

def totalFileSize (files : List (TableFile K)) : Nat := wrap64 (files.map (·.fileSize)).sum

/-- The files of level 0 against the trigger, or the bytes of a level against its limit. -/
def levelScore (rounding : Rounding) (version : Levels K) (level : SourceLevel) : ℚ :=
  if level = 0 then
    rounding.round ((version.files 0).length / (level0CompactionTrigger : ℚ))
  else rounding.round
    (rounding.round (totalFileSize (version.files level.level)) / maxBytesForLevel level.level)

/-- A level and its score. -/
structure CompactionScore where
  level : SourceLevel
  score : ℚ

/-- `ScoreCompaction`: a tie keeps the shallower level. -/
def scoreCompaction (rounding : Rounding) (version : Levels K) : CompactionScore :=
  (List.finRange 6).foldl (fun best level =>
    let score := levelScore rounding version level
    if best.score < score then ⟨level, score⟩ else best) ⟨0, -1⟩

/-! ## Ranges and overlaps -/

/-- A range of internal keys. -/
structure KeyRange (K : Type*) where
  smallest : InternalKey K
  largest : InternalKey K

/-- Makes the range reach over the files. -/
def KeyRange.widen (range : KeyRange K) (files : List (TableFile K)) : KeyRange K :=
  files.foldl (fun range file =>
    { smallest := if file.smallest < range.smallest then file.smallest else range.smallest
      largest := if range.largest < file.largest then file.largest else range.largest }) range

/-- The smallest range that reaches over the files. -/
def rangeOf : List (TableFile K) → Option (KeyRange K)
  | [] => none
  | first :: rest => some (KeyRange.widen ⟨first.smallest, first.largest⟩ rest)

def KeyRange.userKeys (range : KeyRange K) : UserKeyRange K :=
  ⟨range.smallest.userKey, range.largest.userKey⟩

/-- One pass of `OverlappingFiles` over level 0: the wider range with which it starts over, or the
files found. -/
def scanLevelZero (range : UserKeyRange K) :
    List (TableFile K) → List (TableFile K) → UserKeyRange K ⊕ List (TableFile K)
  | [], overlapping => .inr overlapping
  | file :: rest, overlapping =>
      if !range.overlaps file then scanLevelZero range rest overlapping
      else if file.smallest.userKey < range.smallest then
        .inl ⟨file.smallest.userKey, range.largest⟩
      else if range.largest < file.largest.userKey then
        .inl ⟨range.smallest, file.largest.userKey⟩
      else scanLevelZero range rest (overlapping ++ [file])

/-- The restarts. Each one moves an end of the range to that of a file outside it, so that twice the
number of files bounds them. -/
def closeLevelZero (files : List (TableFile K)) : UserKeyRange K → List (TableFile K) :=
  Loop.run (scanLevelZero · files []) (fun _ => []) (2 * files.length + 1)

/-- The files of a level that share user keys with the range, which grows in level 0. -/
def overlappingFiles (version : Levels K) (level : Level) (range : KeyRange K) :
    List (TableFile K) :=
  if level = 0 then closeLevelZero (version.files 0) range.userKeys
  else (version.files level).filter range.userKeys.overlaps

/-- A round of `AddBoundaryInputs`: the first file after the right edge joins if it has its user key. -/
def boundaryRound (levelFiles : List (TableFile K)) :
    InternalKey K × List (TableFile K) → InternalKey K × List (TableFile K) ⊕ List (TableFile K)
  | (largest, files) =>
      match levelFiles.dropWhile (fun file => file.smallest ≤ largest) with
      | [] => .inr files
      | next :: _ =>
          if next.smallest.userKey = largest.userKey then .inl (next.largest, files ++ [next])
          else .inr files

/-- The loop passes every file of the level at most once. -/
def addBoundaryInputs (levelFiles files : List (TableFile K)) : List (TableFile K) :=
  match rangeOf files with
  | none => files
  | some range =>
      Loop.run (boundaryRound levelFiles) Prod.snd (levelFiles.length + 1) (range.largest, files)

/-! ## The inputs -/

/-- `Compaction`. The version is the one whose files it names. -/
structure Compaction (K : Type*) where
  level : SourceLevel
  version : Levels K
  inputs : List (TableFile K)
  nextInputs : List (TableFile K)
  grandparents : List (TableFile K)
  compactPointer : InternalKey K

/-- The inputs of both levels, and the range of the first ones. -/
structure InputExpansion (K : Type*) where
  inputs : List (TableFile K)
  nextInputs : List (TableFile K)
  range : KeyRange K

/-- More inputs of the first level, if they bring none of the second and stay small enough. -/
def tryExpandInputs (version : Levels K) (level : SourceLevel) (inputs nextInputs : List (TableFile K))
    (all : KeyRange K) (targetFileSize : Nat) : Option (InputExpansion K) :=
  if nextInputs = [] then none
  else
    let expanded := addBoundaryInputs (version.files level.level)
      (overlappingFiles version level.level all)
    if inputs.length < expanded.length ∧ wrap64 (totalFileSize nextInputs + totalFileSize expanded) <
        wrap64 (expandedCompactionFactor * targetFileSize) then
      match rangeOf expanded with
      | none => none
      | some range =>
          let expandedNext := addBoundaryInputs (version.files level.next)
            (overlappingFiles version level.next range)
          if expandedNext.length = nextInputs.length then some ⟨expanded, expandedNext, range⟩
          else none
    else none

def applyExpandedInputs (version : Levels K) (level : SourceLevel)
    (chosen : InputExpansion K) (targetFileSize : Nat) : InputExpansion K :=
  (tryExpandInputs version level chosen.inputs chosen.nextInputs
    (chosen.range.widen chosen.nextInputs) targetFileSize).getD chosen

/-- The files two levels down that share user keys with the inputs. -/
def collectGrandparents (version : Levels K) (level : SourceLevel) (all : KeyRange K) :
    List (TableFile K) :=
  if h : level.val + 2 < numLevels then overlappingFiles version ⟨level.val + 2, h⟩ all else []

/-- The inputs with their boundary files, and the files below that share user keys with them. -/
def closedInputs (version : Levels K) (level : SourceLevel) (inputs : List (TableFile K)) :
    Option (InputExpansion K) :=
  let inputs := addBoundaryInputs (version.files level.level) inputs
  (rangeOf inputs).map (fun range => ⟨inputs, addBoundaryInputs (version.files level.next)
    (overlappingFiles version level.next range), range⟩)

def setupInputs (version : Levels K) (level : SourceLevel) (inputs : List (TableFile K))
    (targetFileSize : Nat) : Option (Compaction K) :=
  (closedInputs version level inputs).map (fun closed =>
    let chosen := applyExpandedInputs version level closed targetFileSize
    { level, version
      inputs := chosen.inputs
      nextInputs := chosen.nextInputs
      grandparents := collectGrandparents version level (chosen.range.widen chosen.nextInputs)
      compactPointer := chosen.range.largest })

/-! ## The choice -/

/-- What `PickCompaction` returns. -/
inductive Pick (K : Type*) where
  | nothing
  | compaction (compaction : Compaction K)
  | undefined

/-- The first file behind the compact pointer, or the first one of all. -/
def sizeInput (version : Levels K) (level : SourceLevel) (pointer : Option (InternalKey K)) :
    Option (TableFile K) :=
  let files := version.files level.level
  match files.find? (fun file => match pointer with
    | none => true
    | some pointer => pointer < file.largest) with
  | some file => some file
  | none => files.head?

/-- In level 0, the files that share user keys with the chosen one come too. -/
def closeInput (version : Levels K) (level : SourceLevel) (file : TableFile K) :
    List (TableFile K) :=
  if level = 0 then overlappingFiles version 0 ⟨file.smallest, file.largest⟩ else [file]

def pickFrom (version : Levels K) (targetFileSize : Nat) (initial : Option (SourceLevel × TableFile K)) :
    Pick K :=
  match initial with
  | none => .undefined
  | some (level, file) =>
      match setupInputs version level (closeInput version level file) targetFileSize with
      | none => .undefined
      | some compaction => .compaction compaction

/-- `SelectInitialCompaction`: nothing, or the level and the file that the inputs grow from, which may be
undefined. `seek` is the recorded file of an exhausted seek budget. -/
def selectInitialCompaction (rounding : Rounding) (version : Levels K)
    (compactPointers : Level → Option (InternalKey K)) (seek : Option (Candidate K)) :
    Option (Option (SourceLevel × TableFile K)) :=
  let score := scoreCompaction rounding version
  if 1 ≤ score.score then
    some ((sizeInput version score.level (compactPointers score.level.level)).map
      (fun file => (score.level, file)))
  else seek.map (fun candidate => candidate.level.source?.map (fun level => (level, candidate.file)))

def pickCompaction (rounding : Rounding) (version : Levels K)
    (compactPointers : Level → Option (InternalKey K)) (seek : Option (Candidate K))
    (targetFileSize : Nat) : Pick K :=
  match selectInitialCompaction rounding version compactPointers seek with
  | none => .nothing
  | some initial => pickFrom version targetFileSize initial

/-- `CompactionEdit`: the pointer, and the removal of every input. -/
def compactionEdit (compaction : Compaction K) : VersionEdit (InternalKey K) :=
  let remove (level : Level) (edit : VersionEdit (InternalKey K)) (file : TableFile K) :=
    VersionSet.orKeep edit (edit.removeFile level file.number)
  let edit := VersionEdit.addCompactPointer {} compaction.level.level compaction.compactPointer
  compaction.nextInputs.foldl (remove compaction.level.next)
    (compaction.inputs.foldl (remove compaction.level.level) edit)

end ModernLevelDB
