import ModernLevelDB.Table.BlockBuilder
import ModernLevelDB.Table.Table

/-! # Building tables (`table/table_builder.h`)

The data blocks of a table are written as they fill up; the filter, the metaindex, the index and the
footer follow at the end. The first error is kept, and nothing is written behind it. -/
namespace ModernLevelDB
set_option autoImplicit false

/-! ## Files -/

/-- `WritableFile`: the outcome of each call is decided from outside. A failed append leaves some of its
bytes in the file. -/
structure WritableFile where
  contents : Bytes := []
  calls : Nat := 0
  outcome : Nat → Option (Error × Nat)

namespace WritableFile

def append (file : WritableFile) (data : Bytes) : Status × WritableFile :=
  match file.outcome file.calls with
  | none => (.ok (), { file with contents := file.contents ++ data, calls := file.calls + 1 })
  | some (error, kept) =>
      (.error error, { file with contents := file.contents ++ data.take kept, calls := file.calls + 1 })

def sync (file : WritableFile) : Status × WritableFile :=
  match file.outcome file.calls with
  | none => (.ok (), { file with calls := file.calls + 1 })
  | some (error, _) => (.error error, { file with calls := file.calls + 1 })

end WritableFile

/-! ## The builder -/

inductive FilterLayout where
  | blockBased
  | fullTable
  | invalid
deriving DecidableEq, Repr

structure TableBuilderOptions where
  blockSize : Nat := 4 * 1024
  restartInterval : Nat := 16
  filterPolicy : Option BloomFilterPolicy := none
  compression : BlockCompression := .none
  zstdCompressionLevel : Int := 1
  filterLayout : FilterLayout := .blockBased

structure TableBuilder where
  file : Option WritableFile
  platform : Platform
  comparator : KeyComparator
  options : TableBuilderOptions
  dataBlock : BlockBuilder
  indexBlock : BlockBuilder := { restartInterval := 1 }
  filterBlock : Option FilterBlockBuilder := none
  fullFilter : Option FullFilterBuilder := none
  filterKey : Bytes := []
  lastKey : Bytes := []
  pendingHandle : BlockHandle := ⟨0, 0⟩
  pendingIndexEntry : Bool := false
  entryCount : Nat := 0
  fileSize : Nat := 0
  finished : Bool := false
  firstError : Option Error := none

namespace TableBuilder

/-- Only the first error is kept. -/
def record (builder : TableBuilder) : Status → TableBuilder
  | .ok () => builder
  | .error error =>
      match builder.firstError with
      | none => { builder with firstError := some error }
      | some _ => builder

def status (builder : TableBuilder) : Status :=
  match builder.firstError with
  | none => .ok ()
  | some error => .error error

/-- The filter of the options. `StartBlock` does nothing for the first range. -/
def setFilter (builder : TableBuilder) : TableBuilder :=
  match builder.options.filterLayout, builder.options.filterPolicy with
  | .invalid, _ => builder.record (.error (Error.invalidArgument "table filter layout is invalid"))
  | _, none => builder
  | .fullTable, some policy =>
      { builder with fullFilter := some { policy }, filterKey := fullFilterMetaKey }
  | .blockBased, some policy =>
      let filterBlock : FilterBlockBuilder := { policy }
      { builder with
        filterBlock := some ((filterBlock.startBlock 0).toOption.getD filterBlock)
        filterKey := filterMetaindexKey }

def create (platform : Platform) (file : Option WritableFile) (comparator : KeyComparator)
    (options : TableBuilderOptions) : TableBuilder :=
  let builder : TableBuilder := {
    file, platform, comparator, options
    dataBlock := { restartInterval := options.restartInterval }
    firstError := if file.isNone then some (Error.invalidArgument "table builder has no file") else none }
  (builder.record (validateCompressionOptions options.compression
    options.zstdCompressionLevel)).setFilter

/-! ## Blocks -/

def appendFile (builder : TableBuilder) (data : Bytes) : Bool × TableBuilder :=
  match builder.file with
  | none => (false, builder)
  | some file =>
      let (status, file) := file.append data
      (status.isOk, { builder with file := some file }.record status)

def writeRawBlock (builder : TableBuilder) (contents : Bytes) (type : BlockCompression) :
    BlockHandle × TableBuilder :=
  if builder.firstError.isSome then (⟨0, 0⟩, builder)
  else
    let handle : BlockHandle := ⟨builder.fileSize, contents.length⟩
    match builder.appendFile contents with
    | (false, builder) => (handle, builder)
    | (true, builder) =>
        match builder.appendFile (encodeBlockTrailer builder.platform.extend contents type) with
        | (false, builder) => (handle, builder)
        | (true, builder) =>
            (handle, { builder with
              fileSize := builder.fileSize + contents.length + blockTrailerSize })

/-- What is stored of a block: compressed contents if that is worthwhile. -/
def storedContents (platform : Platform) (options : TableBuilderOptions) (contents : Bytes) :
    Bytes × BlockCompression :=
  match tryCompressBlock platform.codec contents options.compression options.zstdCompressionLevel with
  | some compressed => (compressed, options.compression)
  | none => (contents, .none)

/-- The contents are compressed where that pays. -/
def writeBlock (builder : TableBuilder) (contents : Bytes) : BlockHandle × TableBuilder :=
  if builder.firstError.isSome then (⟨0, 0⟩, builder)
  else
    let (stored, type) := storedContents builder.platform builder.options contents
    builder.writeRawBlock stored type

def startFilterBlock (builder : TableBuilder) : TableBuilder :=
  match builder.filterBlock with
  | none => builder
  | some filterBlock =>
      match filterBlock.startBlock builder.fileSize with
      | .error error => builder.record (.error error)
      | .ok filterBlock => { builder with filterBlock := some filterBlock }

/-- `WriteDataBlock`; a block that is not written keeps the handle before. -/
def writeDataBlock (builder : TableBuilder) : TableBuilder :=
  let (handle, written) := builder.writeBlock builder.dataBlock.finish
  { written with
    pendingHandle := if builder.firstError.isSome then builder.pendingHandle else handle
    dataBlock := { restartInterval := builder.dataBlock.restartInterval }
    pendingIndexEntry := true }.startFilterBlock

/-! ## Entries -/

def addFilterKey (builder : TableBuilder) (key : Bytes) : TableBuilder :=
  match builder.fullFilter, builder.filterBlock with
  | some fullFilter, _ =>
      match fullFilter.addKey (ByteKey.userPart key) with
      | .error error => builder.record (.error error)
      | .ok fullFilter => { builder with fullFilter := some fullFilter }
  | none, some filterBlock =>
      match filterBlock.addKey (ByteKey.userPart key) with
      | .error error => builder.record (.error error)
      | .ok filterBlock => { builder with filterBlock := some filterBlock }
  | none, none => builder

/-- `AddPendingIndexEntry` under a key that separates the block from what follows. -/
def addPendingIndexEntry (builder : TableBuilder) (separator : Bytes) : TableBuilder :=
  { builder with
    indexBlock := builder.indexBlock.add separator (encodeBlockHandle builder.pendingHandle)
    lastKey := separator
    pendingIndexEntry := false }

/-- The index entry of the block before, with a short key up to the next one. -/
def finishPendingIndexEntry (builder : TableBuilder) (nextKey : Bytes) : TableBuilder :=
  if builder.pendingIndexEntry then
    builder.addPendingIndexEntry
      (InternalKeyComparator.findShortestSeparator builder.comparator builder.lastKey nextKey)
  else builder

def appendDataEntry (builder : TableBuilder) (key value : Bytes) : TableBuilder :=
  { builder with
    lastKey := key
    entryCount := builder.entryCount + 1
    dataBlock := builder.dataBlock.add key value }

def flushDataBlockIfNeeded (builder : TableBuilder) : TableBuilder :=
  if builder.dataBlock.currentSizeEstimate ≥ builder.options.blockSize then builder.writeDataBlock
  else builder

def addValid (builder : TableBuilder) (key value : Bytes) : TableBuilder :=
  let builder := builder.addFilterKey key
  if builder.firstError.isSome then builder
  else
    ((builder.finishPendingIndexEntry key).appendDataEntry key value).flushDataBlockIfNeeded

/-- `AddTrusted`, which does not check the key. -/
def addTrusted (builder : TableBuilder) (key value : Bytes) : Status × TableBuilder :=
  if builder.finished then (.error (Error.invalidArgument "table builder is finished"), builder)
  else if builder.firstError.isSome then (builder.status, builder)
  else
    let builder := builder.addValid key value
    (builder.status, builder)

/-- `Add`; an error is recorded, and no later call adds anything. -/
def add (builder : TableBuilder) (key value : Bytes) : Status × TableBuilder :=
  if builder.finished then (.error (Error.invalidArgument "table builder is finished"), builder)
  else if builder.firstError.isSome then (builder.status, builder)
  else
    let builder :=
      if (ByteKey.decode key).isOk = false then
        builder.record (.error (Error.invalidArgument "table key is not an internal key"))
      else if builder.entryCount > 0 ∧
          InternalKeyComparator.compareKeys builder.comparator key builder.lastKey ≠ .gt then
        builder.record (.error (Error.invalidArgument "table keys must strictly increase"))
      else builder.addValid key value
    (builder.status, builder)

/-! ## The end of a table -/

def finishFilter (builder : TableBuilder) : Option Bytes :=
  match builder.fullFilter, builder.filterBlock with
  | some fullFilter, _ => some fullFilter.finish
  | none, some filterBlock => some filterBlock.finish
  | none, none => none

def addFilterIndexEntry (builder : TableBuilder) (metaindex : BlockBuilder) :
    BlockBuilder × TableBuilder :=
  match builder.finishFilter with
  | none => (metaindex, builder)
  | some payload =>
      let (handle, builder) := builder.writeRawBlock payload .none
      (metaindex.add builder.filterKey (encodeBlockHandle handle), builder)

def writeMetaindex (builder : TableBuilder) : BlockHandle × TableBuilder :=
  let (metaindex, builder) :=
    builder.addFilterIndexEntry { restartInterval := builder.options.restartInterval }
  builder.writeBlock metaindex.finish

def addFinalIndexEntry (builder : TableBuilder) : TableBuilder :=
  if builder.pendingIndexEntry then
    builder.addPendingIndexEntry
      (InternalKeyComparator.findShortSuccessor builder.comparator builder.lastKey)
  else builder

def writeIndex (builder : TableBuilder) : BlockHandle × TableBuilder :=
  let builder := builder.addFinalIndexEntry
  builder.writeBlock builder.indexBlock.finish

def writeFooter (builder : TableBuilder) (metaindexHandle indexHandle : BlockHandle) : TableBuilder :=
  let footer := encodeFooter ⟨metaindexHandle, indexHandle⟩
  match builder.appendFile footer with
  | (false, builder) => builder
  | (true, builder) =>
      let builder := { builder with fileSize := builder.fileSize + footer.length }
      match builder.file with
      | none => builder
      | some file =>
          let (status, file) := file.sync
          { builder with file := some file }.record status

/-- The last data block, the metaindex, the index and the footer. -/
def writeTail (builder : TableBuilder) : TableBuilder :=
  let builder :=
    if builder.dataBlock.entriesSinceRestart = 0 then builder else builder.writeDataBlock
  let (metaindexHandle, builder) := builder.writeMetaindex
  let (indexHandle, builder) := builder.writeIndex
  if builder.firstError.isSome then builder else builder.writeFooter metaindexHandle indexHandle

def closeFile (builder : TableBuilder) : TableBuilder :=
  match builder.file with
  | none => builder
  | some file =>
      let (status, file) := file.sync
      { builder with file := some file }.record status

/-- `Finish`; the file is synced after an error too. -/
def finish (builder : TableBuilder) : Status × TableBuilder :=
  if builder.finished then (.error (Error.invalidArgument "table builder is finished"), builder)
  else
    let builder := { builder with finished := true }
    let builder := if builder.firstError.isSome then builder else builder.writeTail
    let builder := builder.closeFile
    (builder.status, builder)

/-- A call of `Add` or `AddTrusted`. -/
structure AddCall where
  trusted : Bool
  key : Bytes
  value : Bytes

def call (builder : TableBuilder) (c : AddCall) : TableBuilder :=
  (if c.trusted then builder.addTrusted c.key c.value else builder.add c.key c.value).2

def addAll (builder : TableBuilder) (calls : List AddCall) : TableBuilder := calls.foldl call builder

end TableBuilder

end ModernLevelDB
