import ModernLevelDB.Format.Separators
import ModernLevelDB.Table.Block
import ModernLevelDB.Table.BlockFormat
import ModernLevelDB.Table.FilterBlock
import ModernLevelDB.Table.FullFilter

/-! # Tables (`table/table.h`)

Reading a table. Files and the block cache act on a world of any type `W`, so that reads may be short,
fail, or differ from call to call, and the cache may evict what it likes. Errors say whether they leave
a branch that the source marks as unreachable after the checks of `Open`. -/
namespace ModernLevelDB
set_option autoImplicit false

/-! ## Files and caches -/

/-- `RandomAccessFile`: a read gives some of the bytes that were asked for. -/
structure RandomAccessFile (W : Type) where
  read : (offset size : Nat) → W → Result Bytes × W
  tryReadView : (offset size : Nat) → W → Option Bytes × W

/-- The operations of `BlockCache`; what a handle shows is a block. -/
structure BlockCache (W : Type) where
  newId : W → Nat × W
  lookup : (key : Bytes) → W → Option Block × W
  insert : (key : Bytes) → (value : Block) → (charge : Nat) → W → Block × W

/-- `ReadExactly`: a short read goes on behind what it gave. -/
def RandomAccessFile.readExactlyFrom {W : Type} (file : RandomAccessFile W) :
    (fuel offset size : Nat) → (output : Bytes) → W → Result Bytes × W
  | 0, _, _, output, w => (.ok output, w)
  | fuel + 1, offset, size, output, w =>
      if size = 0 then (.ok output, w)
      else
        match file.read offset size w with
        | (.error error, w) => (.error error, w)
        | (.ok bytes, w) =>
            if bytes.length > size then
              (.error (Error.io "random-access file returned an oversized table read"), w)
            else if bytes.length = 0 then (.error (Error.corruption "table file is truncated"), w)
            else
              file.readExactlyFrom fuel (offset + bytes.length) (size - bytes.length)
                (output ++ bytes) w

def RandomAccessFile.readExactly {W : Type} (file : RandomAccessFile W) (offset size : Nat) (w : W) :
    Result Bytes × W := file.readExactlyFrom size offset size [] w

/-! ## Blocks of a file -/

/-- Where an operation of a table fails: in a branch that is marked as unreachable, or elsewhere. -/
inductive Failure where
  | marked (error : Error)
  | reported (error : Error)

/-- The block and its trailer end before the footer and fit in memory. -/
def inBlockRegion (handle : BlockHandle) (blocksEnd : Nat) : Bool :=
  if handle.offset > blocksEnd then false
  else
    let available := min (blocksEnd - handle.offset) (2 ^ 64 - 1)
    blockTrailerSize ≤ available && handle.size ≤ available - blockTrailerSize

/-- The libraries outside the repository, and the probe that suits the processor. -/
structure Platform where
  extend : CrcExtend
  codec : Codec
  probe : UInt32 → Nat → Region → Bool

/-- No compression, and one checksum for all bytes. -/
def plainPlatform : Platform where
  extend _ _ := 0
  codec := ⟨fun _ _ _ => none, fun _ bytes => .ok bytes⟩
  probe _ _ _ := true

section Blocks

variable {W : Type} (platform : Platform) (file : RandomAccessFile W) (blocksEnd : Nat)

/-- A block with its trailer, from a view of the file if it gives one. -/
def readStoredBlock (handle : BlockHandle) (w : W) : Result BlockContents × W :=
  if inBlockRegion handle blocksEnd = false then
    (.error (Error.corruption "table block lies outside the file"), w)
  else
    let storedSize := handle.size + blockTrailerSize
    match file.tryReadView handle.offset storedSize w with
    | (some view, w) => (decodeStoredBlock platform.extend platform.codec true view, w)
    | (none, w) =>
        match file.readExactly handle.offset storedSize w with
        | (.error error, w) => (.error error, w)
        | (.ok stored, w) => (decodeStoredBlock platform.extend platform.codec false stored, w)

/-- `ReadBlock`: a block, and whether the cache may keep it. -/
def readBlock (handle : BlockHandle) (w : W) : Result (Block × Bool) × W :=
  match readStoredBlock platform file blocksEnd handle w with
  | (.error error, w) => (.error error, w)
  | (.ok contents, w) =>
      (do
        let block ← Block.create contents.data
        return (block, contents.cacheable), w)

def readFooter (w : W) : Result Footer × W :=
  match file.readExactly blocksEnd footerSize w with
  | (.error error, w) => (.error error, w)
  | (.ok bytes, w) => (decodeFooter bytes, w)

end Blocks

/-! ## The index -/

/-- `IndexHandle`, which checks nothing. -/
def indexHandle (value : Bytes) : BlockHandle :=
  let (offset, input) := consumeVarintTrusted 64 0 0 value
  let (size, _) := consumeVarintTrusted 64 0 0 input
  ⟨offset, size⟩

def readIndexHandle (value : Bytes) : Option BlockHandle := do
  let (offset, input) ← readVarintTrusted 64 0 0 value
  let (size, _) ← readVarintTrusted 64 0 0 input
  return ⟨offset, size⟩

/-- The visitor of `ValidateIndex`; its state is the offset behind the last block. -/
def visitIndexEntry (blocksEnd : Nat) (format : BlockKeyFormat) (nextOffset : Nat)
    (key value : Bytes) : Result Nat := do
  if format = .internal then let _ ← ByteKey.decode key
  match consumeBlockHandle value with
  | .error _ => .error (Error.corruption "table index value is not a block handle")
  | .ok (handle, rest) =>
      if rest ≠ [] ∨ inBlockRegion handle blocksEnd = false then
        .error (Error.corruption "table index value is not a block handle")
      else if handle.offset < nextOffset then .error (Error.corruption "table index blocks overlap")
      else .ok ((handle.offset + handle.size + blockTrailerSize) % 2 ^ 64)

def validateIndex (index : Block) (blocksEnd : Nat) (format : BlockKeyFormat) : Status := do
  let _ ← index.validateEntriesWith (visitIndexEntry blocksEnd format) 0
  return ()

/-! ## The metaindex -/

def fullFilterMetaKey : Bytes := ascii "filter.modern_leveldb.FullBloom1"

def filterMetaindexKey : Bytes := ascii "filter." ++ ascii BloomFilterPolicy.name

def decodeFilterHandle (value : Bytes) : Result BlockHandle :=
  match consumeBlockHandle value with
  | .error _ => .error (Error.corruption "table filter handle is malformed")
  | .ok (handle, rest) =>
      if rest ≠ [] then .error (Error.corruption "table filter handle is malformed") else .ok handle

/-- A seek in the metaindex, which is marked as one that cannot fail. -/
def findFilterHandle (metaindex : Block) (key : Bytes) : Except Failure (Option BlockHandle) :=
  let entry := (BlockIterator.create metaindex).seek Bytewise.compareKeys metaindex .arbitrary key
  match entry.currentStatus with
  | .error error => .error (.marked error)
  | .ok () =>
      if entry.valid metaindex = false ∨ entry.key metaindex ≠ key then .ok none
      else
        match decodeFilterHandle (entry.valueBytes metaindex) with
        | .error error => .error (.reported error)
        | .ok handle => .ok (some handle)

/-- The filter of a table, in either format. -/
structure TableFilters where
  legacy : Option FilterBlockReader := none
  full : Option FullFilterReader := none

section Open

variable {W : Type} (platform : Platform) (file : RandomAccessFile W) (blocksEnd : Nat)

def readValidatedIndex (handle : BlockHandle) (format : BlockKeyFormat) (w : W) : Result Block × W :=
  match readBlock platform file blocksEnd handle w with
  | (.error error, w) => (.error error, w)
  | (.ok (index, _), w) =>
      match validateIndex index blocksEnd format with
      | .error error => (.error error, w)
      | .ok () => (.ok index, w)

def readValidatedMetaindex (handle : BlockHandle) (w : W) : Result Block × W :=
  match readBlock platform file blocksEnd handle w with
  | (.error error, w) => (.error error, w)
  | (.ok (metaindex, _), w) =>
      match metaindex.validateEntries (fun _ _ => .ok ()) with
      | .error error => (.error error, w)
      | .ok () => (.ok metaindex, w)

def readFullFilter (handle : BlockHandle) (w : W) : Result FullFilterReader × W :=
  if FullFilter.isFullFilterBlockSize handle.size = false then
    (.error (Error.corruption "full filter block size is invalid"), w)
  else
    match readStoredBlock platform file blocksEnd handle w with
    | (.error error, w) => (.error error, w)
    | (.ok contents, w) => (FullFilterReader.create contents.data, w)

def readFilterBlock (handle : BlockHandle) (w : W) : Result FilterBlockReader × W :=
  match readStoredBlock platform file blocksEnd handle w with
  | (.error error, w) => (.error error, w)
  | (.ok contents, w) => (FilterBlockReader.create contents.data, w)

/-- `ReadFilters`: at most one of the two layouts. -/
def readFilters (metaindexHandle : BlockHandle) (w : W) : Except Failure TableFilters × W :=
  match readValidatedMetaindex platform file blocksEnd metaindexHandle w with
  | (.error error, w) => (.error (.reported error), w)
  | (.ok metaindex, w) =>
      match findFilterHandle metaindex fullFilterMetaKey with
      | .error failure => (.error failure, w)
      | .ok (some handle) =>
          match readFullFilter platform file blocksEnd handle w with
          | (.error error, w) => (.error (.reported error), w)
          | (.ok reader, w) => (.ok { full := some reader }, w)
      | .ok none =>
          match findFilterHandle metaindex filterMetaindexKey with
          | .error failure => (.error failure, w)
          | .ok none => (.ok {}, w)
          | .ok (some handle) =>
              match readFilterBlock platform file blocksEnd handle w with
              | (.error error, w) => (.error (.reported error), w)
              | (.ok reader, w) => (.ok { legacy := some reader }, w)

def loadFilters (policy : Option BloomFilterPolicy) (metaindexHandle : BlockHandle) (w : W) :
    Except Failure TableFilters × W :=
  match policy with
  | none => (.ok {}, w)
  | some _ => readFilters platform file blocksEnd metaindexHandle w

end Open

/-! ## Tables -/

structure TableOptions (W : Type) where
  filterPolicy : Option BloomFilterPolicy := none
  blockCache : Option (BlockCache W) := none
  blockKeyFormat : BlockKeyFormat := .internal

structure Table (W : Type) where
  platform : Platform
  file : RandomAccessFile W
  blocksEnd : Nat
  comparator : KeyComparator
  format : BlockKeyFormat
  index : Block
  filter : Option FilterBlockReader
  fullFilter : Option FullFilterReader
  blockCache : Option (BlockCache W)
  cacheId : Nat

namespace Table

variable {W : Type}

/-- `Table::Open`: the footer, the index, then the filters. -/
def openTable (platform : Platform) (file : Option (RandomAccessFile W)) (fileSize : UInt64)
    (comparator : KeyComparator) (options : TableOptions W) (w : W) :
    Except Failure (Table W) × W :=
  match file with
  | none => (.error (.reported (Error.invalidArgument "table has no file")), w)
  | some file =>
      if fileSize.toNat < footerSize then
        (.error (.reported (Error.corruption "file is too short to be a table")), w)
      else
        let blocksEnd := fileSize.toNat - footerSize
        match readFooter file blocksEnd w with
        | (.error error, w) => (.error (.reported error), w)
        | (.ok footer, w) =>
            match readValidatedIndex platform file blocksEnd footer.index options.blockKeyFormat w with
            | (.error error, w) => (.error (.reported error), w)
            | (.ok index, w) =>
                match loadFilters platform file blocksEnd options.filterPolicy footer.metaindex w with
                | (.error failure, w) => (.error failure, w)
                | (.ok filters, w) =>
                    let (cacheId, w) :=
                      match options.blockCache with
                      | none => (0, w)
                      | some cache => cache.newId w
                    (.ok {
                      platform, file, blocksEnd, comparator, index, cacheId
                      format := options.blockKeyFormat
                      filter := filters.legacy
                      fullFilter := filters.full
                      blockCache := options.blockCache }, w)

def blockOrder (table : Table W) : Bytes → Bytes → Ordering :=
  match table.format with
  | .internal => InternalKeyComparator.compareKeys table.comparator
  | .arbitrary => Bytewise.compareKeys

def blockCacheKey (cacheId blockOffset : Nat) : Bytes := encodeFixed 8 cacheId ++ encodeFixed 8 blockOffset

/-- `ReadDataBlock` of the file: what the cache does not have. -/
def readUncached (table : Table W) (handle : BlockHandle) (fillCache : Bool) (w : W) :
    Result Block × W :=
  match readBlock table.platform table.file table.blocksEnd handle w with
  | (.error error, w) => (.error error, w)
  | (.ok (block, cacheable), w) =>
      if block.empty then (.error (Error.corruption "table data block is empty"), w)
      else
        match table.blockCache with
        | none => (.ok block, w)
        | some cache =>
            if fillCache && cacheable then
              let (block, w) :=
                cache.insert (blockCacheKey table.cacheId handle.offset) block block.contents.length w
              (.ok block, w)
            else (.ok block, w)

def readDataBlock (table : Table W) (handle : BlockHandle) (fillCache : Bool) (w : W) :
    Result Block × W :=
  match table.blockCache with
  | none => table.readUncached handle fillCache w
  | some cache =>
      match cache.lookup (blockCacheKey table.cacheId handle.offset) w with
      | (some block, w) => (.ok block, w)
      | (none, w) => table.readUncached handle fillCache w

/-! ## Point lookups -/

/-- What `Get` finds. -/
inductive Lookup where
  | missing
  | value (bytes : Bytes)
  | deletion
deriving DecidableEq, Repr

def lookupDataBlock (table : Table W) (block : Block) (key : LookupKey) : Result Lookup :=
  let entry := (BlockIterator.create block).seek table.blockOrder block table.format key.internalKey
  match entry.currentStatus with
  | .error error => .error error
  | .ok () =>
      if entry.valid block = false then .ok .missing
      else
        match ByteKey.decode (entry.key block) with
        | .error error => .error error
        | .ok parsed =>
            if table.comparator.compare parsed.userKey key.userKey ≠ .eq then .ok .missing
            else if parsed.kind = .deletion then .ok .deletion
            else .ok (.value (entry.valueBytes block))

/-- `Get` asks the filter of the table, the index, the filter of the block, then the block. -/
def get (table : Table W) (key : LookupKey) (fillCache : Bool) (w : W) : Except Failure Lookup × W :=
  if table.fullFilter.any (fun filter =>
      filter.keyMayMatch table.platform.probe key.userKey = false) then (.ok .missing, w)
  else
    let index := (BlockIterator.create table.index).seek table.blockOrder table.index table.format
      key.internalKey
    match index.currentStatus with
    | .error error => (.error (.marked error), w)
    | .ok () =>
        if index.valid table.index = false then (.ok .missing, w)
        else
          let handle := indexHandle (index.valueBytes table.index)
          if table.filter.any (fun filter =>
              filter.keyMayMatch handle.offset key.userKey = false) then (.ok .missing, w)
          else
            match table.readDataBlock handle fillCache w with
            | (.error error, w) => (.error (.reported error), w)
            | (.ok block, w) =>
                match table.lookupDataBlock block key with
                | .error error => (.error (.reported error), w)
                | .ok lookup => (.ok lookup, w)

end Table

/-! ## Iterators -/

/-- `Table::Iterator`: `data` is the current data block and the iterator in it. -/
structure TableIterator where
  index : BlockIterator
  blockHandle : Bytes := []
  data : Option (Block × BlockIterator) := none

/-- The end of a block at which it is entered. -/
inductive Edge where
  | first
  | last

namespace TableIterator

section

variable {W : Type} (table : Table W) (entrySize : Nat) (fillCache : Bool)

def create : TableIterator := { index := .create table.index }

def fail (it : TableIterator) (failure : Failure) (w : W) : Except Failure Unit × TableIterator × W :=
  (.error failure, { it with data := none }, w)

/-- Reads the block under the index, unless it is loaded. -/
def loadBlock (it : TableIterator) (w : W) : Status × TableIterator × W :=
  if it.index.valid table.index = false then (.ok (), { it with data := none }, w)
  else
    let handle := it.index.valueBytes table.index
    if it.data.isSome ∧ handle = it.blockHandle then (.ok (), it, w)
    else
      let it := { it with data := none }
      match table.readDataBlock (indexHandle handle) fillCache w with
      | (.error error, w) => (.error error, it, w)
      | (.ok block, w) =>
          (.ok (), { it with data := some (block, .create block), blockHandle := handle }, w)

def moveData (block : Block) (m : Cursor.Move Bytes) (it : BlockIterator) : Status × BlockIterator :=
  let it := it.move table.blockOrder block table.format entrySize m
  (it.currentStatus, it)

/-- Loads a block and goes to its first or last entry. -/
def enterBlock (edge : Edge) (it : TableIterator) (w : W) :
    Except Failure Unit × TableIterator × W :=
  match loadBlock table fillCache it w with
  | (.error error, it, w) => it.fail (.reported error) w
  | (.ok (), it, w) =>
      match it.data with
      | none => (.ok (), it, w)
      | some (block, data) =>
          let positioning : Cursor.Move Bytes :=
            match edge with
            | .first => .seekToFirst
            | .last => .seekToLast
          match moveData table entrySize block positioning data with
          | (.error error, data) => { it with data := some (block, data) }.fail (.reported error) w
          | (.ok (), data) =>
              let it := { it with data := some (block, data) }
              if data.valid block = false then
                it.fail (.reported (Error.corruption "table data block has no reachable entry")) w
              else (.ok (), it, w)

/-- A move of the index, which is marked as one that cannot fail, and the block that it leads to. -/
def moveIndex (m : Cursor.Move Bytes) (edge : Edge) (it : TableIterator) (w : W) :
    Except Failure Unit × TableIterator × W :=
  let index := it.index.move table.blockOrder table.index table.format entrySize m
  let it := { it with index }
  match index.currentStatus with
  | .error error => it.fail (.marked error) w
  | .ok () => enterBlock table entrySize fillCache edge it w

/-- Where the block ends before the target, the next one is entered. -/
def seek (target : Bytes) (it : TableIterator) (w : W) : Except Failure Unit × TableIterator × W :=
  match if table.format = .internal then (ByteKey.decode target).map (fun _ => ()) else .ok () with
  | .error error => it.fail (.reported error) w
  | .ok () =>
      let index := it.index.move table.blockOrder table.index table.format entrySize (.seek target)
      let it := { it with index }
      match index.currentStatus with
      | .error error => it.fail (.marked error) w
      | .ok () =>
          match loadBlock table fillCache it w with
          | (.error error, it, w) => it.fail (.reported error) w
          | (.ok (), it, w) =>
              match it.data with
              | none => (.ok (), it, w)
              | some (block, data) =>
                  match moveData table entrySize block (.seek target) data with
                  | (.error error, data) =>
                      { it with data := some (block, data) }.fail (.reported error) w
                  | (.ok (), data) =>
                      let it := { it with data := some (block, data) }
                      if data.valid block then (.ok (), it, w)
                      else moveIndex table entrySize fillCache .next .first it w

/-- `Next` and `Prev`: a move in the data block, and behind its end the next or previous block. -/
def step (m : Cursor.Move Bytes) (edge : Edge) (it : TableIterator) (w : W) :
    Except Failure Unit × TableIterator × W :=
  match it.data with
  | none => (.ok (), it, w)
  | some (block, data) =>
      match moveData table entrySize block m data with
      | (.error error, data) => { it with data := some (block, data) }.fail (.reported error) w
      | (.ok (), data) =>
          let it := { it with data := some (block, data) }
          if data.valid block then (.ok (), it, w)
          else moveIndex table entrySize fillCache m edge it w

def move : Cursor.Move Bytes → TableIterator → W → Except Failure Unit × TableIterator × W
  | .seekToFirst, it, w => moveIndex table entrySize fillCache .seekToFirst .first it w
  | .seekToLast, it, w => moveIndex table entrySize fillCache .seekToLast .last it w
  | .seek target, it, w => seek table entrySize fillCache target it w
  | .next, it, w => step table entrySize fillCache .next .first it w
  | .prev, it, w => step table entrySize fillCache .prev .last it w

end

end TableIterator

def tableIterator {W : Type} (table : Table W) (entrySize : Nat) (fillCache : Bool) :
    Cursor.Iterator (TableIterator × W) Bytes Bytes Failure where
  current s := s.1.data.map fun (block, data) => (data.key block, data.valueBytes block)
  move m s := TableIterator.move table entrySize fillCache m s.1 s.2

end ModernLevelDB
