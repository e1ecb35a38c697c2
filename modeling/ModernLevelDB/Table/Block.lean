import ModernLevelDB.Base.Coding
import ModernLevelDB.Lib.Cursor

/-! # Blocks and their iterator (`table/block.h`)

An encoded block and the iterator that moves in it. Byte views of the source are places here: an
offset and a size in the block, or in the storage of the reverse cache, which changes under the views
that point there. The loops of the source run on fuel that the size of the block or the number of its
restart points bounds. -/
namespace ModernLevelDB
set_option autoImplicit false

/-! ## Entries -/

/-- The loop of `DecodeVarint32Fallback`, with the rounds that are left; the bytes are those up to the
limit, and `none` is its null pointer. -/
def decodeVarint32Fallback : (left index value : Nat) → Bytes → Option (Nat × Bytes)
  | 0, _, _, _ => none
  | _ + 1, _, _, [] => none
  | left + 1, index, value, b :: input =>
      let value := foldVarintPayload 32 value (b.toNat &&& 0x7f) (index * 7)
      if b.toNat &&& 0x80 = 0 then some (value, input)
      else decodeVarint32Fallback left (index + 1) value input

def decodeVarint32 : Bytes → Option (Nat × Bytes)
  | [] => decodeVarint32Fallback 5 0 0 []
  | b :: input =>
      if b.toNat < 128 then some (b.toNat, input) else decodeVarint32Fallback 5 0 0 (b :: input)

/-- The three lengths before a key. -/
structure EntryHeader where
  shared : Nat
  nonShared : Nat
  valueSize : Nat
deriving DecidableEq, Repr

/-- `DecodeEntryHeader`, with the input behind the header. Lengths of one byte each are read at once. -/
def decodeEntryHeader (input : Bytes) : Option (EntryHeader × Bytes) :=
  if (input.getD 0 0 ||| input.getD 1 0 ||| input.getD 2 0).toNat < 128 then
    some (⟨(input.getD 0 0).toNat, (input.getD 1 0).toNat, (input.getD 2 0).toNat⟩, input.drop 3)
  else do
    let (shared, input) ← decodeVarint32 input
    let (nonShared, input) ← decodeVarint32 input
    let (valueSize, input) ← decodeVarint32 input
    return (⟨shared, nonShared, valueSize⟩, input)

def hasEntryPayload (input : Bytes) (header : EntryHeader) : Bool :=
  header.nonShared + header.valueSize ≤ input.length

/-- `DecodeEntry`, with the input behind the header. -/
def decodeEntry (input : Bytes) : Option (EntryHeader × Bytes) :=
  if input.length < 3 then none
  else do
    let (header, input) ← decodeEntryHeader input
    if hasEntryPayload input header then some (header, input) else none

/-- The contents, with the end of the entries and the number of restart points. -/
structure Block where
  contents : Bytes
  entriesEnd : Nat
  restartCount : Nat

namespace Block

def slice (block : Block) (offset size : Nat) : Bytes := (block.contents.drop offset).take size

/-- The header of the entry at an offset, and the offset of its key. -/
def decodeEntry (block : Block) (offset : Nat) : Option (EntryHeader × Nat) :=
  (ModernLevelDB.decodeEntry ((block.contents.take block.entriesEnd).drop offset)).map
    fun (header, input) => (header, block.entriesEnd - input.length)

def restartPoint (block : Block) (index : Nat) : Nat :=
  decodeFixed (block.slice (block.entriesEnd + 4 * index) 4)

def readRestartCount (data : Bytes) : Result Nat :=
  if data.length < 4 then .error (Error.corruption "block is too short")
  else
    let restartCount := decodeFixed (data.drop (data.length - 4))
    if restartCount > (data.length - 4) / 4 then
      .error (Error.corruption "block restart count is invalid")
    else .ok restartCount

def create (contents : Bytes) : Result Block := do
  let restartCount ← readRestartCount contents
  return ⟨contents, contents.length - 4 * (restartCount + 1), restartCount⟩

/-- No entry can be reached. -/
def empty (block : Block) : Bool :=
  block.restartCount = 0 || block.entriesEnd = 0 || block.restartPoint 0 ≥ block.entriesEnd

/-! ## Validation -/

/-- An entry as its validation sees it. -/
structure DecodedEntry where
  shared : Nat
  keyDelta : Bytes
  value : Bytes
  headerSize : Nat

/-- An entry that shares no more than the key before it has. -/
def readEntry (block : Block) (offset previousKeySize : Nat) : Option DecodedEntry :=
  match block.decodeEntry offset with
  | none => none
  | some (header, keyOffset) =>
      if header.shared > previousKeySize then none
      else some {
        shared := header.shared
        keyDelta := block.slice keyOffset header.nonShared
        value := block.slice (keyOffset + header.nonShared) header.valueSize
        headerSize := keyOffset - offset }

def invalidRestarts : Error := Error.corruption "block restart points are invalid"

/-- `ValidateRestartEntry`, with the index of the next restart point. -/
def validateRestartEntry (block : Block) (offset shared restartIndex : Nat) : Result Nat :=
  if restartIndex < block.restartCount then
    let restart := block.restartPoint restartIndex
    if restart < offset ∨ restart = offset ∧ shared ≠ 0 then .error invalidRestarts
    else if restart = offset then .ok (restartIndex + 1)
    else .ok restartIndex
  else .ok restartIndex

/-- The loop of `ValidateEntries`. A visitor may keep a state of its own, as the one of `ValidateIndex`
does. -/
def validateFromWith {σ : Type} (block : Block) (visitor : σ → Bytes → Bytes → Result σ) :
    (fuel offset : Nat) → (key : Bytes) → (restartIndex : Nat) → σ → Result σ
  | 0, _, _, _, _ => .error (Error.corruption "block entry is malformed")
  | fuel + 1, offset, key, restartIndex, state =>
      if offset < block.entriesEnd then
        match block.readEntry offset key.length with
        | none => .error (Error.corruption "block entry is malformed")
        | some entry => do
            let entryEnd := offset + entry.headerSize + entry.keyDelta.length + entry.value.length
            let restartIndex ← block.validateRestartEntry offset entry.shared restartIndex
            let key := key.take entry.shared ++ entry.keyDelta
            let state ← visitor state key entry.value
            block.validateFromWith visitor fuel entryEnd key restartIndex state
      else
        let matchedRestarts := if block.entriesEnd = 0 then 1 else restartIndex
        if matchedRestarts ≠ block.restartCount then .error invalidRestarts else .ok state

/-- `ValidateEntries`. -/
def validateEntriesWith {σ : Type} (block : Block) (visitor : σ → Bytes → Bytes → Result σ)
    (state : σ) : Result σ :=
  if block.restartCount = 0 ∨ block.restartPoint 0 ≠ 0 then .error invalidRestarts
  else block.validateFromWith visitor (block.entriesEnd + 1) 0 [] 0 state

def validateEntries (block : Block) (visitor : Bytes → Bytes → Status) : Status :=
  block.validateEntriesWith (fun _ => visitor) ()

end Block

/-! ## The state of an iterator -/

/-- A key in the block or in the reverse cache. -/
inductive KeyView where
  | block (offset size : Nat)
  | cache (offset size : Nat)

/-- `ReverseCache::Entry`. A key is in the block at `keyData`, or in the cache's own storage. -/
structure ReverseCacheEntry where
  current : Nat
  next : Nat
  restartIndex : Nat
  keyData : Option Nat
  keyOffset : Nat
  keySize : Nat
  value : Nat × Nat

/-- The entries between two restarts, for `Prev`. -/
structure ReverseCache where
  entries : List ReverseCacheEntry := []
  keys : Bytes := []
  position : Nat := 0
  chargedBytes : Nat := 0

/-- Whether keys are internal keys. -/
inductive BlockKeyFormat where
  | arbitrary
  | internal
deriving DecidableEq, Repr

def BlockKeyFormat.acceptsKeySize (format : BlockKeyFormat) (size : Nat) : Bool :=
  format ≠ .internal || 8 ≤ size

/-- `keyBuffer` is `key_`; `value` is the place of the value in the block. -/
structure BlockIterator where
  current : Nat
  next : Nat
  restartIndex : Nat
  keyBuffer : Bytes := []
  borrowedKey : Option KeyView := none
  value : Nat × Nat := (0, 0)
  cache : Option ReverseCache := none
  reverseCacheActive : Bool := false
  corrupted : Bool := false

namespace BlockIterator

def create (block : Block) : BlockIterator :=
  { current := block.entriesEnd, next := block.entriesEnd, restartIndex := block.restartCount }

def valid (block : Block) (it : BlockIterator) : Bool := it.current < block.entriesEnd

def viewBytes (block : Block) (it : BlockIterator) : KeyView → Bytes
  | .block offset size => block.slice offset size
  | .cache offset size => (((it.cache.map ReverseCache.keys).getD []).drop offset).take size

def key (block : Block) (it : BlockIterator) : Bytes :=
  match it.borrowedKey with
  | some view => it.viewBytes block view
  | none => it.keyBuffer

def valueBytes (block : Block) (it : BlockIterator) : Bytes := block.slice it.value.1 it.value.2

def invalidate (block : Block) (it : BlockIterator) : BlockIterator :=
  { it with
    current := block.entriesEnd, next := block.entriesEnd, restartIndex := block.restartCount
    keyBuffer := [], borrowedKey := none, value := (0, 0), reverseCacheActive := false }

def corruption (block : Block) (it : BlockIterator) : BlockIterator :=
  { it.invalidate block with corrupted := true }

def currentStatus (it : BlockIterator) : Status :=
  if it.corrupted then .error (Error.corruption "bad entry in block") else .ok ()

def beginPositioning (it : BlockIterator) : BlockIterator :=
  { it with corrupted := false, reverseCacheActive := false }

/-! ## Restart points -/

/-- `Iterator::RestartPoint`: an offset behind the entries is damage. -/
def restartPoint (block : Block) (index : Nat) : Option Nat :=
  if block.restartPoint index ≤ block.entriesEnd then some (block.restartPoint index) else none

/-- Before the entry at a restart point. -/
def seekToRestartPoint (block : Block) (index : Nat) (it : BlockIterator) : Bool × BlockIterator :=
  match restartPoint block index with
  | none => (false, it.corruption block)
  | some offset =>
      (true, { it with
        current := block.entriesEnd, restartIndex := index, next := offset
        keyBuffer := [], borrowedKey := none, value := (0, 0) })

/-- Up to the last restart point before the current entry. -/
def advanceRestartIndex (block : Block) : (fuel : Nat) → BlockIterator → Bool × BlockIterator
  | 0, it => (true, it)
  | fuel + 1, it =>
      if it.restartIndex + 1 < block.restartCount then
        match restartPoint block (it.restartIndex + 1) with
        | none => (false, it.corruption block)
        | some restart =>
            if restart ≥ it.current then (true, it)
            else advanceRestartIndex block fuel { it with restartIndex := it.restartIndex + 1 }
      else (true, it)

/-- Back to a restart point before the original entry. -/
def findPreviousRestart (block : Block) (original : Nat) :
    (fuel : Nat) → BlockIterator → Bool × BlockIterator
  | 0, it => (false, it)
  | fuel + 1, it =>
      match restartPoint block it.restartIndex with
      | none => (false, it.corruption block)
      | some restart =>
          if restart < original then (true, it)
          else if it.restartIndex = 0 then (false, it.invalidate block)
          else findPreviousRestart block original fuel { it with restartIndex := it.restartIndex - 1 }

section Parsing

variable (block : Block) (format : BlockKeyFormat)

/-- `RestartKey`; no key means damage. -/
def restartKey (index : Nat) : Option Bytes :=
  match restartPoint block index with
  | none => none
  | some offset =>
      if offset ≥ block.entriesEnd then none
      else
        match block.decodeEntry offset with
        | none => none
        | some (header, keyOffset) =>
            if header.shared ≠ 0 ∨ format.acceptsKeySize header.nonShared = false then none
            else some (block.slice keyOffset header.nonShared)

/-! ## Entries in turn -/

def commitEntry (header : EntryHeader) (keyOffset : Nat) (it : BlockIterator) : Bool × BlockIterator :=
  let it :=
    if header.shared = 0 then { it with borrowedKey := some (.block keyOffset header.nonShared) }
    else
      let kept :=
        match it.borrowedKey with
        | some view => (it.viewBytes block view).take header.shared
        | none => it.keyBuffer.take header.shared
      { it with keyBuffer := kept ++ block.slice keyOffset header.nonShared, borrowedKey := none }
  advanceRestartIndex block block.restartCount { it with
    current := it.next
    value := (keyOffset + header.nonShared, header.valueSize)
    next := keyOffset + header.nonShared + header.valueSize }

/-- `ParseNextEntry`; no entry means the end or damage. -/
def parseNextEntry (it : BlockIterator) : Bool × BlockIterator :=
  if it.next ≥ block.entriesEnd then (false, it.invalidate block)
  else
    match block.decodeEntry it.next with
    | none => (false, it.corruption block)
    | some (header, keyOffset) =>
        if header.shared > (it.key block).length then (false, it.corruption block)
        else if format.acceptsKeySize (header.shared + header.nonShared) = false then
          (false, it.corruption block)
        else it.commitEntry block header keyOffset

def scanToLastEntry : (fuel : Nat) → BlockIterator → BlockIterator
  | 0, it => it
  | fuel + 1, it =>
      match it.parseNextEntry block format with
      | (true, it) => if it.next < block.entriesEnd then scanToLastEntry fuel it else it
      | (false, it) => it

end Parsing

/-! ## The reverse cache -/

section Cache

variable (block : Block) (format : BlockKeyFormat) (entrySize : Nat)

/-- `ReverseCache::Append`; `entrySize` is `sizeof(Entry)`. -/
def appendToCache (budget : Nat) (cache : ReverseCache) (it : BlockIterator) : Option ReverseCache :=
  let key := it.key block
  let copied := it.borrowedKey.isNone
  let keyBytes := if copied then key.length else 0
  let remaining := budget - cache.chargedBytes
  if remaining < entrySize ∨ keyBytes > remaining - entrySize then none
  else some { cache with
    keys := if copied then cache.keys ++ key else cache.keys
    entries := cache.entries ++ [{
      current := it.current
      next := it.next
      restartIndex := it.restartIndex
      keyData :=
        match it.borrowedKey with
        | some (.block offset _) => some offset
        | _ => none
      keyOffset := cache.keys.length
      keySize := key.length
      value := it.value }]
    chargedBytes := cache.chargedBytes + (entrySize + keyBytes) }

/-- Shows the cached entry at the cache's position. -/
def restore (cache : ReverseCache) (it : BlockIterator) : BlockIterator :=
  match cache.entries[cache.position]? with
  | none => it
  | some entry =>
      { it with
        current := entry.current
        next := entry.next
        restartIndex := entry.restartIndex
        borrowedKey := some (match entry.keyData with
          | some offset => .block offset entry.keySize
          | none => .cache entry.keyOffset entry.keySize)
        value := entry.value
        cache := some cache }

def selectLast (cache : ReverseCache) (it : BlockIterator) : BlockIterator :=
  { it.restore { cache with position := cache.entries.length - 1 } with reverseCacheActive := true }

def tryPrevious (it : BlockIterator) : Option BlockIterator :=
  match it.cache with
  | none => none
  | some cache =>
      if cache.position = 0 then none
      else some (it.restore { cache with position := cache.position - 1 })

/-- Without the cache: parse up to the entry before the original one. -/
def skipToPrevious (original : Nat) : (fuel : Nat) → BlockIterator → BlockIterator
  | 0, it => it
  | fuel + 1, it =>
      if it.next < original then
        match it.parseNextEntry block format with
        | (true, it) => skipToPrevious original fuel it
        | (false, it) => it
      else it

/-- Parses and caches the entries before the original one, as long as the budget allows. -/
def replay (original budget : Nat) : (fuel : Nat) → ReverseCache → BlockIterator → BlockIterator
  | 0, _, it => it
  | fuel + 1, cache, it =>
      match it.appendToCache block entrySize budget cache with
      | none => skipToPrevious block format original fuel { it with cache := some {} }
      | some cache =>
          let it := { it with cache := some cache }
          if it.next ≥ original then it.selectLast cache
          else
            match it.parseNextEntry block format with
            | (true, it) => replay original budget fuel cache it
            | (false, it) => it

def scanToPreviousEntry (original : Nat) (it : BlockIterator) : BlockIterator :=
  match it.parseNextEntry block format with
  | (false, it) => it
  | (true, it) =>
      if it.next ≥ original then it
      else
        replay block format entrySize original (max 4096 block.entriesEnd) (block.entriesEnd + 1) {}
          { it with cache := some {} }

end Cache

/-! ## Moves -/

section Moves

variable (order : Bytes → Bytes → Ordering) (block : Block) (format : BlockKeyFormat)
  (entrySize : Nat)

def seekToFirst (it : BlockIterator) : BlockIterator :=
  let it := it.beginPositioning
  if block.restartCount = 0 then it.invalidate block
  else
    match it.seekToRestartPoint block 0 with
    | (true, it) => (it.parseNextEntry block format).2
    | (false, it) => it

def seekToLast (it : BlockIterator) : BlockIterator :=
  let it := it.beginPositioning
  if block.restartCount = 0 then it.invalidate block
  else
    match it.seekToRestartPoint block (block.restartCount - 1) with
    | (true, it) => it.scanToLastEntry block format (block.entriesEnd + 1)
    | (false, it) => it

/-- The loop of `FindRestart`; nothing means damage. -/
def findRestart (target : Bytes) : (fuel left right : Nat) → Option Nat
  | 0, left, _ => some left
  | fuel + 1, left, right =>
      if left < right then
        let middle := left + (right - left + 1) / 2
        match restartKey block format middle with
        | none => none
        | some middleKey =>
            if order middleKey target = .lt then findRestart target fuel middle right
            else findRestart target fuel left (middle - 1)
      else some left

def scanToLowerBound (target : Bytes) : (fuel : Nat) → BlockIterator → BlockIterator
  | 0, it => it
  | fuel + 1, it =>
      match it.parseNextEntry block format with
      | (true, it) =>
          if order (it.key block) target = .lt then scanToLowerBound target fuel it else it
      | (false, it) => it

/-- No seek where the current entry has this restart and a key below the target. -/
def restoreCheckpoint (index : Nat) (currentKeyCompare : Ordering) (it : BlockIterator) :
    Bool × BlockIterator :=
  if index = it.restartIndex ∧ currentKeyCompare = .lt then (true, it)
  else it.seekToRestartPoint block index

/-- The search of `Seek` between two restart points. -/
def seekBetween (target : Bytes) (left right : Nat) (currentKeyCompare : Ordering)
    (it : BlockIterator) : BlockIterator :=
  match findRestart order block format target block.restartCount left right with
  | none => it.corruption block
  | some restart =>
      match it.restoreCheckpoint block restart currentKeyCompare with
      | (false, it) => it
      | (true, it) => it.scanToLowerBound order block format target (block.entriesEnd + 1)

/-- `Seek` searches on one side of the current entry only. -/
def seek (target : Bytes) (it : BlockIterator) : BlockIterator :=
  let it := it.beginPositioning
  if format.acceptsKeySize target.length = false then it.corruption block
  else if block.restartCount = 0 then it.invalidate block
  else if it.valid block then
    match order (it.key block) target with
    | .lt => it.seekBetween order block format target it.restartIndex (block.restartCount - 1) .lt
    | .gt => it.seekBetween order block format target 0 it.restartIndex .gt
    | .eq => it
  else it.seekBetween order block format target 0 (block.restartCount - 1) .eq

def moveNext (it : BlockIterator) : BlockIterator :=
  ({ it with reverseCacheActive := false }.parseNextEntry block format).2

/-- `Prev`, from the cache if it has the entry. -/
def movePrev (it : BlockIterator) : BlockIterator :=
  match if it.reverseCacheActive then it.tryPrevious else none with
  | some it => it
  | none =>
      let it := { it with reverseCacheActive := false }
      let original := it.current
      match it.findPreviousRestart block original (block.restartCount + 1) with
      | (false, it) => it
      | (true, it) =>
          match it.seekToRestartPoint block it.restartIndex with
          | (false, it) => it
          | (true, it) => it.scanToPreviousEntry block format entrySize original

def move : Cursor.Move Bytes → BlockIterator → BlockIterator
  | .seekToFirst, it => it.seekToFirst block format
  | .seekToLast, it => it.seekToLast block format
  | .seek target, it => it.seek order block format target
  | .next, it => it.moveNext block format
  | .prev, it => it.movePrev block format entrySize

end Moves
end BlockIterator

def blockIteratorBy (order : Bytes → Bytes → Ordering) (block : Block) (format : BlockKeyFormat)
    (entrySize : Nat) : Cursor.Iterator BlockIterator Bytes Bytes Error where
  current it := if it.valid block then some (it.key block, it.valueBytes block) else none
  move m it :=
    let it := it.move order block format entrySize m
    (it.currentStatus, it)

def logicalOrder {K : Type*} [LinearOrder K] (logical : Bytes → K) (a b : Bytes) : Ordering :=
  compare (logical a) (logical b)

theorem logicalOrder_lt {K : Type*} [LinearOrder K] {logical : Bytes → K} {a b : Bytes} :
    logicalOrder logical a b = .lt ↔ logical a < logical b := compare_lt_iff_lt

/-- `Block::Iterator` over a comparator of logical keys. -/
def blockIterator {K : Type*} [LinearOrder K] (logical : Bytes → K) (block : Block)
    (format : BlockKeyFormat) (entrySize : Nat) : Cursor.Iterator BlockIterator Bytes Bytes Error :=
  blockIteratorBy (logicalOrder logical) block format entrySize

end ModernLevelDB
