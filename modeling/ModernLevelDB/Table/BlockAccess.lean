import ModernLevelDB.Table.Block

/-! # Blocks with every access checked

The same iterator as in `Block`, but with offsets for the pointers of the source and with every access
checked: a byte outside the block, a view that leaves it, a prefix that is longer than the key it is
taken from, an entry that the reverse cache does not have, or a loop that is still running after as
many rounds as the block allows, gives `none`. Where the source returns a null pointer or `false` the
result is a value. -/
namespace ModernLevelDB
set_option autoImplicit false

namespace BlockAccess

/-! ## Bytes -/

section Entries

variable (block : Block)

def byteAt (offset : Nat) : Option UInt8 := block.contents[offset]?

def view (offset size : Nat) : Option Bytes :=
  if offset + size ≤ block.contents.length then some (block.slice offset size) else none

def decodeVarint32Fallback (limit : Nat) : (left index value input : Nat) → Option (Option (Nat × Nat))
  | 0, _, _, _ => some none
  | left + 1, index, value, input =>
      if input = limit then some none
      else do
        let b ← byteAt block input
        let value := foldVarintPayload 32 value (b.toNat &&& 0x7f) (index * 7)
        if b.toNat &&& 0x80 = 0 then some (some (value, input + 1))
        else decodeVarint32Fallback limit left (index + 1) value (input + 1)

def decodeVarint32 (limit input : Nat) : Option (Option (Nat × Nat)) :=
  if input ≠ limit then do
    let b ← byteAt block input
    if b.toNat < 128 then some (some (b.toNat, input + 1))
    else decodeVarint32Fallback block limit 5 0 0 input
  else decodeVarint32Fallback block limit 5 0 0 input

def decodeLengths (limit input : Nat) : Option (Option (EntryHeader × Nat)) := do
  match ← decodeVarint32 block limit input with
  | none => some none
  | some (shared, input) =>
      match ← decodeVarint32 block limit input with
      | none => some none
      | some (nonShared, input) =>
          match ← decodeVarint32 block limit input with
          | none => some none
          | some (valueSize, input) => some (some (⟨shared, nonShared, valueSize⟩, input))

def decodeEntryHeader (limit input : Nat) : Option (Option (EntryHeader × Nat)) := do
  let shared ← byteAt block input
  let nonShared ← byteAt block (input + 1)
  let valueSize ← byteAt block (input + 2)
  if (shared ||| nonShared ||| valueSize).toNat < 128 then
    some (some (⟨shared.toNat, nonShared.toNat, valueSize.toNat⟩, input + 3))
  else decodeLengths block limit input

/-- `DecodeEntry`. The source subtracts pointers as unsigned numbers, so the input may not be behind
the limit. -/
def decodeEntry (input : Nat) : Option (Option (EntryHeader × Nat)) :=
  if block.entriesEnd < input then none
  else if block.entriesEnd - input < 3 then some none
  else do
    match ← decodeEntryHeader block block.entriesEnd input with
    | none => some none
    | some (header, key) =>
        if header.nonShared + header.valueSize ≤ block.entriesEnd - key then some (some (header, key))
        else some none

/-! ## Keys and restart points -/

def key (it : BlockIterator) : Option Bytes :=
  match it.borrowedKey with
  | none => some it.keyBuffer
  | some (.block offset size) => view block offset size
  | some (.cache offset size) =>
      match it.cache with
      | none => none
      | some cache =>
          if offset + size ≤ cache.keys.length then some ((cache.keys.drop offset).take size) else none

def restartPoint (index : Nat) : Option (Option Nat) := do
  let bytes ← view block (block.entriesEnd + 4 * index) 4
  if decodeFixed bytes ≤ block.entriesEnd then some (some (decodeFixed bytes)) else some none

def seekToRestartPoint (index : Nat) (it : BlockIterator) : Option (Bool × BlockIterator) := do
  match ← restartPoint block index with
  | none => some (false, it.corruption block)
  | some offset =>
      some (true, { it with
        current := block.entriesEnd, restartIndex := index, next := offset
        keyBuffer := [], borrowedKey := none, value := (0, 0) })

def advanceRestartIndex : (rounds : Nat) → BlockIterator → Option (Bool × BlockIterator)
  | 0, _ => none
  | rounds + 1, it =>
      if it.restartIndex + 1 < block.restartCount then do
        match ← restartPoint block (it.restartIndex + 1) with
        | none => some (false, it.corruption block)
        | some restart =>
            if restart ≥ it.current then some (true, it)
            else advanceRestartIndex rounds { it with restartIndex := it.restartIndex + 1 }
      else some (true, it)

def findPreviousRestart (original : Nat) :
    (rounds : Nat) → BlockIterator → Option (Bool × BlockIterator)
  | 0, _ => none
  | rounds + 1, it => do
      match ← restartPoint block it.restartIndex with
      | none => some (false, it.corruption block)
      | some restart =>
          if restart < original then some (true, it)
          else if it.restartIndex = 0 then some (false, it.invalidate block)
          else findPreviousRestart original rounds { it with restartIndex := it.restartIndex - 1 }

variable (format : BlockKeyFormat)

def restartKey (index : Nat) : Option (Option Bytes) := do
  match ← restartPoint block index with
  | none => some none
  | some offset =>
      if offset ≥ block.entriesEnd then some none
      else do
        match ← decodeEntry block offset with
        | none => some none
        | some (header, keyOffset) =>
            if header.shared ≠ 0 ∨ format.acceptsKeySize header.nonShared = false then some none
            else do
              let bytes ← view block keyOffset header.nonShared
              some (some bytes)

/-! ## Entries in turn -/

/-- `CommitEntry`. A shared prefix is copied from the current key, which must be as long. -/
def commitEntry (header : EntryHeader) (keyOffset : Nat) (it : BlockIterator) :
    Option (Bool × BlockIterator) := do
  let delta ← view block keyOffset header.nonShared
  let held ←
    if header.shared = 0 then
      some { it with borrowedKey := some (.block keyOffset header.nonShared) }
    else do
      let previous ← key block it
      if header.shared ≤ previous.length then
        some { it with keyBuffer := previous.take header.shared ++ delta, borrowedKey := none }
      else none
  advanceRestartIndex block block.restartCount { held with
    current := held.next
    value := (keyOffset + header.nonShared, header.valueSize)
    next := keyOffset + header.nonShared + header.valueSize }

def parseNextEntry (it : BlockIterator) : Option (Bool × BlockIterator) :=
  if it.next ≥ block.entriesEnd then some (false, it.invalidate block)
  else do
    match ← decodeEntry block it.next with
    | none => some (false, it.corruption block)
    | some (header, keyOffset) =>
        let previous ← key block it
        if header.shared > previous.length then some (false, it.corruption block)
        else if format.acceptsKeySize (header.shared + header.nonShared) = false then
          some (false, it.corruption block)
        else commitEntry block header keyOffset it

def scanToLastEntry : (rounds : Nat) → BlockIterator → Option BlockIterator
  | 0, _ => none
  | rounds + 1, it => do
      match ← parseNextEntry block format it with
      | (true, it) => if it.next < block.entriesEnd then scanToLastEntry rounds it else some it
      | (false, it) => some it

/-! ## The reverse cache -/

variable (entrySize : Nat)

/-- `ReverseCache::Append`; the inner `none` is a used-up budget. -/
def appendToCache (budget : Nat) (cache : ReverseCache) (it : BlockIterator) :
    Option (Option ReverseCache) := do
  let bytes ← key block it
  if budget < cache.chargedBytes then none
  else
    let copied := it.borrowedKey.isNone
    let keyBytes := if copied then bytes.length else 0
    let remaining := budget - cache.chargedBytes
    if remaining < entrySize ∨ keyBytes > remaining - entrySize then some none
    else some (some { cache with
      keys := if copied then cache.keys ++ bytes else cache.keys
      entries := cache.entries ++ [{
        current := it.current
        next := it.next
        restartIndex := it.restartIndex
        keyData :=
          match it.borrowedKey with
          | some (.block offset _) => some offset
          | _ => none
        keyOffset := cache.keys.length
        keySize := bytes.length
        value := it.value }]
      chargedBytes := cache.chargedBytes + (entrySize + keyBytes) })

def restore (cache : ReverseCache) (it : BlockIterator) : Option BlockIterator :=
  if cache.position < cache.entries.length then some (it.restore cache) else none

def selectLast (cache : ReverseCache) (it : BlockIterator) : Option BlockIterator := do
  let it ← restore { cache with position := cache.entries.length - 1 } it
  some { it with reverseCacheActive := true }

/-- `TryPrevious`; the inner `none` is its `false`. -/
def tryPrevious (it : BlockIterator) : Option (Option BlockIterator) :=
  match it.cache with
  | none => none
  | some cache =>
      if cache.position = 0 then some none
      else do
        let it ← restore { cache with position := cache.position - 1 } it
        some (some it)

def skipToPrevious (original : Nat) : (rounds : Nat) → BlockIterator → Option BlockIterator
  | 0, _ => none
  | rounds + 1, it =>
      if it.next < original then do
        match ← parseNextEntry block format it with
        | (true, it) => skipToPrevious original rounds it
        | (false, it) => some it
      else some it

def replay (original budget : Nat) :
    (rounds : Nat) → ReverseCache → BlockIterator → Option BlockIterator
  | 0, _, _ => none
  | rounds + 1, cache, it => do
      match ← appendToCache block entrySize budget cache it with
      | none => skipToPrevious block format original rounds { it with cache := some {} }
      | some cache =>
          let it := { it with cache := some cache }
          if it.next ≥ original then selectLast cache it
          else do
            match ← parseNextEntry block format it with
            | (true, it) => replay original budget rounds cache it
            | (false, it) => some it

def scanToPreviousEntry (original : Nat) (it : BlockIterator) : Option BlockIterator := do
  match ← parseNextEntry block format it with
  | (false, it) => some it
  | (true, it) =>
      if it.next ≥ original then some it
      else
        replay block format entrySize original (max 4096 block.entriesEnd) (block.entriesEnd + 1) {}
          { it with cache := some {} }

end Entries

/-! ## Moves -/

section Moves

variable (order : Bytes → Bytes → Ordering) (block : Block) (format : BlockKeyFormat)
  (entrySize : Nat)

def seekToFirst (it : BlockIterator) : Option BlockIterator :=
  let it := it.beginPositioning
  if block.restartCount = 0 then some (it.invalidate block)
  else do
    match ← seekToRestartPoint block 0 it with
    | (true, it) => do
        let (_, it) ← parseNextEntry block format it
        some it
    | (false, it) => some it

def seekToLast (it : BlockIterator) : Option BlockIterator :=
  let it := it.beginPositioning
  if block.restartCount = 0 then some (it.invalidate block)
  else do
    match ← seekToRestartPoint block (block.restartCount - 1) it with
    | (true, it) => scanToLastEntry block format (block.entriesEnd + 1) it
    | (false, it) => some it

def findRestart (target : Bytes) : (rounds left right : Nat) → Option (Option Nat)
  | 0, left, right => if left < right then none else some (some left)
  | rounds + 1, left, right =>
      if left < right then do
        let middle := left + (right - left + 1) / 2
        match ← restartKey block format middle with
        | none => some none
        | some middleKey =>
            if order middleKey target = .lt then findRestart target rounds middle right
            else findRestart target rounds left (middle - 1)
      else some (some left)

def scanToLowerBound (target : Bytes) : (rounds : Nat) → BlockIterator → Option BlockIterator
  | 0, _ => none
  | rounds + 1, it => do
      match ← parseNextEntry block format it with
      | (true, it) =>
          let current ← key block it
          if order current target = .lt then scanToLowerBound target rounds it else some it
      | (false, it) => some it

def restoreCheckpoint (index : Nat) (currentKeyCompare : Ordering) (it : BlockIterator) :
    Option (Bool × BlockIterator) :=
  if index = it.restartIndex ∧ currentKeyCompare = .lt then some (true, it)
  else seekToRestartPoint block index it

def seekBetween (target : Bytes) (left right : Nat) (currentKeyCompare : Ordering)
    (it : BlockIterator) : Option BlockIterator := do
  match ← findRestart order block format target block.restartCount left right with
  | none => some (it.corruption block)
  | some restart =>
      match ← restoreCheckpoint block restart currentKeyCompare it with
      | (false, it) => some it
      | (true, it) => scanToLowerBound order block format target (block.entriesEnd + 1) it

def seek (target : Bytes) (it : BlockIterator) : Option BlockIterator :=
  let it := it.beginPositioning
  if format.acceptsKeySize target.length = false then some (it.corruption block)
  else if block.restartCount = 0 then some (it.invalidate block)
  else if it.valid block then do
    let current ← key block it
    match order current target with
    | .lt => seekBetween order block format target it.restartIndex (block.restartCount - 1) .lt it
    | .gt => seekBetween order block format target 0 it.restartIndex .gt it
    | .eq => some it
  else seekBetween order block format target 0 (block.restartCount - 1) .eq it

def moveNext (it : BlockIterator) : Option BlockIterator := do
  let (_, it) ← parseNextEntry block format { it with reverseCacheActive := false }
  some it

/-- `Prev` inside the reverse cache, if that is active. -/
def tryCached (it : BlockIterator) : Option (Option BlockIterator) :=
  if it.reverseCacheActive then tryPrevious it else some none

def movePrev (it : BlockIterator) : Option BlockIterator := do
  match ← tryCached it with
  | some it => some it
  | none =>
      let it := { it with reverseCacheActive := false }
      let original := it.current
      match ← findPreviousRestart block original (block.restartCount + 1) it with
      | (false, it) => some it
      | (true, it) =>
          match ← seekToRestartPoint block it.restartIndex it with
          | (false, it) => some it
          | (true, it) => scanToPreviousEntry block format entrySize original it

def move : Cursor.Move Bytes → BlockIterator → Option BlockIterator
  | .seekToFirst, it => seekToFirst block format it
  | .seekToLast, it => seekToLast block format it
  | .seek target, it => seek order block format target it
  | .next, it => moveNext block format it
  | .prev, it => movePrev block format entrySize it

def run (moves : List (Cursor.Move Bytes)) (it : BlockIterator) : Option BlockIterator :=
  moves.foldlM (fun it m => move order block format entrySize m it) it

end Moves

end BlockAccess
end ModernLevelDB
