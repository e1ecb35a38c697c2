import ModernLevelDB.Format.WalFormat
import ModernLevelDB.Lib.Loop
import ModernLevelDB.Platform.FileSystem

/-! # The WAL reader (`wal/wal_io.h`)

The reader fills one block at a time from a sequential file, whatever sizes its reads have, decodes
the physical fragments of the block and puts logical records together. Reads succeed here; what they
return at the end of the file is empty. The loops of the source run on fuel that the bytes left to
read bound. -/
namespace ModernLevelDB
set_option autoImplicit false

inductive WalReadEvent where
  | record (data : Bytes) (offset : Nat)
  | corruption (error : Error) (droppedBytes offset : Nat)

/-- `block` is the filled part of the block buffer. -/
structure WalReader where
  file : SequentialFile
  block : Bytes := []
  blockPosition : Nat := 0
  blockStartOffset : Nat := 0
  scratch : Bytes := []
  partialRecordOffset : Nat := 0
  eofSeen : Bool := false
  inFragmentedRecord : Bool := false

structure PhysicalFragment where
  type : WalRecordType
  payload : Bytes
  offset : Nat
  blockPosition : Nat

/-- A fragment, or damage in its place. -/
inductive PhysicalRead where
  | fragment (fragment : PhysicalFragment)
  | corruption (error : Error) (droppedBytes offset : Nat)

namespace WalReader

/-! ## Blocks and fragments -/

/-- One round of `FillBlock`: the block, the file and whether the end was seen. -/
def fillBody (s : SequentialFile × Bytes) :
    (SequentialFile × Bytes) ⊕ (Bytes × SequentialFile × Bool) :=
  if s.2.length < walBlockSize then
    let (chunk, file) := s.1.read (walBlockSize - s.2.length)
    if chunk = [] then .inr (s.2, file, true) else .inl (file, s.2 ++ chunk)
  else .inr (s.2, s.1, false)

def fillLoop (fuel : Nat) (file : SequentialFile) (block : Bytes) : Bytes × SequentialFile × Bool :=
  Loop.run fillBody (fun s => (s.2, s.1, false)) fuel (file, block)

def fillBlock (r : WalReader) : WalReader :=
  let (block, file, eofSeen) := fillLoop (walBlockSize + 1) r.file []
  { r with file, block, eofSeen, blockPosition := 0,
           blockStartOffset := r.blockStartOffset + r.block.length }

/-- `RecoverPhysicalFailure`: a payload that ends past the final block is a cut tail. -/
def recoverPhysicalFailure (r : WalReader) (failure : WalDecodeError) (offset remaining : Nat) :
    Option PhysicalRead × WalReader :=
  let discarded := failure.skip.getD remaining
  let truncatedTail := r.eofSeen &&
    (failure.failure == .truncatedPayload || failure.failure == .payloadTooLarge)
  (if truncatedTail then none else some (.corruption failure.error discarded offset),
    { r with blockPosition := r.blockPosition + discarded })

def decodePhysical (extend : CrcExtend) (r : WalReader) : Option PhysicalRead × WalReader :=
  let offset := r.blockStartOffset + r.blockPosition
  match decodeWalFragment extend (r.block.drop r.blockPosition) with
  | .error failure => recoverPhysicalFailure r failure offset (r.block.length - r.blockPosition)
  | .ok .endOfBlock =>
      (some (.fragment ⟨.zero, [], offset, r.blockPosition⟩), { r with blockPosition := r.block.length })
  | .ok (.fragment type payload encodedSize) =>
      (some (.fragment ⟨type, payload, offset, r.blockPosition⟩),
        { r with blockPosition := r.blockPosition + encodedSize })

/-- One round of `ReadPhysical`. -/
def readPhysicalBody (extend : CrcExtend) (r : WalReader) :
    WalReader ⊕ (Option PhysicalRead × WalReader) :=
  let filled := r.blockPosition == r.block.length
  if filled && r.eofSeen then .inr (none, r)
  else
    let r := if filled then r.fillBlock else r
    if r.block = [] then .inr (none, r)
    else if r.block.length - r.blockPosition < walHeaderSize then
      -- The zero trailer of a full block, or a header cut at the end of the file.
      .inl { r with blockPosition := r.block.length }
    else
      match decodePhysical extend r with
      | (some decoded, r) => .inr (some decoded, r)
      | (none, r) => .inl r

/-- `ReadPhysical`: the next fragment or damaged region, or nothing at the end of the file. -/
def readPhysical (extend : CrcExtend) : (fuel : Nat) → WalReader → Option PhysicalRead × WalReader :=
  Loop.run (readPhysicalBody extend) (fun r => (none, r))

/-! ## Logical records -/

def clearPartial (r : WalReader) : WalReader :=
  { r with scratch := [], inFragmentedRecord := false, partialRecordOffset := 0 }

def hasPartialPayload (r : WalReader) : Bool := r.inFragmentedRecord && !r.scratch.isEmpty

def abandonPartial (r : WalReader) (reason : String) : Option WalReadEvent × WalReader :=
  (some (.corruption (Error.corruption reason) r.scratch.length r.partialRecordOffset),
    r.clearPartial)

/-- `ConsumeFragment` with its cases; no event means that the reader goes on. -/
def consumeFragment (r : WalReader) (fragment : PhysicalFragment) : Option WalReadEvent × WalReader :=
  match fragment.type with
  | .zero =>
      if r.hasPartialPayload then
        r.abandonPartial "WAL fragmented record ended at a zero marker"
      else (none, r.clearPartial)
  | .full =>
      if r.hasPartialPayload then
        -- The fragment stays unconsumed, so that the next call returns it.
        { r with blockPosition := fragment.blockPosition }.abandonPartial
          "WAL fragmented record was interrupted by a full record"
      else (some (.record fragment.payload fragment.offset), r.clearPartial)
  | .first =>
      if r.hasPartialPayload then
        { r with blockPosition := fragment.blockPosition }.abandonPartial
          "WAL fragmented record was interrupted by a first fragment"
      else
        (none, { r with scratch := fragment.payload, partialRecordOffset := fragment.offset,
                        inFragmentedRecord := true })
  | .middle =>
      if r.inFragmentedRecord then (none, { r with scratch := r.scratch ++ fragment.payload })
      else (some (.corruption (Error.corruption "WAL fragment has no starting fragment")
        fragment.payload.length fragment.offset), r)
  | .last =>
      if r.inFragmentedRecord then
        (some (.record (r.scratch ++ fragment.payload) r.partialRecordOffset),
          { r with scratch := r.scratch ++ fragment.payload, inFragmentedRecord := false })
      else (some (.corruption (Error.corruption "WAL fragment has no starting fragment")
        fragment.payload.length fragment.offset), r)

/-- `ConsumeCorruption`: damage inside a record costs what was read of it as well. -/
def consumeCorruption (r : WalReader) (error : Error) (droppedBytes offset : Nat) :
    WalReadEvent × WalReader :=
  (if r.inFragmentedRecord
    then .corruption error (droppedBytes + r.scratch.length) r.partialRecordOffset
    else .corruption error droppedBytes offset, r.clearPartial)

def unread (r : WalReader) : Nat := r.block.length - r.blockPosition + r.file.rest.length

/-- One round of `ReadNext`. -/
def readNextBody (extend : CrcExtend) (r : WalReader) : WalReader ⊕ (Option WalReadEvent × WalReader) :=
  match readPhysical extend (2 * r.unread + 4) r with
  | (none, r) => .inr (none, r.clearPartial)
  | (some (.corruption error droppedBytes offset), r) =>
      let (event, r) := r.consumeCorruption error droppedBytes offset
      .inr (some event, r)
  | (some (.fragment fragment), r) =>
      match r.consumeFragment fragment with
      | (some event, r) => .inr (some event, r)
      | (none, r) => .inl r

/-- The loop of `ReadNext`: an event, or nothing at the end of the file. -/
def readNextLoop (extend : CrcExtend) : (fuel : Nat) → WalReader → Option WalReadEvent × WalReader :=
  Loop.run (readNextBody extend) (fun r => (none, r))

def readNext (extend : CrcExtend) (r : WalReader) : Option WalReadEvent × WalReader :=
  readNextLoop extend (r.unread + 1) r

def events (extend : CrcExtend) : (fuel : Nat) → WalReader → List WalReadEvent
  | 0, _ => []
  | fuel + 1, r =>
      match readNext extend r with
      | (none, _) => []
      | (some event, r) => event :: events extend fuel r

end WalReader
end ModernLevelDB
