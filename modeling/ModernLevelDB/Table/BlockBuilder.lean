import ModernLevelDB.Base.Coding

/-! # The block builder (`table/block_builder.h`)

A block is its entries, the offsets of its restart points and their number. An entry leaves out the
bytes that its key shares with the key before; at a restart point it leaves out nothing. -/
namespace ModernLevelDB
set_option autoImplicit false

/-- `restarts` are the restart points after the implicit first one at offset zero. -/
structure BlockBuilder where
  restartInterval : Nat
  entriesSinceRestart : Nat := 0
  buffer : Bytes := []
  restarts : List Nat := []
  lastKey : Bytes := []

namespace BlockBuilder

def beginRestart (builder : BlockBuilder) : BlockBuilder :=
  { builder with
    restarts := builder.restarts ++ [builder.buffer.length % 2 ^ 32], entriesSinceRestart := 0 }

/-- `AppendEntryHeader`: the three lengths are cast to 32 bits. -/
def entryHeader (shared nonShared valueSize : Nat) : Bytes :=
  encodeVarint32 (shared % 2 ^ 32) ++ encodeVarint32 (nonShared % 2 ^ 32) ++
    encodeVarint32 (valueSize % 2 ^ 32)

def add (builder : BlockBuilder) (key value : Bytes) : BlockBuilder :=
  let restart := builder.entriesSinceRestart == builder.restartInterval
  let shared := if restart then 0 else sharedPrefixLength builder.lastKey key
  let builder := if restart then builder.beginRestart else builder
  let keyDelta := key.drop shared
  { builder with
    buffer := builder.buffer ++ entryHeader shared (key.length - shared) value.length ++
      keyDelta ++ value
    lastKey := builder.lastKey.take shared ++ keyDelta
    entriesSinceRestart := builder.entriesSinceRestart + 1 }

def addAll (builder : BlockBuilder) (entries : List (Bytes × Bytes)) : BlockBuilder :=
  entries.foldl (fun builder entry => builder.add entry.1 entry.2) builder

def finish (builder : BlockBuilder) : Bytes :=
  builder.buffer ++ (encodeFixed 4 0 ++ builder.restarts.flatMap (encodeFixed 4)) ++
    encodeFixed 4 ((builder.restarts.length + 1) % 2 ^ 32)

def currentSizeEstimate (builder : BlockBuilder) : Nat :=
  builder.buffer.length + 4 * (builder.restarts.length + 1) + 4

end BlockBuilder
end ModernLevelDB
