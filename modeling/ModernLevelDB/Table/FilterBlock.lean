import ModernLevelDB.Table.BloomFilter

/-! # Filter blocks (`table/filter_block.h`)

One filter for every range of 2 KiB of the offsets of data blocks, the offsets of the filters, the
offset of these offsets, and the size of a range. Sums of sizes do not wrap: a filter has at most 2^61
bytes and an offset of 64 bits is in one of 2^53 ranges. -/
namespace ModernLevelDB
set_option autoImplicit false

def filterRangeShift : Nat := 11
def filterTrailerSize : Nat := 5
def maximumFilterBlockSize : Nat := 2 ^ 32 - 1

/-! ## Building -/

/-- `keys` are the keys of the current range in one piece, and `keyStarts` where each begins. -/
structure FilterBlockBuilder where
  policy : BloomFilterPolicy
  keys : Bytes := []
  keyStarts : List Nat := []
  result : Bytes := []
  filterOffsets : List Nat := []

namespace FilterBlockBuilder

def filterBlockTooLarge : Error := Error.invalidArgument "filter block would exceed uint32 size"

def splitKeys (flattened : Bytes) : List Nat → List Bytes
  | start :: limit :: starts =>
      (flattened.drop start).take (limit - start) :: splitKeys flattened (limit :: starts)
  | _ => []

def generateFilter (builder : FilterBlockBuilder) : FilterBlockBuilder :=
  let filterOffsets := builder.filterOffsets ++ [builder.result.length % 2 ^ 32]
  if builder.keyStarts.isEmpty then { builder with filterOffsets }
  else
    let keyStarts := builder.keyStarts ++ [builder.keys.length]
    { builder with
      filterOffsets
      result := builder.policy.createFilter (splitKeys builder.keys keyStarts) builder.result
      keys := []
      keyStarts := [] }

/-- The loop of `StartBlock`: every round adds one filter. -/
def generateFilters : (rounds : Nat) → FilterBlockBuilder → FilterBlockBuilder
  | 0, builder => builder
  | rounds + 1, builder => generateFilters rounds builder.generateFilter

def startBlock (builder : FilterBlockBuilder) (blockOffset : Nat) : Result FilterBlockBuilder :=
  let filterIndex := blockOffset >>> filterRangeShift
  if filterIndex = builder.filterOffsets.length then .ok builder
  else
    let pendingSize :=
      if builder.keyStarts.isEmpty then 0 else builder.policy.filterSize builder.keyStarts.length
    let finishedSize := pendingSize + builder.result.length + 4 * filterIndex + filterTrailerSize
    if finishedSize > maximumFilterBlockSize then .error filterBlockTooLarge
    else .ok (builder.generateFilters (filterIndex - builder.filterOffsets.length))

def addKey (builder : FilterBlockBuilder) (key : Bytes) : Result FilterBlockBuilder :=
  let finishedSize := builder.policy.filterSize (builder.keyStarts.length + 1) +
    builder.result.length + 4 * (builder.filterOffsets.length + 1) + filterTrailerSize
  if finishedSize > maximumFilterBlockSize then .error filterBlockTooLarge
  else .ok { builder with
    keyStarts := builder.keyStarts ++ [builder.keys.length], keys := builder.keys ++ key }

def finish (builder : FilterBlockBuilder) : Bytes :=
  let builder := if builder.keyStarts.isEmpty then builder else builder.generateFilter
  let arrayOffset := builder.result.length % 2 ^ 32
  builder.result ++ builder.filterOffsets.flatMap (encodeFixed 4) ++ encodeFixed 4 arrayOffset ++
    [byteOf filterRangeShift]

end FilterBlockBuilder

/-! ## Reading -/

structure FilterBlockReader where
  contents : Bytes
  arrayOffset : Nat
  filterCount : Nat

namespace FilterBlockReader

/-- `FilterOffset`; behind the last filter this is the offset of the array. -/
def filterOffset (reader : FilterBlockReader) (index : Nat) : Nat :=
  decodeFixed ((reader.contents.drop (reader.arrayOffset + 4 * index)).take 4)

def offsetsAreValidFrom (reader : FilterBlockReader) : (left index previous : Nat) → Bool
  | 0, _, _ => true
  | left + 1, index, previous =>
      let offset := reader.filterOffset index
      if index = 0 ∧ offset ≠ 0 ∨ offset < previous then false
      else reader.offsetsAreValidFrom left (index + 1) offset

def offsetsAreValid (reader : FilterBlockReader) : Bool :=
  reader.offsetsAreValidFrom (reader.filterCount + 1) 0 0

/-- `DecodeFilterLayout` and `Create`. -/
def create (contents : Bytes) : Result FilterBlockReader :=
  if contents.length < filterTrailerSize then .error (Error.corruption "filter block is too short")
  else if (contents.getLastD 0).toNat ≠ filterRangeShift then
    .error (Error.corruption "filter block has an unsupported range size")
  else
    let offsetsEnd := contents.length - filterTrailerSize
    let arrayOffset := decodeFixed ((contents.drop offsetsEnd).take 4)
    if arrayOffset > offsetsEnd ∨ (offsetsEnd - arrayOffset) % 4 ≠ 0 then
      .error (Error.corruption "filter block offset array is malformed")
    else
      let reader : FilterBlockReader := ⟨contents, arrayOffset, (offsetsEnd - arrayOffset) / 4⟩
      if reader.offsetsAreValid = false then
        .error (Error.corruption "filter block offsets are invalid")
      else .ok reader

def keyMayMatch (reader : FilterBlockReader) (blockOffset : Nat) (key : Bytes) : Bool :=
  let index := blockOffset >>> filterRangeShift
  if index ≥ reader.filterCount then true
  else
    let start := reader.filterOffset index
    let limit := reader.filterOffset (index + 1)
    BloomFilterPolicy.keyMayMatch key ((reader.contents.drop start).take (limit - start))

end FilterBlockReader

end ModernLevelDB
