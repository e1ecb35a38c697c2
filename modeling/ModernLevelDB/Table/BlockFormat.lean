import ModernLevelDB.Format.WalFormat

/-! # Stored blocks and the footer (`table/block_format.h`, `table/compression.h`)

A block is stored with a trailer: the type of its compression and a checksum. The compression functions
come from libraries outside the repository: they are parameters. -/
namespace ModernLevelDB
set_option autoImplicit false

/-! ## Handles and the footer -/

structure BlockHandle where
  offset : Nat
  size : Nat
deriving DecidableEq, Repr

def blockTrailerSize : Nat := 5
def footerSize : Nat := 48
def footerHandlesSize : Nat := 40
def tableMagicNumber : Nat := 0xdb4775248b80fb57

def encodeBlockHandle (handle : BlockHandle) : Bytes :=
  encodeVarint64 handle.offset ++ encodeVarint64 handle.size

def consumeBlockHandle (input : Bytes) : Result (BlockHandle × Bytes) :=
  match consumeVarint64 input with
  | .error _ => .error (Error.corruption "block handle offset is malformed")
  | .ok (offset, remaining) =>
      match consumeVarint64 remaining with
      | .error _ => .error (Error.corruption "block handle size is malformed")
      | .ok (size, remaining) => .ok (⟨offset, size⟩, remaining)

structure Footer where
  metaindex : BlockHandle
  index : BlockHandle
deriving DecidableEq, Repr

def encodeFooter (footer : Footer) : Bytes :=
  let handles := encodeBlockHandle footer.metaindex ++ encodeBlockHandle footer.index
  handles ++ List.replicate (footerHandlesSize - handles.length) 0 ++ encodeFixed 8 tableMagicNumber

def decodeFooterHandles (handles : Bytes) : Result (Footer × Bytes) := do
  let (metaindex, handles) ← consumeBlockHandle handles
  let (index, handles) ← consumeBlockHandle handles
  return (⟨metaindex, index⟩, handles)

def decodeFooter (encoded : Bytes) : Result Footer :=
  if decodeFixed (encoded.drop footerHandlesSize) ≠ tableMagicNumber then
    .error (Error.corruption "table footer has a bad magic number")
  else do
    let (footer, padding) ← decodeFooterHandles (encoded.take footerHandlesSize)
    if padding.any (· != 0) then .error (Error.corruption "table footer has nonzero padding")
    else .ok footer

/-! ## Compression -/

inductive BlockCompression where
  | none
  | snappy
  | zstd
deriving DecidableEq, Repr

def BlockCompression.code : BlockCompression → UInt8
  | .none => 0
  | .snappy => 1
  | .zstd => 2

def decodeCompressionType (encoded : UInt8) : Option BlockCompression :=
  if encoded = 0 then some .none
  else if encoded = 1 then some .snappy
  else if encoded = 2 then some .zstd
  else none

/-- What the libraries for one type of compression do: they may refuse to compress or to decompress. -/
structure Codec where
  compress : BlockCompression → (level : Int) → Bytes → Option Bytes
  decompress : BlockCompression → Bytes → Result Bytes

def compressionIsWorthwhile (rawSize compressedSize : Nat) : Bool :=
  compressedSize < rawSize - rawSize / 8

/-- `TryCompressBlock`: nothing means that the block is stored raw. -/
def tryCompressBlock (codec : Codec) (raw : Bytes) (requested : BlockCompression) (level : Int) :
    Option Bytes :=
  if raw.isEmpty || requested = .none then none
  else
    match codec.compress requested level raw with
    | none => none
    | some compressed =>
        if compressionIsWorthwhile raw.length compressed.length then some compressed else none

def validateCompressionOptions (type : BlockCompression) (level : Int) : Status :=
  if type = .none ∨ type = .snappy then .ok ()
  else if level < -5 ∨ level > 22 then
    .error (Error.invalidArgument "Zstd compression level is outside [-5, 22]")
  else .ok ()

/-! ## Stored blocks -/

section Stored

variable (extend : CrcExtend)

def blockChecksum (contents : Bytes) (type : UInt8) : UInt32 :=
  maskCrc32c (extendCrc32c extend (crc32c extend contents) [type])

def encodeBlockTrailer (contents : Bytes) (type : BlockCompression) : Bytes :=
  type.code :: encodeFixed 4 (blockChecksum extend contents type.code).toNat

def storedBlockChecksumMatches (stored : Bytes) (contentsSize : Nat) : Bool :=
  decodeFixed (stored.drop (stored.length - 4)) ==
    (maskCrc32c (crc32c extend (stored.take (contentsSize + 1)))).toNat

def validateStoredBlock (stored : Bytes) : Result (Bytes × BlockCompression) :=
  if stored.length < blockTrailerSize then
    .error (Error.corruption "stored block is shorter than its trailer")
  else
    let contentsSize := stored.length - blockTrailerSize
    if storedBlockChecksumMatches extend stored contentsSize = false then
      .error (Error.corruption "block checksum mismatch")
    else
      match decodeCompressionType (stored.getD contentsSize 0) with
      | none => .error (Error.corruption "block has an unknown compression type")
      | some compression => .ok (stored.take contentsSize, compression)

/-- `BlockContents`: decoded bytes, which a block owns or borrows from a mapped file. -/
structure BlockContents where
  data : Bytes
  cacheable : Bool

/-- `DecodeStoredBlock` of a copy, or of a view of the file: raw contents of a view stay borrowed. -/
def decodeStoredBlock (codec : Codec) (borrowed : Bool) (stored : Bytes) : Result BlockContents := do
  let (contents, compression) ← validateStoredBlock extend stored
  if compression = .none then .ok ⟨contents, !borrowed⟩
  else do
    let decompressed ← codec.decompress compression contents
    .ok ⟨decompressed, true⟩

end Stored

end ModernLevelDB
