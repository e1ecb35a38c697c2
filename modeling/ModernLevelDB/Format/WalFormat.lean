import ModernLevelDB.Base.Coding

/-! # Physical WAL records (`format/wal_format.h`, `base/crc32c.h`)

A logical record is cut into fragments that never cross a 32 KiB block. A fragment's header is the
masked CRC-32C of its type byte and payload, the payload length and the type. The checksum function
itself comes from a library outside the repository: it is a parameter. -/
namespace ModernLevelDB
set_option autoImplicit false

/-! ## Checksums -/

abbrev CrcExtend := UInt32 → Bytes → UInt32

def extendCrc32c (extend : CrcExtend) (crc : UInt32) (input : Bytes) : UInt32 :=
  if input = [] then crc else extend crc input

def crc32c (extend : CrcExtend) (input : Bytes) : UInt32 := extendCrc32c extend 0 input

def maskDelta : UInt32 := 0xa282ead8

/-- Rotates right by 15 bits and adds a constant. -/
def maskCrc32c (crc : UInt32) : UInt32 := ((crc >>> 15) ||| (crc <<< 17)) + maskDelta

def unmaskCrc32c (masked : UInt32) : UInt32 :=
  ((masked - maskDelta) <<< 15) ||| ((masked - maskDelta) >>> 17)

theorem rotate_rotate (c : UInt32) :
    (((c >>> 15) ||| (c <<< 17)) <<< 15) ||| (((c >>> 15) ||| (c <<< 17)) >>> 17) = c := by
  apply UInt32.toBitVec_inj.mp
  apply BitVec.eq_of_getLsbD_eq
  intro i hi
  have hhigh : c.toBitVec.getLsbD (15 + (17 + i)) = false :=
    BitVec.getLsbD_of_ge _ _ (by omega)
  simp only [UInt32.toBitVec_or, UInt32.toBitVec_shiftLeft, UInt32.toBitVec_shiftRight]
  simp [hhigh]
  by_cases h : i < 15
  · simp [h, show 17 + i < 32 by omega]
  · simp [h, show 15 + (i - 15) = i by omega, show i - 15 < 17 by omega,
      show ¬ 17 + i < 32 by omega, hi]

theorem unmaskCrc32c_maskCrc32c (crc : UInt32) : unmaskCrc32c (maskCrc32c crc) = crc := by
  unfold unmaskCrc32c maskCrc32c
  rw [UInt32.add_sub_cancel]
  exact rotate_rotate crc

/-! ## Fragments -/

def walBlockSize : Nat := 32 * 1024
def walHeaderSize : Nat := 7
def maximumWalPayload : Nat := walBlockSize - walHeaderSize

inductive WalRecordType where
  | zero
  | full
  | first
  | middle
  | last
deriving DecidableEq, Repr

def WalRecordType.code : WalRecordType → Nat
  | .zero => 0
  | .full => 1
  | .first => 2
  | .middle => 3
  | .last => 4

def WalRecordType.ofCode : Nat → Option WalRecordType
  | 0 => some .zero
  | 1 => some .full
  | 2 => some .first
  | 3 => some .middle
  | 4 => some .last
  | _ => none

def selectFragmentType (isFirst isLast : Bool) : WalRecordType :=
  if isFirst && isLast then .full
  else if isFirst then .first
  else if isLast then .last
  else .middle

def fragmentCrc (extend : CrcExtend) (typeByte : UInt8) (payload : Bytes) : UInt32 :=
  extendCrc32c extend (crc32c extend [typeByte]) payload

def encodeHeader (extend : CrcExtend) (type : WalRecordType) (payload : Bytes) : Bytes :=
  encodeFixed 4 (maskCrc32c (fragmentCrc extend (byteOf type.code) payload)).toNat ++
    [byteOf payload.length, byteOf (payload.length / 256), byteOf type.code]

structure WalFragment where
  paddingBefore : Nat
  header : Bytes
  payload : Bytes

def WalFragment.encoded (fragment : WalFragment) : Bytes :=
  List.replicate fragment.paddingBefore 0 ++ fragment.header ++ fragment.payload

/-- `WalFragmenter::Cursor`: the fragments of what remains of a logical record, and the offset in
the block behind the last one. Every fragment but the first one of a record takes a byte at least, so
`fuel` is never used up when it exceeds the remaining length by two. -/
def fragmentsFrom (extend : CrcExtend) :
    (fuel : Nat) → (blockOffset : Nat) → (isFirst : Bool) → Bytes → List WalFragment × Nat
  | 0, blockOffset, _, _ => ([], blockOffset)
  | fuel + 1, blockOffset, isFirst, remaining =>
      let left := walBlockSize - blockOffset
      let padding := if walHeaderSize ≤ left then 0 else left
      let offset := if walHeaderSize ≤ left then blockOffset else 0
      let size := min remaining.length (walBlockSize - offset - walHeaderSize)
      let isLast := size == remaining.length
      let payload := remaining.take size
      let fragment : WalFragment :=
        { paddingBefore := padding, payload := payload
          header := encodeHeader extend (selectFragmentType isFirst isLast) payload }
      let next := (offset + walHeaderSize + size) % walBlockSize
      if isLast then ([fragment], next)
      else
        let (rest, finalOffset) := fragmentsFrom extend fuel next false (remaining.drop size)
        (fragment :: rest, finalOffset)

def fragment (extend : CrcExtend) (blockOffset : Nat) (record : Bytes) : List WalFragment × Nat :=
  fragmentsFrom extend (record.length + 2) blockOffset true record

/-! ## Decoding one fragment -/

inductive WalDecodeFailure where
  | truncatedHeader
  | truncatedPayload
  | payloadTooLarge
  | checksumMismatch
  | unknownType
deriving DecidableEq, Repr

/-- `WalDecodeError`: the number of bytes that the reader skips when only the record is lost, none
when the rest of the block is. -/
structure WalDecodeError where
  error : Error
  failure : WalDecodeFailure
  skip : Option Nat := none

/-- `WalDecodeOutcome`: a fragment, or the zero marker that ends a block. -/
inductive WalDecodeOutcome where
  | fragment (type : WalRecordType) (payload : Bytes) (encodedSize : Nat)
  | endOfBlock

def readWalPayloadSize (encoded : Bytes) : Except WalDecodeError Nat :=
  if encoded.length < walHeaderSize then
    .error ⟨Error.corruption "WAL physical record has a truncated header", .truncatedHeader, none⟩
  else
    let payloadSize := decodeFixed ((encoded.drop 4).take 2)
    if maximumWalPayload < payloadSize then
      .error ⟨Error.corruption "WAL physical record payload exceeds block capacity",
        .payloadTooLarge, none⟩
    else if encoded.length < walHeaderSize + payloadSize then
      .error ⟨Error.corruption "WAL physical record has a truncated payload", .truncatedPayload, none⟩
    else .ok payloadSize

def walChecksumMatches (extend : CrcExtend) (encoded payload : Bytes) : Bool :=
  unmaskCrc32c (UInt32.ofNat (decodeFixed (encoded.take 4))) ==
    fragmentCrc extend (encoded.getD 6 0) payload

/-- `DecodeWalFragment`, which the reader always asks to verify the checksum. -/
def decodeWalFragment (extend : CrcExtend) (encoded : Bytes) :
    Except WalDecodeError WalDecodeOutcome := do
  let payloadSize ← readWalPayloadSize encoded
  let encodedSize := walHeaderSize + payloadSize
  let typeByte := encoded.getD 6 0
  if typeByte = 0 ∧ payloadSize = 0 then return .endOfBlock
  let payload := (encoded.drop walHeaderSize).take payloadSize
  if !walChecksumMatches extend encoded payload then
    throw ⟨Error.corruption "WAL physical record checksum mismatch", .checksumMismatch, none⟩
  match WalRecordType.ofCode typeByte.toNat with
  | none | some .zero =>
      throw ⟨Error.corruption "WAL physical record has an unknown type", .unknownType,
        some encodedSize⟩
  | some type => return .fragment type payload encodedSize

end ModernLevelDB
