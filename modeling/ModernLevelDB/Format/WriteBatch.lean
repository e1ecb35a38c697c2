import ModernLevelDB.Base.Coding
import ModernLevelDB.Format.InternalKey

/-! The encoded write batch of `format/write_batch.h`: a fixed header (starting sequence, count)
followed by the records. `EncodedWriteBatch` keeps the string of the source split into its three
parts, so a batch shorter than its header cannot be built. -/
namespace ModernLevelDB
set_option autoImplicit false

/-- The size of `fixed64(first_sequence) || fixed32(count)`. -/
def writeBatchHeaderSize : Nat := 12

/-- The three parts of the encoding. -/
structure EncodedWriteBatch where
  sequence : UInt64
  count : UInt32
  records : List UInt8
  deriving DecidableEq, Repr

namespace EncodedWriteBatch

/-- `EncodedWriteBatch()` and the result of `Clear`: a zero header and no record. -/
def cleared : EncodedWriteBatch := ⟨0, 0, []⟩

/-- `encoded().size()`. -/
def encodedSize (batch : EncodedWriteBatch) : Nat := writeBatchHeaderSize + batch.records.length

def setSequence (batch : EncodedWriteBatch) (sequence : UInt64) : EncodedWriteBatch :=
  { batch with sequence }

/-- `Append`: the records of `source` after the own ones; an empty source changes nothing. -/
def append (batch source : EncodedWriteBatch) : EncodedWriteBatch :=
  if source.count = 0 then batch
  else { batch with records := batch.records ++ source.records, count := batch.count + source.count }

def encodeTrustedBatchRecord (kind : ValueKind) (key value : Bytes) : Bytes :=
  byteOf kind.code :: (encodeLengthPrefixedTrusted key ++
    if kind = .value then encodeLengthPrefixedTrusted value else [])

def appendRecord (batch : EncodedWriteBatch) (kind : ValueKind) (key value : Bytes) :
    EncodedWriteBatch :=
  { batch with
    records := batch.records ++ encodeTrustedBatchRecord kind key value
    count := batch.count + 1 }

def put (batch : EncodedWriteBatch) (key value : Bytes) : EncodedWriteBatch :=
  batch.appendRecord .value key value

def delete (batch : EncodedWriteBatch) (key : Bytes) : EncodedWriteBatch :=
  batch.appendRecord .deletion key []

def encoded (batch : EncodedWriteBatch) : Bytes :=
  encodeFixed 8 batch.sequence.toNat ++ encodeFixed 4 batch.count.toNat ++ batch.records

@[simp] theorem setSequence_sequence (batch : EncodedWriteBatch) (sequence : UInt64) :
    (batch.setSequence sequence).sequence = sequence := rfl

@[simp] theorem setSequence_setSequence (batch : EncodedWriteBatch) (a b : UInt64) :
    (batch.setSequence a).setSequence b = batch.setSequence b := rfl

@[simp] theorem setSequence_self (batch : EncodedWriteBatch) :
    batch.setSequence batch.sequence = batch := rfl

end EncodedWriteBatch
end ModernLevelDB
