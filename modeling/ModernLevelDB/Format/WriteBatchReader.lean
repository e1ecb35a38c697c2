import ModernLevelDB.Format.ByteKey
import ModernLevelDB.Format.WriteBatch

/-! # Reading write batches (`format/write_batch.h`)

`Open` walks over a whole batch with checked decoders; the entries are then read with trusted ones.
A batch is well formed when its records can be read one by one, as many as its header says. `Open`
accepts exactly these batches, and the entries are their writes with consecutive sequences. -/
namespace ModernLevelDB
set_option autoImplicit false

structure WriteBatchEntry where
  sequence : Nat
  kind : ValueKind
  key : Bytes
  value : Bytes
deriving DecidableEq, Repr

/-- The kind of a tag byte, if it is one (`IsValidValueKind`). -/
def ValueKind.ofTag (tag : UInt8) : Option ValueKind :=
  if tag.toNat = 0 then some .deletion
  else if tag.toNat = 1 then some .value
  else none

structure WriteBatchReader where
  remaining : Bytes
  sequence : Nat
  count : Nat
  index : Nat := 0

namespace WriteBatchReader

/-! ## Opening -/

def validateBatchRecord : Bytes → Result Bytes
  | [] => .error (Error.corruption "write batch count exceeds encoded records")
  | tag :: remaining =>
      match ValueKind.ofTag tag with
      | none => .error (Error.corruption "write batch has an unknown value kind")
      | some .value => do
          let (_, remaining) ← consumeLengthPrefixed remaining
          let (_, remaining) ← consumeLengthPrefixed remaining
          return remaining
      | some .deletion => do
          let (_, remaining) ← consumeLengthPrefixed remaining
          return remaining

def validateBatchRecords : (count : Nat) → Bytes → Status
  | 0, remaining =>
      if remaining ≠ [] then .error (Error.corruption "write batch has trailing bytes") else .ok ()
  | count + 1, remaining => do
      let remaining ← validateBatchRecord remaining
      validateBatchRecords count remaining

def openBatch (encoded : Bytes) : Result WriteBatchReader :=
  if encoded.length < writeBatchHeaderSize then
    .error (Error.corruption "write batch is shorter than its header")
  else do
    let sequence := decodeFixed (encoded.take 8)
    let count := decodeFixed ((encoded.drop 8).take 4)
    validateBatchRecords count (encoded.drop writeBatchHeaderSize)
    return { remaining := encoded.drop writeBatchHeaderSize, sequence, count }

/-! ## Entries -/

/-- `ConsumeEntry`; sequences are 64-bit numbers. -/
def consumeEntry (reader : WriteBatchReader) : WriteBatchEntry × WriteBatchReader :=
  let kind := (ValueKind.ofTag (reader.remaining.headD 0)).getD .deletion
  let (key, remaining) := consumeLengthPrefixedTrusted reader.remaining.tail
  let (value, remaining) :=
    if kind = .value then consumeLengthPrefixedTrusted remaining else ([], remaining)
  (⟨(reader.sequence + reader.index) % 2 ^ 64, kind, key, value⟩,
    { reader with remaining, index := reader.index + 1 })

def entriesFrom : (left : Nat) → WriteBatchReader → List WriteBatchEntry
  | 0, _ => []
  | left + 1, reader => reader.consumeEntry.1 :: entriesFrom left reader.consumeEntry.2

def entries (reader : WriteBatchReader) : List WriteBatchEntry :=
  reader.entriesFrom (reader.count - reader.index)

end WriteBatchReader

/-! ## Well-formed batches -/

/-- One write. -/
structure BatchWrite where
  kind : ValueKind
  key : Bytes
  value : Bytes
deriving DecidableEq, Repr

/-- What an encoding means. -/
structure Batch where
  sequence : Nat
  writes : List BatchWrite
deriving DecidableEq, Repr

/-- The records that the bytes behind a header hold. -/
inductive BatchBody : Bytes → List BatchWrite → Prop where
  | nil : BatchBody [] []
  | put {tag : UInt8} {body afterKey rest key value : Bytes} {writes : List BatchWrite}
      (htag : ValueKind.ofTag tag = some .value)
      (hkey : consumeLengthPrefixed body = .ok (key, afterKey))
      (hvalue : consumeLengthPrefixed afterKey = .ok (value, rest))
      (hrest : BatchBody rest writes) : BatchBody (tag :: body) (⟨.value, key, value⟩ :: writes)
  | delete {tag : UInt8} {body rest key : Bytes} {writes : List BatchWrite}
      (htag : ValueKind.ofTag tag = some .deletion)
      (hkey : consumeLengthPrefixed body = .ok (key, rest))
      (hrest : BatchBody rest writes) : BatchBody (tag :: body) (⟨.deletion, key, []⟩ :: writes)

/-- The bytes are this batch: `fixed64(sequence) || fixed32(count) || records`. -/
structure IsBatch (encoded : Bytes) (batch : Batch) : Prop where
  header : writeBatchHeaderSize ≤ encoded.length
  sequence : decodeFixed (encoded.take 8) = batch.sequence
  count : decodeFixed ((encoded.drop 8).take 4) = batch.writes.length
  body : BatchBody (encoded.drop writeBatchHeaderSize) batch.writes

variable {writes : List BatchWrite}

theorem BatchBody.unique {body : Bytes} (h : BatchBody body writes) :
    ∀ {writes' : List BatchWrite}, BatchBody body writes' → writes = writes' := by
  induction h with
  | nil =>
    intro writes' h'
    cases h'
    rfl
  | put htag hkey hvalue _ ih =>
    intro writes' h'
    cases h' with
    | put _ hkey' hvalue' hrest' =>
      cases hkey.symm.trans hkey'
      cases hvalue.symm.trans hvalue'
      rw [ih hrest']
    | delete htag' => cases htag.symm.trans htag'
  | delete htag hkey _ ih =>
    intro writes' h'
    cases h' with
    | put htag' => cases htag.symm.trans htag'
    | delete _ hkey' hrest' =>
      cases hkey.symm.trans hkey'
      rw [ih hrest']

theorem IsBatch.unique {encoded : Bytes} {batch batch' : Batch} (h : IsBatch encoded batch)
    (h' : IsBatch encoded batch') : batch = batch' := by
  obtain ⟨sequence, writes⟩ := batch
  obtain ⟨sequence', writes'⟩ := batch'
  obtain rfl : sequence = sequence' := h.sequence.symm.trans h'.sequence
  obtain rfl : writes = writes' := h.body.unique h'.body
  rfl

def entriesOf : (sequence : Nat) → List BatchWrite → List WriteBatchEntry
  | _, [] => []
  | sequence, write :: writes =>
      ⟨sequence, write.kind, write.key, write.value⟩ :: entriesOf (sequence + 1) writes

def Batch.entries (batch : Batch) : List WriteBatchEntry := entriesOf batch.sequence batch.writes

def WriteBatchEntry.wrapped (entry : WriteBatchEntry) : WriteBatchEntry :=
  { entry with sequence := entry.sequence % 2 ^ 64 }

namespace WriteBatchReader

variable {body : Bytes}

theorem validateBatchRecords_of_body {writes : List BatchWrite} (h : BatchBody body writes) :
    validateBatchRecords writes.length body = .ok () := by
  induction h with
  | nil => rfl
  | put htag hkey hvalue _ ih =>
    rw [List.length_cons, validateBatchRecords, validateBatchRecord, htag]
    dsimp only
    rw [hkey]
    show (consumeLengthPrefixed _ >>= _) >>= _ = _
    rw [hvalue]
    exact ih
  | delete htag hkey _ ih =>
    rw [List.length_cons, validateBatchRecords, validateBatchRecord, htag]
    dsimp only
    rw [hkey]
    exact ih

theorem body_of_validateBatchRecords (count : Nat) : ∀ {body : Bytes},
    validateBatchRecords count body = .ok () →
      ∃ writes, writes.length = count ∧ BatchBody body writes := by
  induction count with
  | zero =>
    intro body h
    rw [validateBatchRecords] at h
    split at h
    · cases h
    · next hnil =>
      obtain rfl := not_not.mp hnil
      exact ⟨[], rfl, .nil⟩
  | succ count ih =>
    intro body h
    obtain ⟨rest, hrecord, h⟩ := Result.bind_eq_ok.mp h
    obtain ⟨writes, hlength, hbody⟩ := ih h
    cases body with
    | nil => cases hrecord
    | cons tag body =>
      rw [validateBatchRecord] at hrecord
      split at hrecord
      · cases hrecord
      · next htag =>
        obtain ⟨⟨key, afterKey⟩, hkey, hrecord⟩ := Result.bind_eq_ok.mp hrecord
        obtain ⟨⟨value, afterValue⟩, hvalue, hrecord⟩ := Result.bind_eq_ok.mp hrecord
        obtain rfl := Except.ok.inj hrecord
        exact ⟨_, congrArg (· + 1) hlength, .put htag hkey hvalue hbody⟩
      · next htag =>
        obtain ⟨⟨key, afterKey⟩, hkey, hrecord⟩ := Result.bind_eq_ok.mp hrecord
        obtain rfl := Except.ok.inj hrecord
        exact ⟨_, congrArg (· + 1) hlength, .delete htag hkey hbody⟩

theorem openBatch_of_isBatch {encoded : Bytes} {batch : Batch} (h : IsBatch encoded batch) :
    openBatch encoded = .ok {
      remaining := encoded.drop writeBatchHeaderSize
      sequence := batch.sequence
      count := batch.writes.length } := by
  rw [openBatch, if_neg (Nat.not_lt.mpr h.header), h.sequence, h.count]
  dsimp only
  rw [validateBatchRecords_of_body h.body]
  rfl

variable {reader : WriteBatchReader}

theorem isBatch_of_openBatch {encoded : Bytes} (h : openBatch encoded = .ok reader) :
    ∃ batch, IsBatch encoded batch := by
  rw [openBatch] at h
  split at h
  · cases h
  · next hheader =>
    obtain ⟨_, hrecords, _⟩ := Result.bind_eq_ok.mp h
    obtain ⟨writes, hlength, hbody⟩ := body_of_validateBatchRecords _ hrecords
    exact ⟨⟨_, writes⟩, Nat.le_of_not_lt hheader, rfl, hlength.symm, hbody⟩

theorem consumeEntry_put {tag : UInt8} {afterKey rest key value : Bytes}
    (hremaining : reader.remaining = tag :: body) (htag : ValueKind.ofTag tag = some .value)
    (hkey : consumeLengthPrefixed body = .ok (key, afterKey))
    (hvalue : consumeLengthPrefixed afterKey = .ok (value, rest)) :
    reader.consumeEntry = (⟨(reader.sequence + reader.index) % 2 ^ 64, .value, key, value⟩,
      { reader with remaining := rest, index := reader.index + 1 }) := by
  rw [consumeEntry, hremaining, List.headD_cons, htag, List.tail_cons,
    consumeLengthPrefixedTrusted_eq hkey]
  dsimp only [Option.getD_some]
  rw [if_pos rfl, consumeLengthPrefixedTrusted_eq hvalue]

theorem consumeEntry_delete {tag : UInt8} {rest key : Bytes}
    (hremaining : reader.remaining = tag :: body) (htag : ValueKind.ofTag tag = some .deletion)
    (hkey : consumeLengthPrefixed body = .ok (key, rest)) :
    reader.consumeEntry = (⟨(reader.sequence + reader.index) % 2 ^ 64, .deletion, key, []⟩,
      { reader with remaining := rest, index := reader.index + 1 }) := by
  rw [consumeEntry, hremaining, List.headD_cons, htag, List.tail_cons,
    consumeLengthPrefixedTrusted_eq hkey]
  dsimp only [Option.getD_some]
  rw [if_neg (by decide)]

theorem entriesFrom_wrapped {writes : List BatchWrite} (h : BatchBody body writes) :
    ∀ reader : WriteBatchReader, reader.remaining = body → reader.entriesFrom writes.length =
      (entriesOf (reader.sequence + reader.index) writes).map WriteBatchEntry.wrapped := by
  induction h with
  | nil => exact fun _ _ => rfl
  | put htag hkey hvalue _ ih =>
    intro reader hremaining
    rw [List.length_cons, entriesFrom, consumeEntry_put hremaining htag hkey hvalue, ih _ rfl]
    rfl
  | delete htag hkey _ ih =>
    intro reader hremaining
    rw [List.length_cons, entriesFrom, consumeEntry_delete hremaining htag hkey, ih _ rfl]
    rfl

end WriteBatchReader

/-! ## Sequences of a batch -/

theorem sequence_entriesOf : ∀ {sequence : Nat} {entry : WriteBatchEntry},
    entry ∈ entriesOf sequence writes →
      sequence ≤ entry.sequence ∧ entry.sequence < sequence + writes.length := by
  induction writes with
  | nil => exact fun h => nomatch h
  | cons write writes ih =>
    intro sequence entry h
    rw [List.length_cons]
    rcases List.mem_cons.mp h with rfl | h
    · exact ⟨Nat.le_refl _, by dsimp only; omega⟩
    · have hrest := ih h
      omega

theorem entriesOf_eq_nil {sequence : Nat} : entriesOf sequence writes = [] ↔ writes = [] := by
  cases writes with
  | nil => exact ⟨fun _ => rfl, fun _ => rfl⟩
  | cons write writes => exact ⟨(fun h => nomatch h), (fun h => nomatch h)⟩

namespace WriteBatchReader

theorem entriesFrom_eq {body : Bytes} {writes : List BatchWrite} (h : BatchBody body writes)
    (reader : WriteBatchReader) (hremaining : reader.remaining = body)
    (hbound : reader.sequence + reader.index + writes.length ≤ 2 ^ 64) :
    reader.entriesFrom writes.length = entriesOf (reader.sequence + reader.index) writes := by
  have hwrapped : ∀ entry ∈ entriesOf (reader.sequence + reader.index) writes,
      entry.wrapped = entry := by
    intro entry hentry
    have hsequence := sequence_entriesOf hentry
    rw [WriteBatchEntry.wrapped, Nat.mod_eq_of_lt (by omega)]
  rw [entriesFrom_wrapped h reader hremaining, List.map_congr_left hwrapped, List.map_id']

end WriteBatchReader
end ModernLevelDB
