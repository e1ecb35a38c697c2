import ModernLevelDB.Format.WriteBatchReader

/-! # Batches that calls build (`format/write_batch.cc`)

Any number of encoded batches, and calls that change one of them or append one to another. Each batch
encodes the writes of its calls, so both ways to open it read these writes. The last part is about
all byte strings: `Open` accepts a header with as many well-formed records as it counts, and the reads
of the unchecked iteration then fall inside the input. -/
namespace ModernLevelDB
set_option autoImplicit false

/-! ## Records -/

/-- An encoding of one write, as the reader accepts it. -/
inductive IsRecord : Bytes → BatchWrite → Prop where
  | put {tag : UInt8} {keyWord valueWord key value : Bytes} (htag : tag.toNat = 1)
      (hkey : IsLengthPrefixed keyWord key) (hvalue : IsLengthPrefixed valueWord value) :
      IsRecord (tag :: (keyWord ++ valueWord)) ⟨.value, key, value⟩
  | delete {tag : UInt8} {keyWord key : Bytes} (htag : tag.toNat = 0)
      (hkey : IsLengthPrefixed keyWord key) : IsRecord (tag :: keyWord) ⟨.deletion, key, []⟩

/-- A sequence in eight bytes, a count in four, and that many records. -/
structure WellFormedBatch (encoded : Bytes) (sequence : Nat) (writes : List BatchWrite) : Prop where
  split : ∃ sequenceWord countWord records, encoded = sequenceWord ++ countWord ++ List.flatten records ∧
    sequenceWord.length = 8 ∧ decodeFixed sequenceWord = sequence ∧
    countWord.length = 4 ∧ decodeFixed countWord = records.length ∧
    List.Forall₂ IsRecord records writes

theorem ofTag_value {tag : UInt8} : ValueKind.ofTag tag = some .value ↔ tag.toNat = 1 := by
  unfold ValueKind.ofTag
  split
  · next h => simp [h]
  · split
    · next h => simp [h]
    · next h => simp [h]

theorem ofTag_deletion {tag : UInt8} : ValueKind.ofTag tag = some .deletion ↔ tag.toNat = 0 := by
  unfold ValueKind.ofTag
  split
  · next h => simp [h]
  · next h => split <;> simp [h]

variable {writes : List BatchWrite}

theorem BatchBody.cons_record {record body : Bytes} {write : BatchWrite}
    (hrecord : IsRecord record write) (hbody : BatchBody body writes) :
    BatchBody (record ++ body) (write :: writes) := by
  cases hrecord with
  | put htag hkey hvalue =>
    rw [List.cons_append, List.append_assoc]
    exact .put (ofTag_value.mpr htag) (consumeLengthPrefixed_of_word hkey _)
      (consumeLengthPrefixed_of_word hvalue _) hbody
  | delete htag hkey =>
    exact .delete (ofTag_deletion.mpr htag) (consumeLengthPrefixed_of_word hkey _) hbody

theorem batchBody_iff {body : Bytes} :
    BatchBody body writes ↔ ∃ records, body = List.flatten records ∧
      List.Forall₂ IsRecord records writes := by
  constructor
  · intro h
    induction h with
    | nil => exact ⟨[], rfl, .nil⟩
    | put htag hkey hvalue _ ih =>
      obtain ⟨records, rfl, hrecords⟩ := ih
      obtain ⟨valueWord, hvalueWord, rfl⟩ := consumeLengthPrefixed_eq_ok.mp hvalue
      obtain ⟨keyWord, hkeyWord, rfl⟩ := consumeLengthPrefixed_eq_ok.mp hkey
      refine ⟨(_ :: (keyWord ++ valueWord)) :: records, ?_,
        .cons (.put (ofTag_value.mp htag) hkeyWord hvalueWord) hrecords⟩
      rw [List.flatten_cons, List.cons_append, List.append_assoc]
    | delete htag hkey _ ih =>
      obtain ⟨records, rfl, hrecords⟩ := ih
      obtain ⟨keyWord, hkeyWord, rfl⟩ := consumeLengthPrefixed_eq_ok.mp hkey
      exact ⟨(_ :: keyWord) :: records, rfl,
        .cons (.delete (ofTag_deletion.mp htag) hkeyWord) hrecords⟩
  · rintro ⟨records, rfl, hrecords⟩
    induction hrecords with
    | nil => exact .nil
    | cons hrecord _ ih => exact ih.cons_record hrecord

theorem isBatch_iff {encoded : Bytes} {batch : Batch} :
    IsBatch encoded batch ↔ WellFormedBatch encoded batch.sequence batch.writes := by
  constructor
  · intro h
    obtain ⟨records, hrecords, hforall⟩ := batchBody_iff.mp h.body
    have hheader := h.header
    unfold writeBatchHeaderSize at hheader hrecords
    refine ⟨encoded.take 8, (encoded.drop 8).take 4, records, ?_, ?_, h.sequence, ?_, ?_, hforall⟩
    · rw [← hrecords, ← List.drop_drop (i := 4) (j := 8), List.append_assoc, List.take_append_drop,
        List.take_append_drop]
    · rw [List.length_take]
      omega
    · rw [List.length_take, List.length_drop]
      omega
    · rw [h.count, hforall.length_eq]
  · rintro ⟨sequenceWord, countWord, records, rfl, hsequenceWord, hsequence, hcountWord, hcount,
      hforall⟩
    have hdrop : (sequenceWord ++ countWord ++ records.flatten).drop 8 =
        countWord ++ records.flatten := by
      rw [List.append_assoc, List.drop_left' hsequenceWord]
    refine ⟨?_, ?_, ?_, ?_⟩
    · rw [writeBatchHeaderSize, List.length_append, List.length_append]
      omega
    · rw [List.append_assoc, List.take_left' hsequenceWord, hsequence]
    · rw [hdrop, List.take_left' hcountWord, hcount, hforall.length_eq]
    · rw [writeBatchHeaderSize, ← List.drop_drop (i := 4) (j := 8), hdrop,
        List.drop_left' hcountWord]
      exact batchBody_iff.mpr ⟨records, rfl, hforall⟩

/-! ## The unchecked iteration with its reads checked -/

namespace WriteBatchReader

def openTrusted (batch : EncodedWriteBatch) : WriteBatchReader where
  remaining := batch.encoded.drop writeBatchHeaderSize
  sequence := batch.sequence.toNat
  count := batch.count.toNat

def readEntry (reader : WriteBatchReader) : Option (WriteBatchEntry × WriteBatchReader) := do
  let tag ← reader.remaining.head?
  let kind := (ValueKind.ofTag tag).getD .deletion
  let (key, remaining) ← readLengthPrefixedTrusted reader.remaining.tail
  let (value, remaining) ←
    if kind = .value then readLengthPrefixedTrusted remaining else some ([], remaining)
  return (⟨(reader.sequence + reader.index) % 2 ^ 64, kind, key, value⟩,
    { reader with remaining, index := reader.index + 1 })

def readEntriesFrom : (left : Nat) → WriteBatchReader → Option (List WriteBatchEntry × Bytes)
  | 0, reader => some ([], reader.remaining)
  | left + 1, reader => do
      let (entry, reader) ← reader.readEntry
      let (entries, rest) ← readEntriesFrom left reader
      return (entry :: entries, rest)

def readEntries (reader : WriteBatchReader) : Option (List WriteBatchEntry × Bytes) :=
  reader.readEntriesFrom (reader.count - reader.index)

variable {reader : WriteBatchReader}

variable {body rest : Bytes}

theorem readEntriesFrom_succ {left : Nat} {entries : List WriteBatchEntry}
    (h : reader.readEntry = some reader.consumeEntry)
    (hrest : reader.consumeEntry.2.readEntriesFrom left = some (entries, rest)) :
    reader.readEntriesFrom (left + 1) = some (reader.consumeEntry.1 :: entries, rest) := by
  rw [readEntriesFrom, h]
  simp [hrest]

theorem readEntriesFrom_eq {writes : List BatchWrite} (h : BatchBody body writes) :
    ∀ reader : WriteBatchReader, reader.remaining = body →
      reader.readEntriesFrom writes.length = some (reader.entriesFrom writes.length, []) := by
  induction h with
  | nil =>
    intro reader hremaining
    rw [List.length_nil, readEntriesFrom, hremaining, entriesFrom]
  | put htag hkey hvalue _ ih =>
    intro reader hremaining
    have hconsume := consumeEntry_put hremaining htag hkey hvalue
    refine readEntriesFrom_succ ?_ ?_
    · simp [hconsume, readEntry, hremaining, htag, readLengthPrefixedTrusted_eq hkey,
        readLengthPrefixedTrusted_eq hvalue]
    · rw [hconsume]
      exact ih _ rfl
  | delete htag hkey _ ih =>
    intro reader hremaining
    have hconsume := consumeEntry_delete hremaining htag hkey
    refine readEntriesFrom_succ ?_ ?_
    · simp [hconsume, readEntry, hremaining, htag, readLengthPrefixedTrusted_eq hkey]
    · rw [hconsume]
      exact ih _ rfl

end WriteBatchReader

/-! ## Calls -/

/-- A call on one of the batches; `append` takes the records of another one, or of the same. -/
inductive BatchCall (ι : Type*) where
  | put (i : ι) (key value : Bytes)
  | delete (i : ι) (key : Bytes)
  | append (i source : ι)
  | setSequence (i : ι) (sequence : UInt64)
  | clear (i : ι)

namespace BatchCall

variable {ι : Type*} [DecidableEq ι]

def run (batches : ι → EncodedWriteBatch) : BatchCall ι → ι → EncodedWriteBatch
  | .put i key value => Function.update batches i ((batches i).put key value)
  | .delete i key => Function.update batches i ((batches i).delete key)
  | .append i source => Function.update batches i ((batches i).append (batches source))
  | .setSequence i sequence => Function.update batches i ((batches i).setSequence sequence)
  | .clear i => Function.update batches i .cleared

def meaning (batches : ι → Batch) : BatchCall ι → ι → Batch
  | .put i key value => Function.update batches i
      { batches i with writes := (batches i).writes ++ [⟨.value, key, value⟩] }
  | .delete i key => Function.update batches i
      { batches i with writes := (batches i).writes ++ [⟨.deletion, key, []⟩] }
  | .append i source => Function.update batches i
      { batches i with writes := (batches i).writes ++ (batches source).writes }
  | .setSequence i sequence => Function.update batches i { batches i with sequence := sequence.toNat }
  | .clear i => Function.update batches i ⟨0, []⟩

/-- Lengths and counts stay within their 32-bit fields. -/
def Fits (batches : ι → Batch) : BatchCall ι → Prop
  | .put i key value =>
      key.length < 2 ^ 32 ∧ value.length < 2 ^ 32 ∧ (batches i).writes.length + 1 < 2 ^ 32
  | .delete i key => key.length < 2 ^ 32 ∧ (batches i).writes.length + 1 < 2 ^ 32
  | .append i source => (batches i).writes.length + (batches source).writes.length < 2 ^ 32
  | .setSequence _ _ => True
  | .clear _ => True

/-- Every call fits where it is made. -/
def AllFit : (batches : ι → Batch) → List (BatchCall ι) → Prop
  | _, [] => True
  | batches, call :: calls => call.Fits batches ∧ AllFit (call.meaning batches) calls

instance (batches : ι → Batch) : (call : BatchCall ι) → Decidable (call.Fits batches)
  | .put _ _ _ => inferInstanceAs (Decidable (_ ∧ _ ∧ _))
  | .delete _ _ => inferInstanceAs (Decidable (_ ∧ _))
  | .append _ _ => inferInstanceAs (Decidable (_ < _))
  | .setSequence _ _ => isTrue trivial
  | .clear _ => isTrue trivial

instance decidableAllFit : (batches : ι → Batch) → (calls : List (BatchCall ι)) →
    Decidable (AllFit batches calls)
  | _, [] => isTrue trivial
  | batches, call :: calls =>
      haveI := decidableAllFit (call.meaning batches) calls
      inferInstanceAs (Decidable (_ ∧ _))

def runAll (calls : List (BatchCall ι)) : ι → EncodedWriteBatch :=
  calls.foldl run (fun _ => .cleared)

def meaningAll (calls : List (BatchCall ι)) : ι → Batch := calls.foldl meaning (fun _ => ⟨0, []⟩)

end BatchCall

/-! ## What the bytes of a batch say -/

/-- A write that the format can hold. -/
structure BatchWrite.Encodable (write : BatchWrite) : Prop where
  key : write.key.length < 2 ^ 32
  value : write.value.length < 2 ^ 32
  deletion : write.kind = .deletion → write.value = []

def BatchWrite.record (write : BatchWrite) : Bytes :=
  EncodedWriteBatch.encodeTrustedBatchRecord write.kind write.key write.value

/-- The bytes and the counters of a builder are those of the batch. -/
structure EncodedWriteBatch.Encodes (encoded : EncodedWriteBatch) (batch : Batch) : Prop where
  sequence : encoded.sequence.toNat = batch.sequence
  count : encoded.count.toNat = batch.writes.length
  records : encoded.records = batch.writes.flatMap BatchWrite.record
  encodable : ∀ write ∈ batch.writes, write.Encodable

theorem isVarint_encodeVarint : ∀ (fuel value : Nat), value < 128 ^ (fuel + 1) →
    IsVarint fuel (encodeVarint fuel value) ∧ varintValue (encodeVarint fuel value) = value := by
  intro fuel
  induction fuel with
  | zero =>
    intro value h
    have hsmall : value < 128 := by simpa using h
    refine ⟨.last ?_, ?_⟩
    · rw [toNat_byteOf]
      omega
    · rw [encodeVarint, varintValue, varintValue, toNat_byteOf]
      omega
  | succ fuel ih =>
    intro value h
    rw [encodeVarint]
    split
    · refine ⟨.last ?_, ?_⟩
      · rw [toNat_byteOf]
        omega
      · rw [varintValue, varintValue, toNat_byteOf]
        omega
    · obtain ⟨hword, hvalue⟩ := ih (value / 128) (by rw [pow_succ] at h; omega)
      refine ⟨.more ?_ hword, ?_⟩
      · rw [toNat_byteOf]
        omega
      · rw [varintValue, hvalue, toNat_byteOf]
        omega

theorem isLengthPrefixed_encode {value : Bytes} (h : value.length < 2 ^ 32) :
    IsLengthPrefixed (encodeLengthPrefixedTrusted value) value := by
  obtain ⟨hword, hvalue⟩ := isVarint_encodeVarint 4 value.length (by omega)
  rw [encodeLengthPrefixedTrusted, Nat.mod_eq_of_lt h]
  exact ⟨encodeVarint32 value.length, hword, by rw [encodeVarint32, hvalue, Nat.mod_eq_of_lt h], rfl⟩

theorem BatchWrite.Encodable.isRecord {write : BatchWrite} (h : write.Encodable) :
    IsRecord write.record write := by
  obtain ⟨kind, key, value⟩ := write
  cases kind with
  | value => exact .put rfl (isLengthPrefixed_encode h.key) (isLengthPrefixed_encode h.value)
  | deletion =>
    obtain rfl : value = [] := h.deletion rfl
    show IsRecord (byteOf 0 :: (encodeLengthPrefixedTrusted key ++ [])) _
    rw [List.append_nil]
    exact .delete rfl (isLengthPrefixed_encode h.key)

namespace EncodedWriteBatch

variable {encoded source : EncodedWriteBatch} {batch other : Batch}

theorem Encodes.isBatch (h : encoded.Encodes batch) : IsBatch encoded.encoded batch := by
  refine isBatch_iff.mpr ⟨encodeFixed 8 encoded.sequence.toNat, encodeFixed 4 encoded.count.toNat,
    batch.writes.map BatchWrite.record, ?_, length_encodeFixed _ _, ?_, length_encodeFixed _ _, ?_, ?_⟩
  · rw [EncodedWriteBatch.encoded, h.records, List.flatMap_def]
  · rw [decodeFixed_encodeFixed, ← h.sequence]
    exact Nat.mod_eq_of_lt encoded.sequence.toNat_lt
  · rw [decodeFixed_encodeFixed, List.length_map, ← h.count]
    exact Nat.mod_eq_of_lt encoded.count.toNat_lt
  · rw [List.forall₂_map_left_iff, List.forall₂_same]
    exact fun write hwrite => (h.encodable write hwrite).isRecord

theorem encodes_cleared : cleared.Encodes ⟨0, []⟩ := ⟨rfl, rfl, rfl, fun _ h => nomatch h⟩

theorem Encodes.setSequence (h : encoded.Encodes batch) (sequence : UInt64) :
    (encoded.setSequence sequence).Encodes { batch with sequence := sequence.toNat } :=
  ⟨rfl, h.count, h.records, h.encodable⟩

theorem Encodes.appendRecord (h : encoded.Encodes batch) {write : BatchWrite}
    (hwrite : write.Encodable) (hcount : batch.writes.length + 1 < 2 ^ 32) :
    (encoded.appendRecord write.kind write.key write.value).Encodes
      { batch with writes := batch.writes ++ [write] } where
  sequence := h.sequence
  count := by
    show (encoded.count + 1).toNat = (batch.writes ++ [write]).length
    rw [UInt32.toNat_add, h.count, List.length_append, List.length_singleton]
    exact Nat.mod_eq_of_lt hcount
  records := by
    show encoded.records ++ write.record = (batch.writes ++ [write]).flatMap BatchWrite.record
    rw [h.records, List.flatMap_append, List.flatMap_singleton]
  encodable := List.forall_mem_append.mpr ⟨h.encodable, List.forall_mem_singleton.mpr hwrite⟩

theorem Encodes.append (h : encoded.Encodes batch) (hsource : source.Encodes other)
    (hcount : batch.writes.length + other.writes.length < 2 ^ 32) :
    (encoded.append source).Encodes { batch with writes := batch.writes ++ other.writes } := by
  rw [EncodedWriteBatch.append]
  split
  · next hzero =>
    have hnil : other.writes = [] := by
      rw [← List.length_eq_zero_iff, ← hsource.count, hzero]
      rfl
    rw [hnil, List.append_nil]
    exact h
  · refine ⟨h.sequence, ?_, ?_, ?_⟩
    · show (encoded.count + source.count).toNat = (batch.writes ++ other.writes).length
      rw [UInt32.toNat_add, h.count, hsource.count, List.length_append]
      exact Nat.mod_eq_of_lt hcount
    · show encoded.records ++ source.records = (batch.writes ++ other.writes).flatMap BatchWrite.record
      rw [h.records, hsource.records, List.flatMap_append]
    · intro a ha
      rcases List.mem_append.mp ha with ha | ha
      · exact h.encodable a ha
      · exact hsource.encodable a ha

end EncodedWriteBatch

namespace BatchCall

variable {ι : Type*} [DecidableEq ι]

variable {batches : ι → EncodedWriteBatch} {meanings : ι → Batch}

theorem encodes_update (h : ∀ i, (batches i).Encodes (meanings i)) (j : ι)
    {encoded : EncodedWriteBatch} {batch : Batch} (hj : encoded.Encodes batch) (i : ι) :
    (Function.update batches j encoded i).Encodes (Function.update meanings j batch i) := by
  by_cases hi : i = j
  · rw [hi, Function.update_self, Function.update_self]
    exact hj
  · rw [Function.update_of_ne hi, Function.update_of_ne hi]
    exact h i

theorem encodes_run {call : BatchCall ι} (h : ∀ i, (batches i).Encodes (meanings i))
    (hfits : call.Fits meanings) (i : ι) :
    (call.run batches i).Encodes (call.meaning meanings i) := by
  cases call with
  | put j key value =>
    obtain ⟨hkey, hvalue, hcount⟩ := hfits
    have hwrite : BatchWrite.Encodable ⟨.value, key, value⟩ := ⟨hkey, hvalue, (fun h => nomatch h)⟩
    exact encodes_update h j ((h j).appendRecord hwrite hcount) i
  | delete j key =>
    obtain ⟨hkey, hcount⟩ := hfits
    have hwrite : BatchWrite.Encodable ⟨.deletion, key, []⟩ := ⟨hkey, Nat.two_pow_pos 32, fun _ => rfl⟩
    exact encodes_update h j ((h j).appendRecord hwrite hcount) i
  | append j source => exact encodes_update h j ((h j).append (h source) hfits) i
  | setSequence j sequence => exact encodes_update h j ((h j).setSequence sequence) i
  | clear j => exact encodes_update h j EncodedWriteBatch.encodes_cleared i

variable {calls : List (BatchCall ι)}

theorem encodes_foldl : ∀ {batches : ι → EncodedWriteBatch}
    {meanings : ι → Batch}, (∀ i, (batches i).Encodes (meanings i)) → AllFit meanings calls →
      ∀ i, (calls.foldl run batches i).Encodes (calls.foldl meaning meanings i) := by
  induction calls with
  | nil => exact fun h _ => h
  | cons call calls ih => exact fun h hfits => ih (encodes_run h hfits.1) hfits.2

theorem encodes_runAll (h : AllFit (fun _ => ⟨0, []⟩) calls) (i : ι) :
    (runAll calls i).Encodes (meaningAll calls i) :=
  encodes_foldl (fun _ => EncodedWriteBatch.encodes_cleared) h i

end BatchCall

/-! ## Reading back -/

namespace WriteBatchReader

theorem entries_openBatch {encoded : Bytes} {batch : Batch} {reader : WriteBatchReader}
    (h : IsBatch encoded batch) (hreader : openBatch encoded = .ok reader) :
    reader.entries = batch.entries.map WriteBatchEntry.wrapped ∧
      reader.readEntries = some (reader.entries, []) := by
  obtain rfl := Except.ok.inj ((openBatch_of_isBatch h).symm.trans hreader)
  exact ⟨entriesFrom_wrapped h.body _ rfl, readEntriesFrom_eq h.body _ rfl⟩

theorem entries_openTrusted {encoded : EncodedWriteBatch} {batch : Batch} (h : encoded.Encodes batch) :
    (openTrusted encoded).entries = batch.entries.map WriteBatchEntry.wrapped := by
  have hentries := entriesFrom_wrapped h.isBatch.body (openTrusted encoded) rfl
  have hcount : (openTrusted encoded).count - (openTrusted encoded).index = batch.writes.length :=
    h.count
  have hsequence : (openTrusted encoded).sequence + (openTrusted encoded).index = batch.sequence :=
    h.sequence
  rw [entries, hcount, hentries, hsequence]
  rfl

theorem length_entriesOf (sequence : Nat) (writes : List BatchWrite) :
    (entriesOf sequence writes).length = writes.length := by
  induction writes generalizing sequence with
  | nil => rfl
  | cons write writes ih => rw [entriesOf, List.length_cons, List.length_cons, ih]

/-- Batches read back as what their calls appended, and exactly the well-formed bytes are accepted and
then iterated inside their bounds to their end. -/
theorem writeBatch_exact {ι : Type*} [DecidableEq ι] :
    (∀ calls : List (BatchCall ι), BatchCall.AllFit (fun _ => ⟨0, []⟩) calls → ∀ i : ι,
      (∃ reader, openBatch (BatchCall.runAll calls i).encoded = .ok reader ∧
        reader.entries = (BatchCall.meaningAll calls i).entries.map WriteBatchEntry.wrapped) ∧
      (openTrusted (BatchCall.runAll calls i)).entries =
        (BatchCall.meaningAll calls i).entries.map WriteBatchEntry.wrapped) ∧
    ∀ encoded : Bytes,
      ((∃ reader, openBatch encoded = .ok reader) ↔
        ∃ sequence writes, WellFormedBatch encoded sequence writes) ∧
      ∀ reader, openBatch encoded = .ok reader →
        reader.readEntries = some (reader.entries, []) ∧
          reader.entries.length = decodeFixed ((encoded.drop 8).take 4) := by
  refine ⟨fun calls hfits i => ?_, fun encoded => ⟨⟨?_, ?_⟩, fun reader hreader => ?_⟩⟩
  · have hencodes := BatchCall.encodes_runAll hfits i
    have hopen := openBatch_of_isBatch hencodes.isBatch
    exact ⟨⟨_, hopen, (entries_openBatch hencodes.isBatch hopen).1⟩, entries_openTrusted hencodes⟩
  · rintro ⟨reader, hreader⟩
    obtain ⟨batch, hbatch⟩ := isBatch_of_openBatch hreader
    exact ⟨batch.sequence, batch.writes, isBatch_iff.mp hbatch⟩
  · rintro ⟨sequence, writes, hformed⟩
    have hbatch : IsBatch encoded ⟨sequence, writes⟩ := isBatch_iff.mpr hformed
    exact ⟨_, openBatch_of_isBatch hbatch⟩
  · obtain ⟨batch, hbatch⟩ := isBatch_of_openBatch hreader
    obtain ⟨hentries, hread⟩ := entries_openBatch hbatch hreader
    refine ⟨hread, ?_⟩
    rw [hentries, List.length_map, Batch.entries, length_entriesOf, hbatch.count]

/-- Two batches, one of them appended to itself and to the other. -/
def twoBatchCalls : List (BatchCall Bool) :=
  [.put true [1, 2] [3], .delete true [], .append true true, .put false [] [], .append false true,
    .setSequence false 7]

theorem writeBatch_exact_two :
    (openTrusted (BatchCall.runAll twoBatchCalls false)).entries =
      [⟨7, .value, [], []⟩, ⟨8, .value, [1, 2], [3]⟩, ⟨9, .deletion, [], []⟩,
        ⟨10, .value, [1, 2], [3]⟩, ⟨11, .deletion, [], []⟩] := by
  have hfits : BatchCall.AllFit (fun _ => ⟨0, []⟩) twoBatchCalls := by decide
  rw [(writeBatch_exact.1 twoBatchCalls hfits false).2]
  decide

end WriteBatchReader

end ModernLevelDB
