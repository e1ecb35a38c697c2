import ModernLevelDB.Format.ByteKey
import ModernLevelDB.Lib.Loop
import ModernLevelDB.Metadata.VersionEdit

/-! # The encoding of version edits (`metadata/version_edit.cc`)

`encode` writes the fields in a fixed order; `decode` accepts them in any order. The keys are the
byte strings of the source. -/
namespace ModernLevelDB
set_option autoImplicit false

namespace VersionEdit

/-! ## Encoding -/

def tagComparator : Nat := 1
def tagLogNumber : Nat := 2
def tagNextFileNumber : Nat := 3
def tagLastSequence : Nat := 4
def tagCompactPointer : Nat := 5
def tagDeletedFile : Nat := 6
def tagNewFile : Nat := 7
def tagPrevLogNumber : Nat := 9

def encodeNumberField (tag : Nat) : Option Nat → Bytes
  | none => []
  | some number => encodeVarint32 tag ++ encodeVarint64 number

def encodeComparatorName : Option Bytes → Bytes
  | none => []
  | some name => encodeVarint32 tagComparator ++ encodeLengthPrefixed name

def encodeCompactPointer (pointer : Level × ByteKey) : Bytes :=
  encodeVarint32 tagCompactPointer ++ encodeVarint32 pointer.1.val ++
    encodeLengthPrefixed (ByteKey.encoded pointer.2)

def encodeDeletedFile (file : DeletedFile) : Bytes :=
  encodeVarint32 tagDeletedFile ++ encodeVarint32 file.level.val ++ encodeVarint64 file.number

def encodeNewFile (entry : Level × FileMetadata ByteKey) : Bytes :=
  encodeVarint32 tagNewFile ++ encodeVarint32 entry.1.val ++ encodeVarint64 entry.2.number ++
    encodeVarint64 entry.2.fileSize ++ encodeLengthPrefixed (ByteKey.encoded entry.2.smallest) ++
    encodeLengthPrefixed (ByteKey.encoded entry.2.largest)

def encode (edit : VersionEdit ByteKey) : Bytes :=
  encodeComparatorName edit.comparatorName ++ encodeNumberField tagLogNumber edit.logNumber ++
    encodeNumberField tagPrevLogNumber edit.prevLogNumber ++
    encodeNumberField tagNextFileNumber edit.nextFileNumber ++
    encodeNumberField tagLastSequence edit.lastSequence ++
    edit.compactPointers.flatMap encodeCompactPointer ++
    edit.deletedFiles.flatMap encodeDeletedFile ++ edit.newFiles.flatMap encodeNewFile

/-! ## Decoding -/

def malformed (field : String) : Error := Error.corruption ("malformed version edit " ++ field)

/-- A field reader; the source reports any failure inside a field as that field being malformed. -/
abbrev FieldReader (α : Type) := Bytes → Option (α × Bytes)

def readNumber : FieldReader Nat := fun input => (consumeVarint64 input).toOption

def readFileNumber : FieldReader Nat := fun input =>
  (readNumber input).filter (fun r => r.1 ≠ 0)

def readLevel : FieldReader Level := fun input =>
  match consumeVarint32 input with
  | .ok (level, rest) => if h : level < numLevels then some (⟨level, h⟩, rest) else none
  | .error _ => none

def readInternalKey : FieldReader ByteKey := fun input =>
  match consumeLengthPrefixed input with
  | .ok (encoded, rest) => (ByteKey.decode encoded).toOption.map (·, rest)
  | .error _ => none

def readCompactPointer : FieldReader (Level × ByteKey) := fun input => do
  let (level, input) ← readLevel input
  let (key, input) ← readInternalKey input
  return ((level, key), input)

def readDeletedFile : FieldReader DeletedFile := fun input => do
  let (level, input) ← readLevel input
  let (number, input) ← readFileNumber input
  return (DeletedFile.mk level number, input)

def readNewFile : FieldReader (Level × FileMetadata ByteKey) := fun input => do
  let (level, input) ← readLevel input
  let (number, input) ← readFileNumber input
  let (fileSize, input) ← readNumber input
  let (smallest, input) ← readInternalKey input
  let (largest, input) ← readInternalKey input
  return ((level, { number, fileSize, smallest, largest }), input)

def orMalformed {α : Type} (field : String) : Option (α × Bytes) → Result (α × Bytes)
  | some r => .ok r
  | none => .error (malformed field)

def insertDeletedFile (edit : VersionEdit ByteKey) (file : DeletedFile) : VersionEdit ByteKey :=
  { edit with
    deletedFiles := insertDeleted file edit.deletedFiles
    deleted_sorted := insertDeleted_sorted edit.deleted_sorted }

/-- `DecodeField`: the edit with one more field. A repeated scalar field keeps its last value. -/
def decodeField (edit : VersionEdit ByteKey) (tag : Nat) (input : Bytes) :
    Result (VersionEdit ByteKey × Bytes) :=
  if tag = tagComparator then do
    let (name, input) ← orMalformed "comparator name" (consumeLengthPrefixed input).toOption
    return ({ edit with comparatorName := some name }, input)
  else if tag = tagLogNumber then do
    let (number, input) ← orMalformed "log number" (readNumber input)
    return ({ edit with logNumber := some number }, input)
  else if tag = tagPrevLogNumber then do
    let (number, input) ← orMalformed "previous log number" (readNumber input)
    return ({ edit with prevLogNumber := some number }, input)
  else if tag = tagNextFileNumber then do
    let (number, input) ← orMalformed "next file number" (readFileNumber input)
    return ({ edit with nextFileNumber := some number }, input)
  else if tag = tagLastSequence then do
    let (number, input) ← orMalformed "last sequence"
      ((readNumber input).filter (fun r => r.1 ≤ maxSequenceNumber))
    return ({ edit with lastSequence := some number }, input)
  else if tag = tagCompactPointer then do
    let (pointer, input) ← orMalformed "compact pointer" (readCompactPointer input)
    return ({ edit with compactPointers := edit.compactPointers ++ [pointer] }, input)
  else if tag = tagDeletedFile then do
    let (file, input) ← orMalformed "deleted file" (readDeletedFile input)
    return (insertDeletedFile edit file, input)
  else if tag = tagNewFile then do
    let (file, input) ← orMalformed "new file" (readNewFile input)
    return ({ edit with newFiles := edit.newFiles ++ [file] }, input)
  else .error (Error.corruption "version edit has an unknown tag")

/-- One round of `VersionEdit::Decode`. -/
def decodeRound : VersionEdit ByteKey × Bytes →
    (VersionEdit ByteKey × Bytes) ⊕ Result (VersionEdit ByteKey)
  | (edit, []) => .inr (.ok edit)
  | (edit, input) =>
      match consumeVarint32 input with
      | .error _ => .inr (.error (malformed "tag"))
      | .ok (tag, input) =>
          match decodeField edit tag input with
          | .error error => .inr (.error error)
          | .ok next => .inl next

def decodeFields (fuel : Nat) (edit : VersionEdit ByteKey) (input : Bytes) :
    Result (VersionEdit ByteKey) :=
  Loop.run decodeRound (fun _ => .error (malformed "tag")) fuel (edit, input)

/-- Each field takes a byte at least, so the length of the input is fuel enough. -/
def decode (encoded : Bytes) : Result (VersionEdit ByteKey) :=
  decodeFields (encoded.length + 1) {} encoded

/-! ## Decoding what was encoded -/

theorem readNumber_encode {number : Nat} (h : number < 2 ^ 64) (rest : Bytes) :
    readNumber (encodeVarint64 number ++ rest) = some (number, rest) := by
  unfold readNumber
  rw [consumeVarint64_encode h]
  rfl

theorem readFileNumber_encode {number : Nat} (h : number < 2 ^ 64) (h0 : number ≠ 0) (rest : Bytes) :
    readFileNumber (encodeVarint64 number ++ rest) = some (number, rest) := by
  unfold readFileNumber
  rw [readNumber_encode h]
  simp [h0]

theorem readLevel_encode (level : Level) (rest : Bytes) :
    readLevel (encodeVarint32 level.val ++ rest) = some (level, rest) := by
  unfold readLevel
  rw [consumeVarint32_encode (by have := level.isLt; unfold numLevels at this; omega)]
  simp

theorem readInternalKey_encode {key : ByteKey} (h : key.Storable) (rest : Bytes) :
    readInternalKey (encodeLengthPrefixed (ByteKey.encoded key) ++ rest) = some (key, rest) := by
  have hlen : (ByteKey.encoded key).length < 2 ^ 32 := by
    simpa [ByteKey.encoded] using h.length
  unfold readInternalKey
  rw [consumeLengthPrefixed_encode hlen]
  simp only [ByteKey.decode_encoded h]
  rfl

/-- An edit whose fields are all within their encodings. -/
structure Storable (edit : VersionEdit ByteKey) : Prop where
  comparatorName : ∀ name ∈ edit.comparatorName, name.length < 2 ^ 32
  logNumber : ∀ number ∈ edit.logNumber, number < 2 ^ 64
  prevLogNumber : ∀ number ∈ edit.prevLogNumber, number < 2 ^ 64
  nextFileNumber : ∀ number ∈ edit.nextFileNumber, number ≠ 0 ∧ number < 2 ^ 64
  lastSequence : ∀ sequence ∈ edit.lastSequence, sequence ≤ maxSequenceNumber
  compactPointers : ∀ pointer ∈ edit.compactPointers, ByteKey.Storable pointer.2
  deletedFiles : ∀ file ∈ edit.deletedFiles, file.number ≠ 0 ∧ file.number < 2 ^ 64
  newFiles : ∀ added ∈ edit.newFiles, added.2.number ≠ 0 ∧ added.2.number < 2 ^ 64 ∧
    added.2.fileSize < 2 ^ 64 ∧ ByteKey.Storable added.2.smallest ∧ ByteKey.Storable added.2.largest

def persisted (added : Level × FileMetadata ByteKey) : Level × FileMetadata ByteKey :=
  (added.1, { added.2 with allowedSeeks := 0 })

/-- With enough fuel, decoding consumes these bytes and changes the edit by `change`. -/
def Decodes (bytes : Bytes) (change : VersionEdit ByteKey → VersionEdit ByteKey) : Prop :=
  ∀ (rest : Bytes) (edit : VersionEdit ByteKey) (fuel : Nat), bytes.length + rest.length < fuel →
    ∃ fuel', rest.length < fuel' ∧
      decodeFields fuel edit (bytes ++ rest) = decodeFields fuel' (change edit) rest

theorem Decodes.nil : Decodes [] id := fun rest edit fuel h => ⟨fuel, by simpa using h, rfl⟩

theorem Decodes.append {a b : Bytes} {f g : VersionEdit ByteKey → VersionEdit ByteKey}
    (ha : Decodes a f) (hb : Decodes b g) : Decodes (a ++ b) (g ∘ f) := by
  intro rest edit fuel hfuel
  rw [List.length_append] at hfuel
  obtain ⟨fuel₁, h₁, heq₁⟩ := ha (b ++ rest) edit fuel (by rw [List.length_append]; omega)
  obtain ⟨fuel₂, h₂, heq₂⟩ := hb rest (f edit) fuel₁ (by rw [List.length_append] at h₁; omega)
  exact ⟨fuel₂, h₂, by rw [List.append_assoc, heq₁, heq₂]; rfl⟩

theorem Decodes.flatMap {α : Type*} {encode : α → Bytes}
    {change : VersionEdit ByteKey → α → VersionEdit ByteKey} {l : List α}
    (h : ∀ a ∈ l, Decodes (encode a) (change · a)) :
    Decodes (l.flatMap encode) (fun edit => l.foldl change edit) := by
  induction l with
  | nil => exact Decodes.nil
  | cons a l ih =>
    rw [List.flatMap_cons]
    exact (h a List.mem_cons_self).append (ih fun b hb => h b (List.mem_cons_of_mem a hb))

variable {change : VersionEdit ByteKey → VersionEdit ByteKey}

theorem Decodes.field {tag : Nat} {body : Bytes} (htag : tag < 128)
    (h : ∀ edit rest, decodeField edit tag (body ++ rest) = .ok (change edit, rest)) :
    Decodes (encodeVarint32 tag ++ body) change := by
  intro rest edit fuel hfuel
  have hbyte : encodeVarint32 tag = [byteOf tag] := by
    unfold encodeVarint32
    rw [encodeVarint, if_pos htag]
  rw [hbyte] at hfuel ⊢
  simp only [List.length_append, List.length_cons, List.length_nil] at hfuel
  obtain ⟨fuel, rfl⟩ : ∃ n, fuel = n + 1 := ⟨fuel - 1, by omega⟩
  refine ⟨fuel, by omega, ?_⟩
  have htagged : consumeVarint32 ([byteOf tag] ++ (body ++ rest)) = .ok (tag, body ++ rest) := by
    rw [← hbyte]
    exact consumeVarint32_encode (by omega) _
  rw [List.append_assoc]
  rw [decodeFields, Loop.run, decodeRound]
  · simp only [htagged, h]
    rfl
  · simp

theorem Decodes.number {tag : Nat} {value : Option Nat} (htag : tag < 128)
    (hnone : value = none → change = id) (h : ∀ number, value = some number → ∀ edit rest,
      decodeField edit tag (encodeVarint64 number ++ rest) = .ok (change edit, rest)) :
    Decodes (encodeNumberField tag value) change := by
  cases value with
  | none =>
    rw [hnone rfl]
    exact Decodes.nil
  | some number => exact Decodes.field htag (h number rfl)

theorem decodes_comparatorName {name : Option Bytes} (h : ∀ n ∈ name, n.length < 2 ^ 32) :
    Decodes (encodeComparatorName name)
      (fun edit => { edit with comparatorName := name.or edit.comparatorName }) := by
  cases name with
  | none => exact Decodes.nil
  | some name =>
    refine Decodes.field (by decide) fun edit rest => ?_
    simp only [decodeField, if_true, consumeLengthPrefixed_encode (h name rfl)]
    rfl

theorem decodes_compactPointer {pointer : Level × ByteKey} (h : ByteKey.Storable pointer.2) :
    Decodes (encodeCompactPointer pointer)
      (fun edit => { edit with compactPointers := edit.compactPointers ++ [pointer] }) := by
  unfold encodeCompactPointer
  rw [List.append_assoc]
  refine Decodes.field (by decide) fun edit rest => ?_
  have hread : readCompactPointer (encodeVarint32 pointer.1.val ++
      encodeLengthPrefixed (ByteKey.encoded pointer.2) ++ rest) = some (pointer, rest) := by
    unfold readCompactPointer
    rw [List.append_assoc, readLevel_encode]
    simp [readInternalKey_encode h]
  simp only [decodeField, tagCompactPointer, tagComparator, tagLogNumber, tagPrevLogNumber,
    tagNextFileNumber, tagLastSequence, hread]
  rfl

theorem decodes_deletedFile {file : DeletedFile} (h0 : file.number ≠ 0) (h : file.number < 2 ^ 64) :
    Decodes (encodeDeletedFile file) (fun edit => insertDeletedFile edit file) := by
  unfold encodeDeletedFile
  rw [List.append_assoc]
  refine Decodes.field (by decide) fun edit rest => ?_
  have hread : readDeletedFile (encodeVarint32 file.level.val ++ encodeVarint64 file.number ++ rest) =
      some (file, rest) := by
    unfold readDeletedFile
    rw [List.append_assoc, readLevel_encode]
    simp [readFileNumber_encode h h0]
    rfl
  simp only [decodeField, tagDeletedFile, tagCompactPointer, tagComparator, tagLogNumber,
    tagPrevLogNumber, tagNextFileNumber, tagLastSequence, hread]
  rfl

theorem decodes_newFile {added : Level × FileMetadata ByteKey} (h0 : added.2.number ≠ 0)
    (h : added.2.number < 2 ^ 64) (hsize : added.2.fileSize < 2 ^ 64)
    (hsmallest : ByteKey.Storable added.2.smallest) (hlargest : ByteKey.Storable added.2.largest) :
    Decodes (encodeNewFile added)
      (fun edit => { edit with newFiles := edit.newFiles ++ [persisted added] }) := by
  unfold encodeNewFile
  simp only [List.append_assoc]
  refine Decodes.field (by decide) fun edit rest => ?_
  have hread : readNewFile ((encodeVarint32 added.1.val ++ (encodeVarint64 added.2.number ++
      (encodeVarint64 added.2.fileSize ++ (encodeLengthPrefixed (ByteKey.encoded added.2.smallest) ++
        encodeLengthPrefixed (ByteKey.encoded added.2.largest))))) ++ rest) =
      some (persisted added, rest) := by
    unfold readNewFile
    simp only [List.append_assoc, readLevel_encode]
    simp [readFileNumber_encode h h0, readNumber_encode hsize, readInternalKey_encode hsmallest,
      readInternalKey_encode hlargest]
    rfl
  simp only [decodeField, tagNewFile, tagDeletedFile, tagCompactPointer, tagComparator, tagLogNumber,
    tagPrevLogNumber, tagNextFileNumber, tagLastSequence, hread]
  rfl

def persistedEdit (edit : VersionEdit ByteKey) : VersionEdit ByteKey :=
  { edit with newFiles := edit.newFiles.map persisted }

theorem insertDeleted_append {file : DeletedFile} {files : List DeletedFile}
    (h : ∀ f ∈ files, f < file) : insertDeleted file files = files ++ [file] := by
  have hnot : file ∉ files := fun hmem => lt_irrefl _ (h file hmem)
  unfold insertDeleted
  rw [if_neg hnot]
  clear hnot
  induction files with
  | nil => rfl
  | cons a files ih =>
    have hlt := h a List.mem_cons_self
    rw [List.orderedInsert_of_not_le (r := (· ≤ ·)) _ (not_le.mpr hlt),
      ih fun f hf => h f (List.mem_cons_of_mem a hf)]
    rfl

theorem foldl_compactPointers (pointers : List (Level × ByteKey)) (edit : VersionEdit ByteKey) :
    pointers.foldl (fun edit pointer =>
        { edit with compactPointers := edit.compactPointers ++ [pointer] }) edit =
      { edit with compactPointers := edit.compactPointers ++ pointers } := by
  induction pointers generalizing edit with
  | nil => simp
  | cons pointer pointers ih => simp [ih]

theorem foldl_newFiles (files : List (Level × FileMetadata ByteKey)) (edit : VersionEdit ByteKey) :
    files.foldl (fun edit added =>
        { edit with newFiles := edit.newFiles ++ [persisted added] }) edit =
      { edit with newFiles := edit.newFiles ++ files.map persisted } := by
  induction files generalizing edit with
  | nil => simp
  | cons file files ih => simp [ih]

theorem foldl_deletedFiles (files : List DeletedFile) (edit : VersionEdit ByteKey)
    (h : (edit.deletedFiles ++ files).Pairwise (· < ·)) :
    files.foldl insertDeletedFile edit =
      { edit with deletedFiles := edit.deletedFiles ++ files, deleted_sorted := h } := by
  induction files generalizing edit with
  | nil => simp
  | cons file files ih =>
    have hbefore : ∀ f ∈ edit.deletedFiles, f < file := fun f hf =>
      (List.pairwise_append.mp h).2.2 f hf file List.mem_cons_self
    have hinsert : (insertDeletedFile edit file).deletedFiles = edit.deletedFiles ++ [file] :=
      insertDeleted_append hbefore
    rw [List.foldl_cons, ih (insertDeletedFile edit file) (by rw [hinsert]; simpa using h)]
    simp only [hinsert, List.append_assoc, List.cons_append, List.nil_append]
    rfl

theorem decode_encode {edit : VersionEdit ByteKey} (h : Storable edit) :
    decode (encode edit) = .ok (persistedEdit edit) := by
  have hlog : Decodes (encodeNumberField tagLogNumber edit.logNumber) (fun e =>
      { e with logNumber := edit.logNumber.or e.logNumber }) := by
    refine Decodes.number (by decide) (fun hn => by rw [hn]; rfl) fun number hn e rest => ?_
    simp only [decodeField, tagComparator, tagLogNumber, readNumber_encode (h.logNumber number hn), hn]
    rfl
  have hprev : Decodes (encodeNumberField tagPrevLogNumber edit.prevLogNumber) (fun e =>
      { e with prevLogNumber := edit.prevLogNumber.or e.prevLogNumber }) := by
    refine Decodes.number (by decide) (fun hn => by rw [hn]; rfl) fun number hn e rest => ?_
    simp only [decodeField, tagComparator, tagLogNumber, tagPrevLogNumber,
      readNumber_encode (h.prevLogNumber number hn), hn]
    rfl
  have hnext : Decodes (encodeNumberField tagNextFileNumber edit.nextFileNumber) (fun e =>
      { e with nextFileNumber := edit.nextFileNumber.or e.nextFileNumber }) := by
    refine Decodes.number (by decide) (fun hn => by rw [hn]; rfl) fun number hn e rest => ?_
    simp only [decodeField, tagComparator, tagLogNumber, tagPrevLogNumber, tagNextFileNumber,
      readFileNumber_encode (h.nextFileNumber number hn).2 (h.nextFileNumber number hn).1, hn]
    rfl
  have hlast : Decodes (encodeNumberField tagLastSequence edit.lastSequence) (fun e =>
      { e with lastSequence := edit.lastSequence.or e.lastSequence }) := by
    refine Decodes.number (by decide) (fun hn => by rw [hn]; rfl) fun number hn e rest => ?_
    have hle := h.lastSequence number hn
    have hlt : number < 2 ^ 64 := by
      unfold maxSequenceNumber at hle
      omega
    have hread : (readNumber (encodeVarint64 number ++ rest)).filter
        (fun r => decide (r.1 ≤ maxSequenceNumber)) = some (number, rest) := by
      rw [readNumber_encode hlt]
      simp [hle]
    simp only [decodeField, tagComparator, tagLogNumber, tagPrevLogNumber, tagNextFileNumber,
      tagLastSequence, hread, hn]
    rfl
  have hpointers := Decodes.flatMap (fun pointer hp =>
    decodes_compactPointer (h.compactPointers pointer hp))
  have hdeleted := Decodes.flatMap (l := edit.deletedFiles) (fun file hf =>
    decodes_deletedFile (h.deletedFiles file hf).1 (h.deletedFiles file hf).2)
  have hadded := Decodes.flatMap (l := edit.newFiles) (fun added ha =>
    decodes_newFile (h.newFiles added ha).1 (h.newFiles added ha).2.1 (h.newFiles added ha).2.2.1
      (h.newFiles added ha).2.2.2.1 (h.newFiles added ha).2.2.2.2)
  have hall := ((((((decodes_comparatorName h.comparatorName).append hlog).append hprev).append
    hnext).append hlast).append hpointers).append hdeleted |>.append hadded
  obtain ⟨fuel, hfuel, heq⟩ := hall [] {} ((encode edit).length + 1) (by simp [encode])
  obtain ⟨fuel, rfl⟩ : ∃ n, fuel = n + 1 := ⟨fuel - 1, (Nat.sub_add_cancel hfuel).symm⟩
  unfold decode
  rw [List.append_nil] at heq
  refine heq.trans ?_
  have hfold : ∀ e : VersionEdit ByteKey, e.deletedFiles = [] →
      edit.deletedFiles.foldl (fun e file => insertDeletedFile e file) e =
        { e with deletedFiles := edit.deletedFiles, deleted_sorted := edit.deleted_sorted } := by
    intro e he
    have hsorted : (e.deletedFiles ++ edit.deletedFiles).Pairwise (· < ·) := by
      rw [he]
      exact edit.deleted_sorted
    rw [foldl_deletedFiles _ _ hsorted]
    simp [he]
  simp only [Function.comp_apply, foldl_compactPointers, Option.or_none, List.nil_append]
  rw [hfold _ rfl, foldl_newFiles]
  rfl

end VersionEdit
end ModernLevelDB
