import ModernLevelDB.Metadata.VersionEditCodec

/-! # Edits that calls build (`metadata/version_edit.cc`)

The mutators as their callers see them, with the checks of levels, numbers, sequences and keys. Each
field that `decode` accepts is a call that these checks accept, so whatever holds of all edits that
calls build holds of all decoded ones. -/
namespace ModernLevelDB
set_option autoImplicit false

namespace VersionEdit

/-! ## Calls -/

/-- A call of a mutator. A key is given by its encoding, which is empty for a moved-from key. -/
inductive Call where
  | setComparatorName (name : Bytes)
  | setLogNumber (number : UInt64)
  | setPrevLogNumber (number : UInt64)
  | setNextFileNumber (number : UInt64)
  | setLastSequence (sequence : UInt64)
  | addCompactPointer (level : UInt32) (key : Bytes)
  | addFile (level : UInt32) (number fileSize : UInt64) (smallest largest : Bytes)
      (allowedSeeks : Int)
  | removeFile (level : UInt32) (number : UInt64)

def checkLevel (message : String) (level : UInt32) : Result Level :=
  if h : level.toNat < numLevels then .ok ⟨level.toNat, h⟩
  else .error (Error.invalidArgument message)

def checkKey (message : String) (encoded : Bytes) : Result ByteKey :=
  match ByteKey.decode encoded with
  | .ok key => .ok key
  | .error _ => .error (Error.invalidArgument message)

namespace Call

def apply (edit : VersionEdit ByteKey) : Call → Result (VersionEdit ByteKey)
  | .setComparatorName name => .ok { edit with comparatorName := some name }
  | .setLogNumber number => .ok (edit.setLogNumber number.toNat)
  | .setPrevLogNumber number => .ok (edit.setPrevLogNumber number.toNat)
  | .setNextFileNumber number => edit.setNextFileNumber number.toNat
  | .setLastSequence sequence => edit.setLastSequence sequence.toNat
  | .addCompactPointer level key => do
      let level ← checkLevel "compact pointer level is out of range" level
      let key ← checkKey "compact pointer key is malformed" key
      return edit.addCompactPointer level key
  | .addFile level number fileSize smallest largest allowedSeeks => do
      let level ← checkLevel "new file level is out of range" level
      -- The source looks at the number before the keys.
      if number.toNat = 0 then .error (Error.invalidArgument "new file number must be nonzero")
      else do
        let smallest ← checkKey "new file key is malformed" smallest
        let largest ← checkKey "new file key is malformed" largest
        edit.addFile level
          { number := number.toNat, fileSize := fileSize.toNat, smallest, largest, allowedSeeks }
  | .removeFile level number => do
      let level ← checkLevel "deleted file level is out of range" level
      edit.removeFile level number.toNat

/-- The arguments fit into length prefixes of 32 bits. -/
def Fits : Call → Prop
  | .setComparatorName name => name.length < 2 ^ 32
  | .addCompactPointer _ key => key.length < 2 ^ 32
  | .addFile _ _ _ smallest largest _ => smallest.length < 2 ^ 32 ∧ largest.length < 2 ^ 32
  | _ => True

/-- The call gives no seek budget. -/
def Unbudgeted : Call → Prop
  | .addFile _ _ _ _ _ allowedSeeks => allowedSeeks = 0
  | _ => True

/-- A call that fails leaves the edit as it is. -/
def run (edit : VersionEdit ByteKey) (call : Call) : VersionEdit ByteKey :=
  match call.apply edit with
  | .ok edit => edit
  | .error _ => edit

end Call

def build (calls : List Call) : VersionEdit ByteKey := calls.foldl Call.run {}

/-! ## What calls build -/

variable {encoded : Bytes}

theorem checkKey_eq_ok {message : String} {key : ByteKey} :
    checkKey message encoded = .ok key ↔ ByteKey.decode encoded = .ok key := by
  unfold checkKey
  cases ByteKey.decode encoded with
  | error e => exact ⟨(fun h => nomatch h), (fun h => nomatch h)⟩
  | ok key => rfl

theorem decode_key_storable {key : ByteKey} (hlen : encoded.length < 2 ^ 32)
    (h : ByteKey.decode encoded = .ok key) : key.Storable := by
  unfold ByteKey.decode at h
  split at h
  · cases h
  · next hshort =>
    have htrailer := decodeFixed_lt (encoded.drop (encoded.length - 8))
    rw [List.length_drop, show encoded.length - (encoded.length - 8) = 8 by omega] at htrailer
    have hseq : decodeFixed (encoded.drop (encoded.length - 8)) / 256 ≤ maxSequenceNumber := by
      unfold maxSequenceNumber
      omega
    have huser : (encoded.take (encoded.length - 8)).length + 8 < 2 ^ 32 := by
      rw [List.length_take]
      omega
    dsimp only at h
    split at h
    · cases h
      exact ⟨hseq, huser⟩
    · split at h
      · cases h
        exact ⟨hseq, huser⟩
      · cases h

theorem storable_empty : Storable {} := by
  constructor <;> simp

variable {edit edit' : VersionEdit ByteKey}

/-- No file of the edit has a seek budget, which the encoding leaves out. -/
def Unbudgeted (edit : VersionEdit ByteKey) : Prop :=
  ∀ added ∈ edit.newFiles, added.2.allowedSeeks = 0

theorem Call.keeps {call : Call} (hs : Storable edit) (hfits : call.Fits)
    (h : call.apply edit = .ok edit') :
    Storable edit' ∧ (call.Unbudgeted → edit.Unbudgeted → edit'.Unbudgeted) := by
  cases call with
  | setComparatorName name =>
    cases h
    refine ⟨{ hs with comparatorName := ?_ }, fun _ hu => hu⟩
    rintro _ ⟨⟩
    exact hfits
  | setLogNumber number =>
    cases h
    refine ⟨{ hs with logNumber := ?_ }, fun _ hu => hu⟩
    rintro _ ⟨⟩
    exact number.toNat_lt
  | setPrevLogNumber number =>
    cases h
    refine ⟨{ hs with prevLogNumber := ?_ }, fun _ hu => hu⟩
    rintro _ ⟨⟩
    exact number.toNat_lt
  | setNextFileNumber number =>
    rw [Call.apply, VersionEdit.setNextFileNumber] at h
    split at h
    · cases h
    · next hne =>
      cases h
      refine ⟨{ hs with nextFileNumber := ?_ }, fun _ hu => hu⟩
      rintro _ ⟨⟩
      exact ⟨hne, number.toNat_lt⟩
  | setLastSequence sequence =>
    rw [Call.apply, VersionEdit.setLastSequence] at h
    split at h
    · cases h
    · next hle =>
      cases h
      refine ⟨{ hs with lastSequence := ?_ }, fun _ hu => hu⟩
      rintro _ ⟨⟩
      exact Nat.le_of_not_lt hle
  | addCompactPointer level encoded =>
    obtain ⟨level, _, h⟩ := Result.bind_eq_ok.mp h
    obtain ⟨key, hkey, h⟩ := Result.bind_eq_ok.mp h
    cases h
    refine ⟨{ hs with compactPointers := ?_ }, fun _ hu => hu⟩
    exact List.forall_mem_append.mpr ⟨hs.compactPointers,
      List.forall_mem_singleton.mpr (decode_key_storable hfits (checkKey_eq_ok.mp hkey))⟩
  | addFile level number fileSize smallest largest allowedSeeks =>
    obtain ⟨level, _, h⟩ := Result.bind_eq_ok.mp h
    split at h
    · cases h
    · next hne =>
      obtain ⟨small, hsmall, h⟩ := Result.bind_eq_ok.mp h
      obtain ⟨large, hlarge, h⟩ := Result.bind_eq_ok.mp h
      rw [VersionEdit.addFile, if_neg hne] at h
      cases h
      refine ⟨{ hs with newFiles := ?_ }, fun hcall hu =>
        List.forall_mem_append.mpr ⟨hu, List.forall_mem_singleton.mpr hcall⟩⟩
      refine List.forall_mem_append.mpr ⟨hs.newFiles, List.forall_mem_singleton.mpr ?_⟩
      exact ⟨hne, number.toNat_lt, fileSize.toNat_lt,
        decode_key_storable hfits.1 (checkKey_eq_ok.mp hsmall),
        decode_key_storable hfits.2 (checkKey_eq_ok.mp hlarge)⟩
  | removeFile level number =>
    obtain ⟨level, _, h⟩ := Result.bind_eq_ok.mp h
    rw [VersionEdit.removeFile] at h
    split at h
    · cases h
    · next hne =>
      cases h
      refine ⟨{ hs with deletedFiles := ?_ }, fun _ hu => hu⟩
      intro file hfile
      rcases mem_insertDeleted.mp hfile with rfl | hfile
      · exact ⟨hne, number.toNat_lt⟩
      · exact hs.deletedFiles file hfile

theorem Call.run_storable {call : Call} (hs : Storable edit) (hfits : call.Fits) :
    Storable (call.run edit) := by
  unfold Call.run
  split
  · next happly => exact (call.keeps hs hfits happly).1
  · exact hs

theorem build_storable {calls : List Call} (h : ∀ call ∈ calls, call.Fits) :
    Storable (build calls) := by
  have hrun : ∀ edit, Storable edit → Storable (calls.foldl Call.run edit) := by
    induction calls with
    | nil => exact fun _ hs => hs
    | cons call calls ih =>
      intro edit hs
      exact ih (fun c hc => h c (List.mem_cons_of_mem _ hc)) _
        (Call.run_storable hs (h call List.mem_cons_self))
  exact hrun {} storable_empty

theorem Unbudgeted.persisted (h : edit.Unbudgeted) : persistedEdit edit = edit := by
  have hfiles : edit.newFiles.map VersionEdit.persisted = edit.newFiles := by
    refine (List.map_congr_left (fun added hadded => ?_)).trans (List.map_id' _)
    rw [VersionEdit.persisted, ← h added hadded]
  rw [persistedEdit, hfiles]

/-! ## Fields are calls -/

theorem toOption_eq_some {α : Type} {result : Result α} {r : α} :
    result.toOption = some r ↔ result = .ok r := by
  cases result with
  | error e => exact ⟨(fun h => nomatch h), (fun h => nomatch h)⟩
  | ok r' => simp [Except.toOption]

variable {input rest : Bytes}

theorem readNumber_eq_some {number : Nat} (h : readNumber input = some (number, rest)) :
    number < 2 ^ 64 ∧ rest.length ≤ input.length := by
  have hconsume := toOption_eq_some.mp h
  exact ⟨consumeVarintFrom_lt hconsume, (consumeVarintFrom_length_lt hconsume).le⟩

theorem readFileNumber_eq_some {number : Nat} (h : readFileNumber input = some (number, rest)) :
    number ≠ 0 ∧ number < 2 ^ 64 ∧ rest.length ≤ input.length := by
  obtain ⟨hread, hne⟩ := Option.filter_eq_some_iff.mp h
  exact ⟨of_decide_eq_true hne, readNumber_eq_some hread⟩

theorem readLevel_eq_some {level : Level} (h : readLevel input = some (level, rest)) :
    rest.length ≤ input.length := by
  unfold readLevel at h
  split at h
  · next hconsume =>
    split at h
    · cases h
      exact (consumeVarintFrom_length_lt hconsume).le
    · cases h
  · cases h

theorem readInternalKey_eq_some {key : ByteKey} (h : readInternalKey input = some (key, rest)) :
    ∃ encoded, ByteKey.decode encoded = .ok key ∧ encoded.length < 2 ^ 32 ∧
      rest.length ≤ input.length := by
  unfold readInternalKey at h
  split at h
  · next encoded rest' hconsume =>
    obtain ⟨key', hkey, h⟩ := Option.map_eq_some_iff.mp h
    cases h
    exact ⟨encoded, toOption_eq_some.mp hkey, consumeLengthPrefixed_length hconsume,
      consumeLengthPrefixed_length_le hconsume⟩
  · cases h

theorem orMalformed_eq_ok {α : Type} {field : String} {read : Option (α × Bytes)} {r : α × Bytes}
    (h : orMalformed field read = .ok r) : read = some r := by
  cases read with
  | none => cases h
  | some r' =>
    cases h
    rfl

theorem checkLevel_ofNat (message : String) (level : Level) :
    checkLevel message (UInt32.ofNat level.val) = .ok level := by
  have hlevel : (UInt32.ofNat level.val).toNat = level.val :=
    UInt32.toNat_ofNat_of_lt (level.isLt.trans (by decide))
  unfold checkLevel
  rw [dif_pos (hlevel.trans_lt level.isLt)]
  exact congrArg Except.ok (Fin.ext hlevel)

theorem decodeField_call {tag : Nat} (h : decodeField edit tag input = .ok (edit', rest)) :
    ∃ call : Call, call.apply edit = .ok edit' ∧ call.Fits ∧ call.Unbudgeted ∧
      rest.length ≤ input.length := by
  unfold decodeField at h
  split_ifs at h with h₁ h₂ h₃ h₄ h₅ h₆ h₇ h₈
  · obtain ⟨⟨name, input'⟩, hread, h⟩ := Result.bind_eq_ok.mp h
    cases h
    have hconsume := toOption_eq_some.mp (orMalformed_eq_ok hread)
    exact ⟨.setComparatorName name, rfl, consumeLengthPrefixed_length hconsume, trivial,
      consumeLengthPrefixed_length_le hconsume⟩
  · obtain ⟨⟨number, input'⟩, hread, h⟩ := Result.bind_eq_ok.mp h
    cases h
    obtain ⟨hlt, hlength⟩ := readNumber_eq_some (orMalformed_eq_ok hread)
    refine ⟨.setLogNumber (UInt64.ofNat number), ?_, trivial, trivial, hlength⟩
    rw [Call.apply, UInt64.toNat_ofNat_of_lt' hlt]
    rfl
  · obtain ⟨⟨number, input'⟩, hread, h⟩ := Result.bind_eq_ok.mp h
    cases h
    obtain ⟨hlt, hlength⟩ := readNumber_eq_some (orMalformed_eq_ok hread)
    refine ⟨.setPrevLogNumber (UInt64.ofNat number), ?_, trivial, trivial, hlength⟩
    rw [Call.apply, UInt64.toNat_ofNat_of_lt' hlt]
    rfl
  · obtain ⟨⟨number, input'⟩, hread, h⟩ := Result.bind_eq_ok.mp h
    cases h
    obtain ⟨hne, hlt, hlength⟩ := readFileNumber_eq_some (orMalformed_eq_ok hread)
    refine ⟨.setNextFileNumber (UInt64.ofNat number), ?_, trivial, trivial, hlength⟩
    rw [Call.apply, UInt64.toNat_ofNat_of_lt' hlt, setNextFileNumber, if_neg hne]
  · obtain ⟨⟨sequence, input'⟩, hread, h⟩ := Result.bind_eq_ok.mp h
    cases h
    obtain ⟨hread, hle⟩ := Option.filter_eq_some_iff.mp (orMalformed_eq_ok hread)
    obtain ⟨hlt, hlength⟩ := readNumber_eq_some hread
    refine ⟨.setLastSequence (UInt64.ofNat sequence), ?_, trivial, trivial, hlength⟩
    rw [Call.apply, UInt64.toNat_ofNat_of_lt' hlt, setLastSequence,
      if_neg (Nat.not_lt.mpr (of_decide_eq_true hle))]
  · obtain ⟨⟨pointer, input'⟩, hread, h⟩ := Result.bind_eq_ok.mp h
    cases h
    have hread := orMalformed_eq_ok hread
    obtain ⟨⟨level, input₁⟩, hlevel, hread⟩ := Option.bind_eq_some_iff.mp hread
    obtain ⟨⟨key, input₂⟩, hkey, hread⟩ := Option.bind_eq_some_iff.mp hread
    cases hread
    obtain ⟨encoded, hdecode, hfits, hlength⟩ := readInternalKey_eq_some hkey
    refine ⟨.addCompactPointer (UInt32.ofNat level.val) encoded, ?_, hfits, trivial,
      hlength.trans (readLevel_eq_some hlevel)⟩
    rw [Call.apply, checkLevel_ofNat, checkKey_eq_ok.mpr hdecode]
    rfl
  · obtain ⟨⟨file, input'⟩, hread, h⟩ := Result.bind_eq_ok.mp h
    cases h
    have hread := orMalformed_eq_ok hread
    obtain ⟨⟨level, input₁⟩, hlevel, hread⟩ := Option.bind_eq_some_iff.mp hread
    obtain ⟨⟨number, input₂⟩, hnumber, hread⟩ := Option.bind_eq_some_iff.mp hread
    cases hread
    obtain ⟨hne, hlt, hlength⟩ := readFileNumber_eq_some hnumber
    refine ⟨.removeFile (UInt32.ofNat level.val) (UInt64.ofNat number), ?_, trivial, trivial,
      hlength.trans (readLevel_eq_some hlevel)⟩
    rw [Call.apply, checkLevel_ofNat, UInt64.toNat_ofNat_of_lt' hlt]
    exact if_neg hne
  · obtain ⟨⟨added, input'⟩, hread, h⟩ := Result.bind_eq_ok.mp h
    cases h
    have hread := orMalformed_eq_ok hread
    obtain ⟨⟨level, input₁⟩, hlevel, hread⟩ := Option.bind_eq_some_iff.mp hread
    obtain ⟨⟨number, input₂⟩, hnumber, hread⟩ := Option.bind_eq_some_iff.mp hread
    obtain ⟨⟨fileSize, input₃⟩, hsize, hread⟩ := Option.bind_eq_some_iff.mp hread
    obtain ⟨⟨smallest, input₄⟩, hsmallest, hread⟩ := Option.bind_eq_some_iff.mp hread
    obtain ⟨⟨largest, input₅⟩, hlargest, hread⟩ := Option.bind_eq_some_iff.mp hread
    cases hread
    have hlength₁ := readLevel_eq_some hlevel
    obtain ⟨hne, hnumberLt, hlength₂⟩ := readFileNumber_eq_some hnumber
    obtain ⟨hsizeLt, hlength₃⟩ := readNumber_eq_some hsize
    obtain ⟨small, hsmall, hfits₄, hlength₄⟩ := readInternalKey_eq_some hsmallest
    obtain ⟨large, hlarge, hfits₅, hlength₅⟩ := readInternalKey_eq_some hlargest
    refine ⟨.addFile (UInt32.ofNat level.val) (UInt64.ofNat number) (UInt64.ofNat fileSize) small
      large 0, ?_, ⟨hfits₄, hfits₅⟩, rfl, by omega⟩
    rw [Call.apply, checkLevel_ofNat, UInt64.toNat_ofNat_of_lt' hnumberLt,
      UInt64.toNat_ofNat_of_lt' hsizeLt, checkKey_eq_ok.mpr hsmall, checkKey_eq_ok.mpr hlarge]
    show (if number = 0 then _ else _) = _
    rw [if_neg hne]
    exact if_neg hne

/-! ## The loop of `Decode` -/

theorem decodeRound_inl (h : decodeRound (edit, input) = .inl (edit', rest)) :
    rest.length < input.length ∧
      ∃ call : Call, call.apply edit = .ok edit' ∧ call.Fits ∧ call.Unbudgeted := by
  cases input with
  | nil => cases h
  | cons b input =>
    rw [decodeRound] at h
    · split at h
      · cases h
      · next tag input' htag =>
        split at h
        · cases h
        · next next hfield =>
          cases h
          obtain ⟨call, hcall, hfits, hbudget, hlength⟩ := decodeField_call hfield
          exact ⟨hlength.trans_lt (consumeVarintFrom_length_lt htag), call, hcall, hfits, hbudget⟩
    · exact List.cons_ne_nil b input

theorem decode_ends (encoded : Bytes) : Loop.Ends decodeRound ({}, encoded) (decode encoded) :=
  Loop.ends_run (fun _ _ h => (decodeRound_inl h).1) _ (Nat.lt_succ_self encoded.length)

theorem decodeRound_ok (h : decodeRound (edit, input) = .inr (.ok edit')) :
    input = [] ∧ edit = edit' := by
  cases input with
  | nil =>
    cases h
    exact ⟨rfl, rfl⟩
  | cons b input =>
    rw [decodeRound] at h
    · split at h
      · cases h
      · split at h
        · cases h
        · cases h
    · exact List.cons_ne_nil b input

/-! ## What decoding accepts -/

/-- A decoded edit is what accepted calls build. -/
theorem calls_of_ends {state : VersionEdit ByteKey × Bytes} {result : Result (VersionEdit ByteKey)}
    (h : Loop.Ends decodeRound state result) : ∀ {edit : VersionEdit ByteKey}, result = .ok edit →
      ∃ calls : List Call, calls.foldlM Call.apply state.1 = .ok edit ∧
        ∀ call ∈ calls, call.Fits ∧ call.Unbudgeted := by
  induction h with
  | done h =>
    rintro edit rfl
    obtain ⟨_, rfl⟩ := decodeRound_ok h
    exact ⟨[], rfl, fun _ hcall => nomatch hcall⟩
  | again h _ ih =>
    intro edit hresult
    obtain ⟨_, call, hcall, hfits, hbudget⟩ := decodeRound_inl h
    obtain ⟨calls, hcalls, hall⟩ := ih hresult
    refine ⟨call :: calls, ?_, fun c hc => ?_⟩
    · rw [List.foldlM_cons, hcall]
      exact hcalls
    · rcases List.mem_cons.mp hc with rfl | hc
      · exact ⟨hfits, hbudget⟩
      · exact hall c hc

theorem decode_calls (h : decode encoded = .ok edit) :
    ∃ calls : List Call, calls.foldlM Call.apply {} = .ok edit ∧
      ∀ call ∈ calls, call.Fits ∧ call.Unbudgeted :=
  calls_of_ends (decode_ends encoded) h

theorem foldlM_induct {P : VersionEdit ByteKey → Prop} {calls : List Call}
    (hstep : ∀ call ∈ calls, ∀ edit edit', P edit → call.apply edit = .ok edit' → P edit') :
    ∀ {start edit : VersionEdit ByteKey}, P start → calls.foldlM Call.apply start = .ok edit →
      P edit := by
  induction calls with
  | nil =>
    intro start edit hstart h
    cases h
    exact hstart
  | cons call calls ih =>
    intro start edit hstart h
    rw [List.foldlM_cons] at h
    obtain ⟨middle, hcall, h⟩ := Result.bind_eq_ok.mp h
    exact ih (fun c hc => hstep c (List.mem_cons_of_mem _ hc))
      (hstep call List.mem_cons_self start middle hstart hcall) h

theorem decode_storable (h : decode encoded = .ok edit) : Storable edit ∧ edit.Unbudgeted := by
  obtain ⟨calls, hcalls, hall⟩ := decode_calls h
  refine foldlM_induct (P := fun edit => Storable edit ∧ edit.Unbudgeted) ?_
    ⟨storable_empty, fun _ hadded => absurd hadded List.not_mem_nil⟩ hcalls
  intro call hcall edit edit' hs happly
  obtain ⟨hstorable, hkept⟩ := call.keeps hs.1 (hall call hcall).1 happly
  exact ⟨hstorable, hkept (hall call hcall).2 hs.2⟩

/-- Edits survive their encoding up to the seek budgets, which it leaves out; what decodes is what
accepted calls build, and decodes again from its own encoding; and decoding always ends, with a
success only at the end of the input. -/
theorem versionEdit_codec :
    (∀ calls : List Call, (∀ call ∈ calls, call.Fits) →
      decode (encode (build calls)) = .ok (persistedEdit (build calls))) ∧
    (∀ (encoded : Bytes) (edit : VersionEdit ByteKey), decode encoded = .ok edit →
      decode (encode edit) = .ok edit ∧ ∃ calls : List Call, calls.foldlM Call.apply {} = .ok edit) ∧
    ∀ encoded : Bytes, Loop.Ends decodeRound ({}, encoded) (decode encoded) ∧
      ∀ edit, decode encoded = .ok edit →
        Relation.ReflTransGen (fun s t => decodeRound s = .inl t) ({}, encoded) (edit, []) := by
  refine ⟨fun calls hfits => decode_encode (build_storable hfits), fun encoded edit h => ⟨?_, ?_⟩,
    fun encoded => ⟨decode_ends encoded, fun edit h => ?_⟩⟩
  · rw [decode_encode (decode_storable h).1, (decode_storable h).2.persisted]
  · obtain ⟨calls, hcalls, _⟩ := decode_calls h
    exact ⟨calls, hcalls⟩
  · obtain ⟨⟨last, rest⟩, hreach, hlast⟩ := (decode_ends encoded).exists_last
    rw [h] at hlast
    obtain ⟨rfl, rfl⟩ := decodeRound_ok hlast
    exact hreach

def someCalls : List Call :=
  [.setComparatorName [99], .setNextFileNumber 0, .setNextFileNumber 300, .setLastSequence 5,
    .addCompactPointer 3 [1, 2, 7, 0, 0, 0, 0, 0, 0], .addCompactPointer 2 [1, 1, 7, 0, 0, 0, 0, 0, 0],
    .removeFile 1 9, .removeFile 0 4, .removeFile 7 4, .removeFile 0 4,
    .addFile 1 8 100 [1, 1, 7, 0, 0, 0, 0, 0, 0] [2, 0, 7, 0, 0, 0, 0, 0, 0] 3]

/-- The calls that the mutators refuse have no part in it. -/
theorem versionEdit_codec_some :
    decode (encode (build someCalls)) = .ok (persistedEdit (build someCalls)) ∧
      (build someCalls).nextFileNumber = some 300 ∧
      (build someCalls).compactPointers = [(2, ⟨[1], 7, .value⟩)] ∧
      (build someCalls).deletedFiles = [DeletedFile.mk 0 4, DeletedFile.mk 1 9] := by
  have hfits : ∀ call ∈ someCalls, call.Fits := by
    simp [someCalls, Call.Fits]
  exact ⟨versionEdit_codec.1 someCalls hfits, by rfl, by rfl, by rfl⟩

end VersionEdit
end ModernLevelDB
