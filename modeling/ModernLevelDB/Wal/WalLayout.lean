import ModernLevelDB.Wal.WalReader

/-! # What the bytes of a log hold

The bytes of a file determine its physical fragments and damaged regions, and these determine the
logical records. A reader finds just that, however the file splits its reads. -/
namespace ModernLevelDB
set_option autoImplicit false

variable {extend : CrcExtend}

/-! ## One fragment -/

/-- The bytes begin with a fragment that the checks accept. -/
structure Decodes (extend : CrcExtend) (encoded : Bytes) (type : WalRecordType) (payload : Bytes) :
    Prop where
  type_ne : type ≠ .zero
  fits : walHeaderSize + payload.length ≤ encoded.length
  payload_eq : (encoded.drop walHeaderSize).take payload.length = payload
  size : decodeFixed ((encoded.drop 4).take 2) = payload.length
  type_eq : (encoded.getD 6 0).toNat = type.code
  checksum : walChecksumMatches extend encoded payload = true

theorem code_of_ofCode {code : Nat} {type : WalRecordType} (h : WalRecordType.ofCode code = some type) :
    type.code = code := by
  unfold WalRecordType.ofCode at h
  split at h
  · cases h; rfl
  · cases h; rfl
  · cases h; rfl
  · cases h; rfl
  · cases h; rfl
  · cases h

theorem readWalPayloadSize_cases (encoded : Bytes) :
    (∃ failure, readWalPayloadSize encoded = .error failure ∧ failure.skip = none) ∨
      (readWalPayloadSize encoded = .ok (decodeFixed ((encoded.drop 4).take 2)) ∧
        walHeaderSize + decodeFixed ((encoded.drop 4).take 2) ≤ encoded.length) := by
  unfold readWalPayloadSize
  dsimp only
  split
  · exact .inl ⟨_, rfl, rfl⟩
  · split
    · exact .inl ⟨_, rfl, rfl⟩
    · split
      · exact .inl ⟨_, rfl, rfl⟩
      · exact .inr ⟨rfl, by omega⟩

theorem decodeWalFragment_cases (extend : CrcExtend) (encoded : Bytes) :
    (∃ failure, decodeWalFragment extend encoded = .error failure ∧ failure.skip = none) ∨
      (∃ failure, decodeWalFragment extend encoded = .error failure ∧
        failure.failure = .unknownType ∧
        failure.skip = some (walHeaderSize + decodeFixed ((encoded.drop 4).take 2)) ∧
        walHeaderSize + decodeFixed ((encoded.drop 4).take 2) ≤ encoded.length) ∨
      decodeWalFragment extend encoded = .ok .endOfBlock ∨
      ∃ type payload, decodeWalFragment extend encoded =
          .ok (.fragment type payload (walHeaderSize + payload.length)) ∧
        Decodes extend encoded type payload := by
  rcases readWalPayloadSize_cases encoded with ⟨failure, hsize, hskip⟩ | ⟨hsize, hfits⟩
  · refine .inl ⟨failure, ?_, hskip⟩
    unfold decodeWalFragment
    rw [hsize]
    rfl
  · unfold decodeWalFragment
    rw [hsize]
    simp only [bind, Except.bind]
    generalize hpayload : (encoded.drop walHeaderSize).take
      (decodeFixed ((encoded.drop 4).take 2)) = payload
    have hlen : payload.length = decodeFixed ((encoded.drop 4).take 2) := by
      rw [← hpayload, List.length_take, List.length_drop]
      omega
    split
    · exact .inr (.inr (.inl rfl))
    · cases hchecksum : walChecksumMatches extend encoded payload with
      | false => exact .inl ⟨_, rfl, rfl⟩
      | true =>
        right
        simp only [Bool.not_true, Bool.false_eq_true, if_false]
        cases htype : WalRecordType.ofCode (encoded.getD 6 0).toNat with
        | none => exact .inl ⟨_, rfl, rfl, rfl, hfits⟩
        | some type =>
          by_cases hzero : type = .zero
          · subst hzero
            exact .inl ⟨_, rfl, rfl, rfl, hfits⟩
          · refine .inr (.inr ⟨type, payload, ?_, hzero, by omega, by rw [hlen, hpayload], hlen.symm,
              (code_of_ofCode htype).symm, hchecksum⟩)
            rw [hlen]
            cases type with
            | zero => exact absurd rfl hzero
            | full => rfl
            | first => rfl
            | middle => rfl
            | last => rfl

/-! ## Fragments and damage, by position -/

def blockLeft (position : Nat) : Nat := walBlockSize - position % walBlockSize

theorem blockLeft_pos (position : Nat) : 0 < blockLeft position := by
  have : position % walBlockSize < walBlockSize := Nat.mod_lt _ (by decide)
  unfold blockLeft
  omega

/-- What stands at a position: less than a header, a payload that the end of the file cuts, or
something to report and its size. -/
inductive Physical where
  | trailer (size : Nat)
  | cutTail
  | found (read : PhysicalRead) (size : Nat)

def physicalAt (extend : CrcExtend) (position : Nat) (rest : Bytes) : Physical :=
  let left := min rest.length (blockLeft position)
  if left < walHeaderSize then .trailer left
  else
    match decodeWalFragment extend (rest.take left) with
    | .error failure =>
        if decide (rest.length < blockLeft position) &&
            (failure.failure == .truncatedPayload || failure.failure == .payloadTooLarge) then .cutTail
        else
          .found (.corruption failure.error (failure.skip.getD left) position) (failure.skip.getD left)
    | .ok .endOfBlock => .found (.fragment ⟨.zero, [], position, position % walBlockSize⟩) left
    | .ok (.fragment type payload encodedSize) =>
        .found (.fragment ⟨type, payload, position, position % walBlockSize⟩) encodedSize

def PhysicalRead.offset : PhysicalRead → Nat
  | .fragment found => found.offset
  | .corruption _ _ offset => offset

variable {position size : Nat} {rest : Bytes} {read : PhysicalRead}

theorem physicalAt_found (h : physicalAt extend position rest = .found read size) :
    walHeaderSize ≤ size ∧ size ≤ min rest.length (blockLeft position) ∧ read.offset = position ∧
      ∀ fragment, read = .fragment fragment → fragment.blockPosition = position % walBlockSize ∧
        (fragment.type ≠ .zero → size = walHeaderSize + fragment.payload.length ∧
          Decodes extend (rest.take (blockLeft position)) fragment.type fragment.payload) := by
  unfold physicalAt at h
  dsimp only at h
  have htake : rest.take (min rest.length (blockLeft position)) = rest.take (blockLeft position) := by
    rw [Nat.min_comm, ← List.take_take, List.take_length]
  have hlength : (rest.take (blockLeft position)).length = min rest.length (blockLeft position) := by
    rw [List.length_take, Nat.min_comm]
  rw [htake] at h
  generalize min rest.length (blockLeft position) = left at *
  split at h
  · cases h
  · have hleft : walHeaderSize ≤ left := by omega
    rcases decodeWalFragment_cases extend (rest.take (blockLeft position)) with
      ⟨failure, hd, hskip⟩ | ⟨failure, hd, _, hskip, hle⟩ | hd | ⟨type, payload, hd, hdecodes⟩
    · rw [hd] at h
      simp only [hskip, Option.getD_none] at h
      split at h
      · cases h
      · cases h
        exact ⟨hleft, le_rfl, rfl, fun fragment hf => by cases hf⟩
    · rw [hd] at h
      simp only [hskip, Option.getD_some] at h
      split at h
      · cases h
      · cases h
        exact ⟨by omega, by omega, rfl, fun fragment hf => by cases hf⟩
    · rw [hd] at h
      cases h
      refine ⟨hleft, le_rfl, rfl, fun fragment hf => ?_⟩
      cases hf
      exact ⟨rfl, fun hne => absurd rfl hne⟩
    · rw [hd] at h
      cases h
      have hfits := hdecodes.fits
      refine ⟨by omega, by omega, rfl, fun fragment hf => ?_⟩
      cases hf
      exact ⟨rfl, fun _ => ⟨rfl, hdecodes⟩⟩

theorem physicalAt_trailer (h : physicalAt extend position rest = .trailer size) :
    size = min rest.length (blockLeft position) ∧ size < walHeaderSize := by
  unfold physicalAt at h
  dsimp only at h
  split at h
  · cases h
    exact ⟨rfl, by assumption⟩
  · split at h
    · split at h <;> cases h
    · cases h
    · cases h

theorem physicalAt_size_pos (h : physicalAt extend position rest = .found read size) :
    0 < size := by
  have hle := (physicalAt_found h).1
  have : walHeaderSize = 7 := rfl
  omega

theorem trailer_size_pos (hrest : rest ≠ []) (h : physicalAt extend position rest = .trailer size) :
    0 < size := by
  have hsize := (physicalAt_trailer h).1
  have hpos := blockLeft_pos position
  have hlen := List.length_pos_iff.mpr hrest
  omega

/-- The fragments and the damaged regions of a file from a position on, in their order. -/
def layout (extend : CrcExtend) (position : Nat) (rest : Bytes) : List PhysicalRead :=
  if rest = [] then []
  else
    match _h : physicalAt extend position rest with
    | .trailer size => layout extend (position + size) (rest.drop size)
    | .cutTail => []
    | .found read size => read :: layout extend (position + size) (rest.drop size)
termination_by rest.length
decreasing_by
  · have := trailer_size_pos ‹_› ‹_›
    have := List.length_pos_iff.mpr ‹_›
    rw [List.length_drop]
    omega
  · have := physicalAt_size_pos ‹_›
    have := List.length_pos_iff.mpr ‹_›
    rw [List.length_drop]
    omega

@[simp] theorem layout_nil (position : Nat) : layout extend position [] = [] := by
  rw [layout, if_pos rfl]

theorem layout_trailer (h : physicalAt extend position rest = .trailer size) :
    layout extend position rest = layout extend (position + size) (rest.drop size) := by
  by_cases hrest : rest = []
  · simp [hrest]
  · rw [layout, if_neg hrest]
    split
    · next hsize => rw [h] at hsize; cases hsize; rfl
    · next htail => rw [h] at htail; cases htail
    · next hfound => rw [h] at hfound; cases hfound

theorem layout_cutTail (h : physicalAt extend position rest = .cutTail) :
    layout extend position rest = [] := by
  by_cases hrest : rest = []
  · simp [hrest]
  · rw [layout, if_neg hrest]
    split
    · next hsize => rw [h] at hsize; cases hsize
    · rfl
    · next hfound => rw [h] at hfound; cases hfound

theorem layout_found (h : physicalAt extend position rest = .found read size) :
    layout extend position rest = read :: layout extend (position + size) (rest.drop size) := by
  have hrest : rest ≠ [] := by
    have hle := physicalAt_found h
    have hpos := physicalAt_size_pos h
    intro hnil
    rw [hnil] at hle
    simp only [List.length_nil] at hle
    omega
  rw [layout, if_neg hrest]
  split
  · next hsize => rw [h] at hsize; cases hsize
  · next htail => rw [h] at htail; cases htail
  · next hfound => rw [h] at hfound; cases hfound; rfl

theorem length_layout_le (extend : CrcExtend) (position : Nat) (rest : Bytes) :
    (layout extend position rest).length ≤ rest.length := by
  induction position, rest using layout.induct extend with
  | case1 position => simp
  | case2 position rest hrest size h ih =>
    rw [layout_trailer h]
    rw [List.length_drop] at ih
    omega
  | case3 position rest hrest h => simp [layout_cutTail h]
  | case4 position rest hrest read size h ih =>
    have hpos := physicalAt_size_pos h
    have hle := (physicalAt_found h).2.1
    rw [layout_found h, List.length_cons]
    rw [List.length_drop] at ih
    omega

/-! ## Logical records -/

/-- The report of a record under way that does not go on. A record without bytes is not reported. -/
def abandoned (reason : String) : Option (Bytes × Nat) → List WalReadEvent
  | some (data, offset) =>
      if data = [] then [] else [.corruption (Error.corruption reason) data.length offset]
  | none => []

/-- The events of a sequence of fragments and damaged regions. The first argument is the record under
way and its offset. -/
def assemble : Option (Bytes × Nat) → List PhysicalRead → List WalReadEvent
  | _, [] => []
  | none, .corruption error dropped offset :: reads =>
      .corruption error dropped offset :: assemble none reads
  | some (data, start), .corruption error dropped _ :: reads =>
      .corruption error (dropped + data.length) start :: assemble none reads
  | underway, .fragment ⟨.zero, _, _, _⟩ :: reads =>
      abandoned "WAL fragmented record ended at a zero marker" underway ++ assemble none reads
  | underway, .fragment ⟨.full, payload, offset, _⟩ :: reads =>
      abandoned "WAL fragmented record was interrupted by a full record" underway ++
        .record payload offset :: assemble none reads
  | underway, .fragment ⟨.first, payload, offset, _⟩ :: reads =>
      abandoned "WAL fragmented record was interrupted by a first fragment" underway ++
        assemble (some (payload, offset)) reads
  | some (data, start), .fragment ⟨.middle, payload, _, _⟩ :: reads =>
      assemble (some (data ++ payload, start)) reads
  | some (data, start), .fragment ⟨.last, payload, _, _⟩ :: reads =>
      .record (data ++ payload) start :: assemble none reads
  | none, .fragment ⟨.middle, payload, offset, _⟩ :: reads
  | none, .fragment ⟨.last, payload, offset, _⟩ :: reads =>
      .corruption (Error.corruption "WAL fragment has no starting fragment") payload.length offset ::
        assemble none reads

theorem length_abandoned_le (reason : String) (underway : Option (Bytes × Nat)) :
    (abandoned reason underway).length ≤ 1 := by
  unfold abandoned
  split
  · split <;> simp
  · simp

theorem length_assemble_le (reads : List PhysicalRead) : ∀ underway : Option (Bytes × Nat),
    (assemble underway reads).length ≤ 2 * reads.length := by
  induction reads with
  | nil => intro underway; cases underway <;> simp [assemble]
  | cons read reads ih =>
    intro underway
    have hnone := ih none
    have habandoned := fun reason => length_abandoned_le reason underway
    cases read with
    | corruption error dropped offset =>
      cases underway <;> simp only [assemble, List.length_cons] <;> omega
    | fragment fragment =>
      obtain ⟨type, payload, offset, position⟩ := fragment
      cases type with
      | zero =>
        have := habandoned "WAL fragmented record ended at a zero marker"
        simp only [assemble, List.length_append, List.length_cons]
        omega
      | full =>
        have := habandoned "WAL fragmented record was interrupted by a full record"
        simp only [assemble, List.length_append, List.length_cons]
        omega
      | first =>
        have := habandoned "WAL fragmented record was interrupted by a first fragment"
        have := ih (some (payload, offset))
        simp only [assemble, List.length_append, List.length_cons]
        omega
      | middle =>
        cases underway with
        | none => simp only [assemble, List.length_cons]; omega
        | some under =>
          have := ih (some (under.1 ++ payload, under.2))
          simp only [assemble, List.length_cons]
          omega
      | last => cases underway <;> simp only [assemble, List.length_cons] <;> omega

end ModernLevelDB
