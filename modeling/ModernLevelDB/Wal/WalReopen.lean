import ModernLevelDB.Wal.WalRoundTrip

/-! # A log that is cut and written again

A writer that is reopened on a cut log fills the block with zeros first. A reader then returns the
records that were whole, reports of damage at most, and the new records: the zeros end a record under
way, and what they do to a fragment that lost its end is left to its checksum. -/
namespace ModernLevelDB
set_option autoImplicit false

variable {extend : CrcExtend}

def WalReadEvent.isCorruption : WalReadEvent → Bool
  | .corruption .. => true
  | .record .. => false

/-- Reports of damage, then `news`. -/
def Follows (events news : List WalReadEvent) : Prop :=
  ∃ damage : List WalReadEvent, (∀ event ∈ damage, event.isCorruption = true) ∧
    events = damage ++ news

theorem Follows.refl (news : List WalReadEvent) : Follows news news := ⟨[], by simp, rfl⟩

variable {news : List WalReadEvent}

theorem Follows.append {before events : List WalReadEvent}
    (hbefore : ∀ event ∈ before, event.isCorruption = true) (h : Follows events news) :
    Follows (before ++ events) news := by
  obtain ⟨damage, hdamage, rfl⟩ := h
  refine ⟨before ++ damage, ?_, (List.append_assoc _ _ _).symm⟩
  intro event hmem
  rcases List.mem_append.mp hmem with hmem | hmem
  · exact hbefore event hmem
  · exact hdamage event hmem

variable {underway : Option (Bytes × Nat)}

theorem isCorruption_of_abandoned {reason : String} :
    ∀ event ∈ abandoned reason underway, event.isCorruption = true := by
  intro event hmem
  unfold abandoned at hmem
  split at hmem
  · split at hmem
    · cases hmem
    · cases List.mem_singleton.mp hmem
      rfl
  · cases hmem

theorem follows_marker {reads : List PhysicalRead} {payload : Bytes} {offset position : Nat}
    (h : Follows (assemble none reads) news) :
    Follows (assemble underway (.fragment ⟨.zero, payload, offset, position⟩ :: reads)) news := by
  rw [assemble]
  exact h.append isCorruption_of_abandoned

theorem follows_corruption {reads : List PhysicalRead} {error : Error} {dropped offset : Nat}
    (h : Follows (assemble none reads) news) :
    Follows (assemble underway (.corruption error dropped offset :: reads)) news := by
  have hone : ∀ (error : Error) (dropped offset : Nat), ∀ event ∈
      [WalReadEvent.corruption error dropped offset], event.isCorruption = true := by
    intro error dropped offset event hmem
    cases List.mem_singleton.mp hmem
    rfl
  cases underway with
  | none => exact h.append (hone error dropped offset)
  | some under => exact h.append (hone error (dropped + under.1.length) under.2)

theorem follows_first (isLast : Bool) (underway : Option (Bytes × Nat)) (reads : List PhysicalRead)
    (payload : Bytes) (offset position : Nat) :
    Follows (assemble underway
        (.fragment ⟨selectFragmentType true isLast, payload, offset, position⟩ :: reads))
      (assemble none
        (.fragment ⟨selectFragmentType true isLast, payload, offset, position⟩ :: reads)) := by
  cases isLast with
  | true => exact (Follows.refl _).append isCorruption_of_abandoned
  | false => exact (Follows.refl _).append isCorruption_of_abandoned

namespace WalReader

variable {position : Nat}

theorem follows_records (extend : CrcExtend) (hstart : position % walBlockSize = 0) (record : Bytes)
    (records : List Bytes) (underway : Option (Bytes × Nat)) :
    Follows (assemble underway (layout extend position (recordsBytes extend 0 (record :: records))))
      (recordEvents extend position (record :: records)) := by
  have hall := assemble_records extend (record :: records) position []
  rw [hstart, List.append_nil, layout_nil, assemble, List.append_nil] at hall
  rw [← hall, recordsBytes, fragment, ← hstart]
  obtain ⟨padding, start, ⟨hp, heq⟩ | ⟨payload, more, rfl, _, hp, _, heq⟩⟩ :=
    fragmentsFrom_cases extend (record.length + 1) (position % walBlockSize) true record
  · rw [heq]
    simp only [encodedFragments, List.flatMap_cons, List.append_assoc]
    rw [layout_encoded (selectFragmentType_ne_zero _ _) hp]
    exact follows_first true underway _ _ _ _
  · rw [heq]
    simp only [encodedFragments, List.flatMap_cons, List.append_assoc]
    rw [layout_encoded (selectFragmentType_ne_zero _ _) hp]
    exact follows_first false underway _ _ _ _

/-! ## A block that ends with zeros -/

theorem physicalAt_block (extend : CrcExtend) {block : Bytes} (rest : Bytes)
    (hblock : block.length = blockLeft position) (hlong : walHeaderSize ≤ block.length) :
    physicalAt extend position (block ++ rest) =
      match decodeWalFragment extend block with
      | .error failure =>
          .found (.corruption failure.error (failure.skip.getD block.length) position)
            (failure.skip.getD block.length)
      | .ok .endOfBlock =>
          .found (.fragment ⟨.zero, [], position, position % walBlockSize⟩) block.length
      | .ok (.fragment type payload encodedSize) =>
          .found (.fragment ⟨type, payload, position, position % walBlockSize⟩) encodedSize := by
  have hmin : min (block ++ rest).length (blockLeft position) = block.length := by
    rw [List.length_append]
    omega
  have hwhole : decide ((block ++ rest).length < blockLeft position) = false := by
    rw [decide_eq_false_iff_not, List.length_append]
    omega
  unfold physicalAt
  dsimp only
  rw [hmin, if_neg (by omega), List.take_left' rfl, hwhole]
  cases decodeWalFragment extend block with
  | error failure => rfl
  | ok decoded => cases decoded <;> rfl

theorem decodeWalFragment_zeros (extend : CrcExtend) {size : Nat} (h : walHeaderSize ≤ size) :
    decodeWalFragment extend (List.replicate size 0) = .ok .endOfBlock := by
  obtain ⟨more, rfl⟩ := Nat.exists_eq_add_of_le h
  have hsize : decodeFixed (((List.replicate (walHeaderSize + more) (0 : UInt8)).drop 4).take 2) = 0 := by
    rw [List.drop_replicate, List.take_replicate, show min 2 (walHeaderSize + more - 4) = 2 by
      have : walHeaderSize = 7 := rfl
      omega]
    rfl
  have hbyte : (List.replicate (walHeaderSize + more) (0 : UInt8)).getD 6 0 = 0 := by
    simp [List.getD_eq_getElem?_getD, List.getElem?_replicate, walHeaderSize]
    split <;> rfl
  have hread : readWalPayloadSize (List.replicate (walHeaderSize + more) 0) = .ok 0 := by
    unfold readWalPayloadSize
    rw [hsize, List.length_replicate]
    dsimp only
    rw [if_neg (by omega), if_neg (by omega), if_neg (by omega)]
  unfold decodeWalFragment
  rw [hread, hbyte]
  rfl

variable {rest : Bytes} {news : List WalReadEvent}

theorem follows_zeros {size : Nat} (hend : (position + size) % walBlockSize = 0)
    (hsize : size < walBlockSize)
    (hnews : ∀ underway, Follows (assemble underway (layout extend (position + size) rest)) news)
    (underway : Option (Bytes × Nat)) :
    Follows (assemble underway (layout extend position (List.replicate size 0 ++ rest))) news := by
  have hblock : walBlockSize = 32768 := rfl
  by_cases hzero : size = 0
  · subst hzero
    exact hnews underway
  · have hleft : size = blockLeft position := by
      unfold blockLeft
      rw [hblock] at hend hsize ⊢
      omega
    have hlen : (List.replicate size (0 : UInt8)).length = size := List.length_replicate
    by_cases hshort : size < walHeaderSize
    · rw [layout_padding (by rw [hlen]; exact hleft) (by rw [hlen]; exact hshort), hlen]
      exact hnews underway
    · have hat := physicalAt_block extend rest (hlen.trans hleft) (by omega)
      rw [decodeWalFragment_zeros extend (by omega)] at hat
      rw [layout_found hat, hlen, List.drop_left' hlen]
      exact follows_marker (hnews none)

variable {zeros : Nat}

theorem follows_damaged {front : Bytes} (hblock : front.length + zeros = blockLeft position)
    (hlong : walHeaderSize ≤ blockLeft position) (hfront : front.length ≤ walHeaderSize +
      decodeFixed (((front ++ List.replicate zeros 0).drop 4).take 2))
    (hdamaged : ∀ type payload, ¬ Decodes extend (front ++ List.replicate zeros 0) type payload)
    (hnews : ∀ underway,
      Follows (assemble underway (layout extend (position + blockLeft position) rest)) news)
    (underway : Option (Bytes × Nat)) :
    Follows (assemble underway
      (layout extend position (front ++ List.replicate zeros 0 ++ rest))) news := by
  generalize hwhole : front ++ List.replicate zeros (0 : UInt8) = block at *
  have hlen : block.length = blockLeft position := by
    rw [← hwhole, List.length_append, List.length_replicate]
    exact hblock
  have hat := physicalAt_block extend rest hlen (by omega)
  rcases decodeWalFragment_cases extend block with
    ⟨failure, hd, hskip⟩ | ⟨failure, hd, _, hskip, hle⟩ | hd | ⟨type, payload, _, hdecodes⟩
  · rw [hd] at hat
    simp only [hskip, Option.getD_none] at hat
    rw [layout_found hat, List.drop_left' rfl, hlen]
    exact follows_corruption (hnews none)
  · -- Only the record is lost: behind it the block has zeros left.
    rw [hd] at hat
    simp only [hskip, Option.getD_some] at hat
    rw [layout_found hat, List.drop_append_of_le_length hle]
    generalize hsize : walHeaderSize + decodeFixed ((block.drop 4).take 2) = size at *
    have hdrop : block.drop size = List.replicate (blockLeft position - size) 0 := by
      rw [← hwhole, List.drop_append, List.drop_eq_nil_of_le hfront, List.nil_append,
        List.drop_replicate]
      congr 1
      omega
    have hpos : 0 < size := by
      have : walHeaderSize = 7 := rfl
      omega
    have hmod : (position + size + (blockLeft position - size)) % walBlockSize = 0 := by
      have hrest : position + size + (blockLeft position - size) = position + blockLeft position := by
        omega
      rw [hrest]
      have : walBlockSize = 32768 := rfl
      unfold blockLeft
      rw [this]
      omega
    rw [hdrop]
    refine follows_corruption (follows_zeros hmod ?_ ?_ none)
    · have : blockLeft position ≤ walBlockSize := Nat.sub_le _ _
      omega
    · rw [show position + size + (blockLeft position - size) = position + blockLeft position by omega]
      exact hnews
  · rw [hd] at hat
    rw [layout_found hat, List.drop_left' rfl, hlen]
    exact follows_marker (hnews none)
  · exact absurd hdecodes (hdamaged type payload)

/-! ## The record that the cut broke -/

/-- No fragment that lost the end of its payload to the cut passes its checksum with zeros there. A
fragment that lost a part of its header has no type and is never taken for one. -/
def Detected (extend : CrcExtend) (cut : Nat) (placed : List (Nat × WalFragment)) : Prop :=
  ∀ offset fragment, (offset, fragment) ∈ placed → offset + walHeaderSize ≤ cut →
    cut < offset + walHeaderSize + fragment.payload.length →
    walChecksumMatches extend fragment.header
      (fragment.payload.take (cut - (offset + walHeaderSize)) ++
        List.replicate (offset + walHeaderSize + fragment.payload.length - cut) 0) = false

theorem not_decodes_header {front : Bytes} (hfront : front.length < walHeaderSize)
    (type : WalRecordType) (payload : Bytes) :
    ¬ Decodes extend (front ++ List.replicate zeros 0) type payload := by
  intro h
  have hbyte : (front ++ List.replicate zeros (0 : UInt8)).getD 6 0 = 0 := by
    have : walHeaderSize = 7 := rfl
    rw [List.getD_eq_getElem?_getD, List.getElem?_append_right (by omega), List.getElem?_replicate]
    split <;> rfl
  have hcode := h.type_eq
  rw [hbyte] at hcode
  have hne := h.type_ne
  cases type with
  | zero => exact hne rfl
  | full => cases hcode
  | first => cases hcode
  | middle => cases hcode
  | last => cases hcode

variable {type : WalRecordType} {payload : Bytes}

theorem not_decodes_payload {kept : Nat} (hle : payload.length ≤ maximumWalPayload)
    (hkept : kept < payload.length) (hzeros : payload.length ≤ kept + zeros)
    (hdetected : walChecksumMatches extend (encodeHeader extend type payload)
      (payload.take kept ++ List.replicate (payload.length - kept) 0) = false)
    (type' : WalRecordType) (payload' : Bytes) :
    ¬ Decodes extend (encodeHeader extend type payload ++ payload.take kept ++ List.replicate zeros 0)
      type' payload' := by
  intro h
  rw [List.append_assoc] at h
  have hsize := h.size
  rw [header_payloadSize hle] at hsize
  have hpayload : payload' = payload.take kept ++ List.replicate (payload.length - kept) 0 := by
    rw [← h.payload_eq, ← hsize, List.drop_left' (length_encodeHeader type payload), List.take_append,
      List.take_take, List.take_replicate, List.length_take]
    congr 2
    · omega
    · omega
  have hchecksum := h.checksum
  rw [hpayload] at hchecksum
  have hheader : walChecksumMatches extend (encodeHeader extend type payload ++
      (payload.take kept ++ List.replicate zeros 0))
        (payload.take kept ++ List.replicate (payload.length - kept) 0) =
      walChecksumMatches extend (encodeHeader extend type payload)
        (payload.take kept ++ List.replicate (payload.length - kept) 0) := rfl
  rw [hheader, hdetected] at hchecksum
  cases hchecksum

theorem follows_cut_body {kept : Nat} (hfits : walHeaderSize + payload.length ≤ blockLeft position)
    (hkept : kept < walHeaderSize + payload.length) (hblock : kept + zeros = blockLeft position)
    (hdetected : walHeaderSize ≤ kept → walChecksumMatches extend (encodeHeader extend type payload)
      (payload.take (kept - walHeaderSize) ++
        List.replicate (walHeaderSize + payload.length - kept) 0) = false) (hnews : ∀ underway,
      Follows (assemble underway (layout extend (position + blockLeft position) rest)) news)
    (underway : Option (Bytes × Nat)) :
    Follows (assemble underway (layout extend position
      ((encodeHeader extend type payload ++ payload).take kept ++ List.replicate zeros 0 ++ rest)))
      news := by
  have hlen : ((encodeHeader extend type payload ++ payload).take kept).length = kept := by
    rw [List.length_take, List.length_append, length_encodeHeader]
    omega
  by_cases hheader : kept < walHeaderSize
  · exact follows_damaged (by rw [hlen]; exact hblock) (by omega) (by rw [hlen]; omega)
      (not_decodes_header (by rw [hlen]; exact hheader)) hnews underway
  · have hle := le_maximumWalPayload hfits
    have htake : (encodeHeader extend type payload ++ payload).take kept =
        encodeHeader extend type payload ++ payload.take (kept - walHeaderSize) := by
      rw [List.take_append, List.take_of_length_le (by rw [length_encodeHeader]; omega),
        length_encodeHeader]
    have hchecksum := hdetected (by omega)
    rw [show walHeaderSize + payload.length - kept = payload.length - (kept - walHeaderSize) by omega]
      at hchecksum
    rw [htake] at hlen ⊢
    refine follows_damaged (by rw [hlen]; exact hblock) (by omega) ?_
      (not_decodes_payload hle (by omega) (by omega) hchecksum) hnews underway
    rw [hlen, List.append_assoc, header_payloadSize hle]
    omega

theorem follows_cut_fragment {padding start cut : Nat}
    (hp : Placed (position % walBlockSize) padding start payload)
    (hcut : cut < (WalFragment.mk padding (encodeHeader extend type payload) payload).encoded.length)
    (hend : (position + cut + zeros) % walBlockSize = 0) (hzeros : zeros < walBlockSize)
    (hdetected : Detected extend (position + cut)
      [(position + padding, ⟨padding, encodeHeader extend type payload, payload⟩)])
    (hnews : ∀ underway,
      Follows (assemble underway (layout extend (position + cut + zeros) rest)) news)
    (underway : Option (Bytes × Nat)) :
    Follows (assemble underway (layout extend position
      ((WalFragment.mk padding (encodeHeader extend type payload) payload).encoded.take cut ++
        List.replicate zeros 0 ++ rest))) news := by
  have hsize : walBlockSize = 32768 := rfl
  have hfits := hp.fits
  have hfit := hp.fit
  have hmod := hp.mod
  rw [length_encoded] at hcut
  have hplace := hp.place
  have htake : (WalFragment.mk padding (encodeHeader extend type payload) payload).encoded.take cut =
      List.replicate (min cut padding) 0 ++
        (encodeHeader extend type payload ++ payload).take (cut - padding) := by
    rw [WalFragment.encoded, List.append_assoc, List.take_append, List.take_replicate,
      List.length_replicate]
  rw [htake]
  by_cases hinside : cut ≤ padding
  · rw [show cut - padding = 0 by omega, List.take_zero, List.append_nil,
      List.replicate_append_replicate, Nat.min_eq_left hinside]
    rw [Nat.add_assoc] at hend hnews
    refine follows_zeros hend ?_ hnews underway
    have : walHeaderSize = 7 := rfl
    rw [hsize] at hend hzeros hplace ⊢
    omega
  · have hleft : cut - padding + zeros = blockLeft (position + padding) := by
      unfold blockLeft
      rw [hmod]
      rw [hsize] at hend hzeros hmod hfit ⊢
      omega
    have hnews' : ∀ underway, Follows (assemble underway
        (layout extend (position + padding + blockLeft (position + padding)) rest)) news := by
      rw [← hleft, show position + padding + (cut - padding + zeros) = position + cut + zeros by omega]
      exact hnews
    have hbody := follows_cut_body hfits (show cut - padding < _ by omega) hleft
      (fun hheader => by
        have hchecksum := hdetected _ _ (List.mem_singleton.mpr rfl) (by omega)
          (show _ < position + padding + walHeaderSize + payload.length by omega)
        dsimp only at hchecksum
        rw [show position + cut - (position + padding + walHeaderSize) = cut - padding - walHeaderSize by
          omega, show position + padding + walHeaderSize + payload.length - (position + cut) =
            walHeaderSize + payload.length - (cut - padding) by omega] at hchecksum
        exact hchecksum)
      hnews' underway
    rw [Nat.min_eq_right (by omega)]
    rcases hplace with ⟨rfl, _⟩ | ⟨hpad, hshort, _⟩
    · exact hbody
    · rw [List.append_assoc, List.append_assoc,
        layout_padding (by rw [List.length_replicate]; exact hpad)
          (by rw [List.length_replicate]; exact hshort), List.length_replicate, ← List.append_assoc]
      exact hbody

/-! ## The reopened log -/

theorem logFragments_append (extend : CrcExtend) (before after : List Bytes) : ∀ offset : Nat,
    logFragments extend offset (before ++ after) = logFragments extend offset before ++
      logFragments extend (recordsEnd extend offset before) after := by
  induction before with
  | nil => intro offset; rfl
  | cons record before ih =>
    intro offset
    rw [List.cons_append, logFragments, logFragments, ih, List.append_assoc]
    rfl

/-- What a cut left of a log, zeros up to the end of the block, and new records. -/
theorem follows_reopened (extend : CrcExtend) {records : List Bytes} {count : Nat} {lost : Bytes}
    (htail : CutTail extend (recordsEnd extend 0 (records.take count)) (records.drop count) lost)
    (hend : ((recordsBytes extend 0 (records.take count) ++ lost).length + zeros) % walBlockSize = 0)
    (hzeros : zeros < walBlockSize)
    (hdetected : Detected extend (recordsBytes extend 0 (records.take count) ++ lost).length
      (headerOffsets 0 (logFragments extend 0 records))) (record : Bytes) (more : List Bytes) :
    Follows (assemble none (layout extend (recordsBytes extend 0 (records.take count)).length
        (lost ++ List.replicate zeros 0 ++ recordsBytes extend 0 (record :: more))))
      (recordEvents extend ((recordsBytes extend 0 (records.take count) ++ lost).length + zeros)
        (record :: more)) := by
  generalize hposition : (recordsBytes extend 0 (records.take count)).length = position at *
  have hmod : position % walBlockSize = recordsEnd extend 0 (records.take count) := by
    rw [← hposition]
    exact recordsEnd_zero_mod extend _
  have hsum : (recordsBytes extend 0 (records.take count) ++ lost).length = position + lost.length := by
    rw [List.length_append, hposition]
  rw [hsum] at hend hdetected ⊢
  have hnews := follows_records extend hend record more
  rcases htail with ⟨_, rfl⟩ | ⟨old, others, cut, hdrop, hcut, rfl⟩
  · exact follows_zeros hend hzeros hnews none
  · rw [← hmod] at hcut hend hdetected hnews ⊢
    have hlen : ((encodedFragments (fragment extend (position % walBlockSize) old).1).take cut).length =
        cut := by
      rw [List.length_take]
      omega
    rw [hlen] at hend hdetected hnews ⊢
    obtain ⟨position', padding, _, type, payload, cut', underway, hp, hcut', hsame, hmem, htail⟩ :=
      @exists_cut_fragment extend (old.length + 2) position cut none old _ rfl hcut
    rw [← hsame] at hend hdetected hnews
    rw [List.append_assoc]
    refine Eq.mpr (congrArg (Follows · _) (htail _)) ?_
    rw [← List.append_assoc, ← hsame]
    refine follows_cut_fragment hp hcut' hend hzeros ?_ hnews underway
    intro offset fragment hfound
    cases List.mem_singleton.mp hfound
    refine hdetected _ _ ?_
    rw [← List.take_append_drop count records, logFragments_append, headerOffsets_append,
      encodedFragments_logFragments, hposition, Nat.zero_add, ← hmod, hdrop, logFragments,
      headerOffsets_append]
    exact List.mem_append_right _ (List.mem_append_left _ hmem)

theorem addRecords_reopened {file : FileName} {size : Nat} {record : Bytes} {more : List Bytes}
    {writer : WalWriter} {w w' : World}
    (h : (WalWriter.reopened file size).addRecords extend (record :: more) w = (.returned writer, w')) :
    w'.disk = (FileOp.append file (List.replicate (WalWriter.reopened file size).reopenPadding 0 ++
      recordsBytes extend 0 (record :: more))).effect w.disk := by
  obtain ⟨added, w₁, hadd, h⟩ := FileM.bind_returned h
  obtain ⟨hdisk, rfl⟩ := WalWriter.addRecord_returned hadd
  obtain ⟨hdisk', _⟩ := addRecords_returned more h rfl
  rw [hdisk', hdisk, effect_append_append, List.append_assoc]
  rfl

theorem reopenPadding_spec (file : FileName) (size : Nat) :
    (size + (WalWriter.reopened file size).reopenPadding) % walBlockSize = 0 ∧
      (WalWriter.reopened file size).reopenPadding < walBlockSize := by
  have hsize : walBlockSize = 32768 := rfl
  unfold WalWriter.reopened
  dsimp only
  rw [hsize]
  split <;> omega

/-- A log that is cut anywhere holds its whole records for the reader, and then its end; no damage is
reported. When a writer is reopened on it, the new records follow, with reports of damage between them
at most, unless zeros happen to restore the checksum of a fragment that the cut broke. -/
theorem cut_log_reopened (extend : CrcExtend) (file : FileName) (records : List Bytes)
    (w w₁ : World) (writer : WalWriter)
    (h : WalWriter.writeLog extend file records w = (.returned writer, w₁)) (cut : Nat) :
    ∃ log count, w₁.disk file = some log ∧
      (∀ i, i < count ↔ i < records.length ∧
        (recordsBytes extend 0 (records.take (i + 1))).length ≤ cut) ∧
      (∀ (sizes : Nat → Nat) (k : Nat),
        readNextAt extend { file := { rest := log.take cut, sizes } } k =
          (recordEvents extend 0 (records.take count))[k]?) ∧
      ∀ (more : List Bytes) (w₂ w₃ : World) (writer' : WalWriter),
        w₂.disk file = some (log.take cut) →
        (WalWriter.reopened file (log.take cut).length).addRecords extend more w₂ =
          (.returned writer', w₃) →
        Detected extend (log.take cut).length (headerOffsets 0 (logFragments extend 0 records)) →
        ∃ contents damage, w₃.disk file = some contents ∧
          (∀ event ∈ damage, WalReadEvent.isCorruption event = true) ∧
          ∀ (sizes : Nat → Nat) (k : Nat),
            readNextAt extend { file := { rest := contents, sizes } } k =
              (recordEvents extend 0 (records.take count) ++ damage ++
                recordEvents extend ((log.take cut).length +
                  (WalWriter.reopened file (log.take cut).length).reopenPadding) more)[k]? := by
  obtain ⟨hlog, _⟩ := writeLog_returned h
  obtain ⟨count, lost, hcount, hiff, hbytes, htail⟩ := recordsBytes_take extend records 0 cut
  have hevents : ∀ (sizes : Nat → Nat) (k : Nat), readNextAt extend
      { file := { rest := (recordsBytes extend 0 records).take cut, sizes } } k =
        (recordEvents extend 0 (records.take count))[k]? := by
    intro sizes k
    have hwhole := assemble_whole extend (records.take count) lost []
    have hpassed : assemble none
        (layout extend (recordsBytes extend 0 (records.take count)).length lost) = [] := by
      rw [← recordsEnd_zero_mod] at htail
      exact assemble_cutTail htail
    rw [List.append_nil, List.append_nil, hpassed, List.append_nil, ← hbytes] at hwhole
    rw [readNextAt_start, hwhole]
  refine ⟨_, count, hlog, hiff, hevents, ?_⟩
  intro more w₂ w₃ writer' hcontents hadd hdetected
  cases more with
  | nil =>
    obtain ⟨_, rfl⟩ := FileM.pure_returned hadd
    refine ⟨_, [], hcontents, by simp, ?_⟩
    intro sizes k
    rw [hevents, recordEvents, List.append_nil, List.append_nil]
  | cons record more =>
    have hdisk := addRecords_reopened hadd
    obtain ⟨hend, hzeros⟩ := reopenPadding_spec file ((recordsBytes extend 0 records).take cut).length
    generalize (WalWriter.reopened file
      ((recordsBytes extend 0 records).take cut).length).reopenPadding = zeros at *
    rw [hbytes] at hend hdetected hcontents ⊢
    obtain ⟨damage, hdamage, hfollows⟩ :=
      follows_reopened extend htail hend hzeros hdetected record more
    refine ⟨recordsBytes extend 0 (records.take count) ++ lost ++
      (List.replicate zeros 0 ++ recordsBytes extend 0 (record :: more)), damage, ?_, hdamage, ?_⟩
    · rw [hdisk]
      simp [FileOp.effect, hcontents]
    · intro sizes k
      rw [readNextAt_start, assemble_whole, ← List.append_assoc lost, hfollows, List.append_assoc]

/-- A checksum that tells a byte from a zero. -/
def sumExtend : CrcExtend := fun crc bytes => bytes.foldl (fun crc byte => crc + byte.toUInt32) crc

/-- The second record loses its only byte. -/
theorem cut_log_reopened_payload :
    ∃ contents damage,
      ((WalWriter.reopened (.log 3) 16).addRecords sumExtend [[5]]
        { disk := fun _ => some ((recordsBytes sumExtend 0 [[1, 2], [3]]).take 16) }).2.disk (.log 3) =
          some contents ∧
      (∀ event ∈ damage, WalReadEvent.isCorruption event = true) ∧
      ∀ (sizes : Nat → Nat) (k : Nat),
        readNextAt sumExtend { file := { rest := contents, sizes } } k =
          ([WalReadEvent.record [1, 2] 0] ++ damage ++ [WalReadEvent.record [5] 32768])[k]? := by
  obtain ⟨log, count, hlog, hiff, _, hreopen⟩ := cut_log_reopened sumExtend (.log 3) [[1, 2], [3]]
    { disk := fun _ => none } _ { file := .log 3, blockOffset := 17 } rfl 16
  have hcontents : log = recordsBytes sumExtend 0 [[1, 2], [3]] := Option.some.inj (hlog.symm.trans rfl)
  have hcount : count = 1 := by
    have hfirst := (hiff 0).mpr ⟨by decide, by decide⟩
    have hsecond : ¬ 1 < count := fun hlt => absurd ((hiff 1).mp hlt).2 (by decide)
    omega
  subst hcontents hcount
  refine hreopen [[5]] { disk := fun _ => some ((recordsBytes sumExtend 0 [[1, 2], [3]]).take 16) } _
    { file := .log 3, blockOffset := 8 } rfl rfl ?_
  intro offset fragment hmem hheader hpayload
  have hplaced : headerOffsets 0 (logFragments sumExtend 0 [[1, 2], [3]]) =
      [(0, ⟨0, encodeHeader sumExtend .full [1, 2], [1, 2]⟩),
        (9, ⟨0, encodeHeader sumExtend .full [3], [3]⟩)] := rfl
  rw [hplaced] at hmem
  rcases List.mem_cons.mp hmem with hmem | hmem
  · cases hmem
    exact absurd hpayload (by decide)
  · cases List.mem_singleton.mp hmem
    decide

end WalReader
end ModernLevelDB
