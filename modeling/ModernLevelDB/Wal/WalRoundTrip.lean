import ModernLevelDB.Wal.WalSoundness
import ModernLevelDB.Wal.WalWriter

/-! # What a reader gets back from a log

The reader returns the records of a log in order. A log that is cut anywhere ends, for the reader,
with the last record that is whole: no cut makes it report damage. -/
namespace ModernLevelDB
set_option autoImplicit false

variable {extend : CrcExtend}

/-! ## One fragment -/

@[simp] theorem length_encodeHeader (type : WalRecordType) (payload : Bytes) :
    (encodeHeader extend type payload).length = walHeaderSize := by
  simp [encodeHeader, walHeaderSize]

theorem ofCode_code (type : WalRecordType) : WalRecordType.ofCode type.code = some type := by
  cases type <;> rfl

theorem code_lt (type : WalRecordType) : type.code < 256 := by
  cases type <;> decide

variable {payload : Bytes}

theorem header_payloadSize (h : payload.length ≤ maximumWalPayload) (type : WalRecordType)
    (rest : Bytes) :
    decodeFixed (((encodeHeader extend type payload ++ rest).drop 4).take 2) = payload.length := by
  have hlen : payload.length < 65536 := by
    have : maximumWalPayload < 65536 := by decide
    omega
  have hfield : ((encodeHeader extend type payload ++ rest).drop 4).take 2 =
      [byteOf payload.length, byteOf (payload.length / 256)] := rfl
  rw [hfield]
  simp only [decodeFixed, toNat_byteOf]
  omega

theorem readWalPayloadSize_header (h : payload.length ≤ maximumWalPayload) (type : WalRecordType)
    (rest : Bytes) :
    readWalPayloadSize (encodeHeader extend type payload ++ rest) =
      if rest.length < payload.length then
        .error ⟨Error.corruption "WAL physical record has a truncated payload", .truncatedPayload, none⟩
      else .ok payload.length := by
  unfold readWalPayloadSize
  rw [if_neg (by simp), header_payloadSize h type rest, if_neg (by omega)]
  simp only [List.length_append, length_encodeHeader]
  by_cases hlt : rest.length < payload.length
  · rw [if_pos hlt, if_pos (by omega)]
  · rw [if_neg hlt, if_neg (by omega)]

theorem header_checksum (type : WalRecordType) (payload rest : Bytes) :
    walChecksumMatches extend (encodeHeader extend type payload ++ rest) payload = true := by
  have hcrc : (encodeHeader extend type payload ++ rest).take 4 = encodeFixed 4
      (maskCrc32c (fragmentCrc extend (byteOf type.code) payload)).toNat := rfl
  have htype : (encodeHeader extend type payload ++ rest).getD 6 0 = byteOf type.code := rfl
  have hmod : ∀ x : UInt32, x.toNat % 256 ^ 4 = x.toNat := fun x =>
    Nat.mod_eq_of_lt (UInt32.toNat_lt x)
  unfold walChecksumMatches
  rw [hcrc, htype, decodeFixed_encodeFixed, hmod, UInt32.ofNat_toNat, unmaskCrc32c_maskCrc32c]
  exact beq_self_eq_true _

theorem decodeWalFragment_header {type : WalRecordType} (ht : type ≠ .zero)
    (h : payload.length ≤ maximumWalPayload) (rest : Bytes) :
    decodeWalFragment extend (encodeHeader extend type payload ++ (payload ++ rest)) =
      .ok (.fragment type payload (walHeaderSize + payload.length)) := by
  have hbyte : (encodeHeader extend type payload ++ (payload ++ rest)).getD 6 0 =
      byteOf type.code := rfl
  have hcode : (byteOf type.code).toNat = type.code := by
    rw [toNat_byteOf, Nat.mod_eq_of_lt (code_lt type)]
  have hne : byteOf type.code ≠ 0 := by
    intro he
    have hzero : type.code = 0 := by rw [← hcode, he]; rfl
    cases type <;> first | exact ht rfl | cases hzero
  have hpayload : ((encodeHeader extend type payload ++ (payload ++ rest)).drop walHeaderSize).take
      payload.length = payload := by
    rw [List.drop_left' (length_encodeHeader type payload), List.take_left' rfl]
  unfold decodeWalFragment
  rw [readWalPayloadSize_header h, if_neg (by simp), hbyte]
  simp only [bind, Except.bind, hpayload, header_checksum, hcode, ofCode_code, hne, false_and]
  cases type with
  | zero => exact absurd rfl ht
  | full => rfl
  | first => rfl
  | middle => rfl
  | last => rfl

namespace WalReader

/-- Where the writer puts a fragment: at the current offset, or behind the padding of the block when
no header fits there. -/
structure Placed (offset padding start : Nat) (payload : Bytes) : Prop where
  place : padding = 0 ∧ start = offset ∨
    padding = walBlockSize - offset ∧ padding < walHeaderSize ∧ start = 0
  fit : walHeaderSize + payload.length ≤ walBlockSize - start

/-! ## Records -/

/-- The fragmenter places the whole remainder as one fragment, or fills the block with a part of it
and goes on at the next block. -/
theorem fragmentsFrom_cases (extend : CrcExtend) (fuel offset : Nat) (isFirst : Bool)
    (remaining : Bytes) :
    ∃ padding start,
      (Placed offset padding start remaining ∧ fragmentsFrom extend (fuel + 1) offset isFirst remaining =
        ([⟨padding, encodeHeader extend (selectFragmentType isFirst true) remaining, remaining⟩],
          (start + (walHeaderSize + remaining.length)) % walBlockSize)) ∨
      ∃ payload more, remaining = payload ++ more ∧ (offset = 0 → payload ≠ []) ∧
        Placed offset padding start payload ∧
        (start + (walHeaderSize + payload.length)) % walBlockSize = 0 ∧
        fragmentsFrom extend (fuel + 1) offset isFirst remaining =
          (⟨padding, encodeHeader extend (selectFragmentType isFirst false) payload, payload⟩ ::
            (fragmentsFrom extend fuel 0 false more).1, (fragmentsFrom extend fuel 0 false more).2) := by
  have hseven : walHeaderSize = 7 := rfl
  have hblock : walBlockSize = 32768 := rfl
  let padding := if walHeaderSize ≤ walBlockSize - offset then 0 else walBlockSize - offset
  let start := if walHeaderSize ≤ walBlockSize - offset then offset else 0
  have hplace : padding = 0 ∧ start = offset ∨
      padding = walBlockSize - offset ∧ padding < walHeaderSize ∧ start = 0 := by
    simp only [padding, start]
    split
    · exact .inl ⟨rfl, rfl⟩
    · exact .inr ⟨rfl, by omega, rfl⟩
  have hroom : walHeaderSize ≤ walBlockSize - start := by
    simp only [start]
    split
    · assumption
    · decide
  refine ⟨padding, start, ?_⟩
  by_cases hlast : remaining.length ≤ walBlockSize - start - walHeaderSize
  · left
    have hmin : min remaining.length (walBlockSize - start - walHeaderSize) = remaining.length := by
      omega
    refine ⟨⟨hplace, by omega⟩, ?_⟩
    rw [fragmentsFrom]
    simp only [padding, start] at hmin ⊢
    simp only [hmin, beq_self_eq_true, if_true, List.take_length, Nat.add_assoc]
  · right
    have hmin : min remaining.length (walBlockSize - start - walHeaderSize) =
        walBlockSize - start - walHeaderSize := by omega
    have hsize : (remaining.take (walBlockSize - start - walHeaderSize)).length =
        walBlockSize - start - walHeaderSize := by
      rw [List.length_take, Nat.min_comm]
      exact hmin
    have hnext : (start + (walHeaderSize + (walBlockSize - start - walHeaderSize))) % walBlockSize = 0 := by
      have : start + (walHeaderSize + (walBlockSize - start - walHeaderSize)) = walBlockSize := by
        omega
      rw [this, Nat.mod_self]
    refine ⟨remaining.take (walBlockSize - start - walHeaderSize),
      remaining.drop (walBlockSize - start - walHeaderSize), (List.take_append_drop _ _).symm, ?_,
      ⟨hplace, by omega⟩, by rw [hsize]; exact hnext, ?_⟩
    · intro hzero hnil
      have hlen := hsize
      rw [hnil, List.length_nil] at hlen
      rcases hplace with ⟨_, hs⟩ | ⟨_, _, hs⟩ <;> omega
    · have hne : (walBlockSize - start - walHeaderSize == remaining.length) = false := by
        rw [beq_eq_false_iff_ne]
        omega
      rw [fragmentsFrom]
      rw [Nat.add_assoc] at *
      simp only [padding, start] at hmin hne hnext ⊢
      simp only [hmin, hne, Bool.false_eq_true, if_false, hnext]

def encodedFragments (fragments : List WalFragment) : Bytes := fragments.flatMap WalFragment.encoded

theorem length_encoded (padding : Nat) (type : WalRecordType) (payload : Bytes) :
    (WalFragment.mk padding (encodeHeader extend type payload) payload).encoded.length =
      padding + (walHeaderSize + payload.length) := by
  simp [WalFragment.encoded]

theorem selectFragmentType_ne_zero (isFirst isLast : Bool) :
    selectFragmentType isFirst isLast ≠ .zero := by
  cases isFirst <;> cases isLast <;> decide

/-! ## Fragments in the layout -/

variable {position start padding : Nat} {payload : Bytes}

section

variable (h : Placed (position % walBlockSize) padding start payload)

include h

theorem Placed.mod :
    (position + padding) % walBlockSize = start := by
  have hlt : position % walBlockSize < walBlockSize := Nat.mod_lt _ (by decide)
  rcases h.place with ⟨rfl, rfl⟩ | ⟨hpad, _, rfl⟩
  · rfl
  · rw [← Nat.mod_add_mod, hpad, show position % walBlockSize + (walBlockSize - position % walBlockSize) =
      walBlockSize by omega, Nat.mod_self]

theorem Placed.next (hnext : (start + (walHeaderSize + payload.length)) % walBlockSize = 0) :
    (position + (padding + (walHeaderSize + payload.length))) % walBlockSize = 0 := by
  rw [← Nat.add_assoc, ← Nat.mod_add_mod, h.mod, hnext]

theorem Placed.fits :
    walHeaderSize + payload.length ≤ blockLeft (position + padding) := by
  unfold blockLeft
  rw [h.mod]
  exact h.fit

end

variable {rest : Bytes}

theorem physicalAt_short (h : min rest.length (blockLeft position) < walHeaderSize) :
    physicalAt extend position rest = .trailer (min rest.length (blockLeft position)) := by
  unfold physicalAt
  rw [if_pos h]

theorem layout_padding {padding : Bytes} (hlen : padding.length = blockLeft position)
    (hshort : padding.length < walHeaderSize) :
    layout extend position (padding ++ rest) = layout extend (position + padding.length) rest := by
  have hmin : min (padding ++ rest).length (blockLeft position) = padding.length := by
    rw [List.length_append]
    omega
  rw [layout_trailer (physicalAt_short (by omega)), hmin, List.drop_left]

variable {type : WalRecordType}

theorem le_maximumWalPayload (hfit : walHeaderSize + payload.length ≤ blockLeft position) :
    payload.length ≤ maximumWalPayload := by
  unfold maximumWalPayload
  unfold blockLeft at hfit
  omega

theorem physicalAt_fragment (ht : type ≠ .zero)
    (hfit : walHeaderSize + payload.length ≤ blockLeft position) (rest : Bytes) :
    physicalAt extend position (encodeHeader extend type payload ++ (payload ++ rest)) =
      .found (.fragment ⟨type, payload, position, position % walBlockSize⟩)
        (walHeaderSize + payload.length) := by
  have hle := le_maximumWalPayload hfit
  have htake : ∀ n, walHeaderSize + payload.length ≤ n →
      (encodeHeader extend type payload ++ (payload ++ rest)).take n =
        encodeHeader extend type payload ++
          (payload ++ rest.take (n - (walHeaderSize + payload.length))) := by
    intro n hn
    rw [← List.append_assoc, List.take_append, List.take_of_length_le (by simpa using hn),
      List.append_assoc]
    simp
  have hlength : (encodeHeader extend type payload ++ (payload ++ rest)).length =
      walHeaderSize + (payload.length + rest.length) := by simp
  unfold physicalAt
  dsimp only
  rw [if_neg (by omega), htake _ (by omega), decodeWalFragment_header ht hle]

theorem layout_encoded (ht : type ≠ .zero)
    (hp : Placed (position % walBlockSize) padding start payload) (rest : Bytes) :
    layout extend position
        ((WalFragment.mk padding (encodeHeader extend type payload) payload).encoded ++ rest) =
      .fragment ⟨type, payload, position + padding, start⟩ ::
        layout extend (position + (padding + (walHeaderSize + payload.length))) rest := by
  have hbody : layout extend (position + padding)
      (encodeHeader extend type payload ++ (payload ++ rest)) =
      .fragment ⟨type, payload, position + padding, start⟩ ::
        layout extend (position + (padding + (walHeaderSize + payload.length))) rest := by
    rw [layout_found (physicalAt_fragment ht hp.fits rest), hp.mod, ← List.append_assoc,
      List.drop_left' (by simp), Nat.add_assoc]
  simp only [WalFragment.encoded, List.append_assoc]
  rcases hp.place with ⟨rfl, _⟩ | ⟨hpad, hshort, _⟩
  · exact hbody
  · rw [layout_padding (by rw [List.length_replicate]; exact hpad)
      (by rw [List.length_replicate]; exact hshort), List.length_replicate]
    exact hbody

def headerOffset (position : Nat) : List WalFragment → Nat
  | [] => position
  | fragment :: _ => position + fragment.paddingBefore

def headerOffsets : (position : Nat) → List WalFragment → List (Nat × WalFragment)
  | _, [] => []
  | position, fragment :: fragments =>
      (position + fragment.paddingBefore, fragment) ::
        headerOffsets (position + fragment.encoded.length) fragments

theorem fragmentsFrom_end (extend : CrcExtend) (fuel : Nat) : ∀ (position : Nat) (isFirst : Bool)
    (remaining : Bytes),
    (position + (encodedFragments
        (fragmentsFrom extend fuel (position % walBlockSize) isFirst remaining).1).length) %
      walBlockSize = (fragmentsFrom extend fuel (position % walBlockSize) isFirst remaining).2 := by
  induction fuel with
  | zero =>
    intro position isFirst remaining
    simp [fragmentsFrom, encodedFragments]
  | succ fuel ih =>
    intro position isFirst remaining
    obtain ⟨padding, start, ⟨hp, heq⟩ | ⟨payload, more, rfl, _, hp, hnext, heq⟩⟩ :=
      fragmentsFrom_cases extend fuel (position % walBlockSize) isFirst remaining
    · rw [heq]
      simp only [encodedFragments, List.flatMap_cons, List.flatMap_nil, List.append_nil, length_encoded]
      rw [← Nat.add_assoc, ← Nat.mod_add_mod, hp.mod]
    · have hmod := hp.next hnext
      have hrest := ih (position + (padding + (walHeaderSize + payload.length))) false more
      rw [hmod] at hrest
      rw [heq]
      simp only [encodedFragments, List.flatMap_cons, List.length_append, length_encoded] at hrest ⊢
      rw [← Nat.add_assoc position]
      exact hrest

/-- The types of the fragments of a record, or of what follows its first one. -/
def TypesFrom (isFirst : Bool) (chain : List PhysicalFragment) : Prop :=
  if isFirst then RecordTypes chain
  else ∃ middles last, chain = middles ++ [last] ∧ (∀ middle ∈ middles, middle.type = .middle) ∧
    last.type = .last

theorem typesFrom_last (isFirst : Bool) (payload : Bytes) (offset position : Nat) :
    TypesFrom isFirst [⟨selectFragmentType isFirst true, payload, offset, position⟩] := by
  cases isFirst with
  | true => exact .inl ⟨_, rfl, rfl⟩
  | false => exact ⟨[], _, rfl, by simp, rfl⟩

variable {chain : List PhysicalFragment}

theorem TypesFrom.cons (h : TypesFrom false chain) (isFirst : Bool) (payload : Bytes)
    (offset position : Nat) :
    TypesFrom isFirst (⟨selectFragmentType isFirst false, payload, offset, position⟩ :: chain) := by
  obtain ⟨middles, last, rfl, hmiddles, hlast⟩ := h
  cases isFirst with
  | true => exact .inr ⟨_, middles, last, rfl, rfl, hmiddles, hlast⟩
  | false => exact ⟨_ :: middles, last, rfl, List.forall_mem_cons.mpr ⟨rfl, hmiddles⟩, hlast⟩

theorem layout_fragmentsFrom (extend : CrcExtend) (fuel : Nat) :
    ∀ {position : Nat} {isFirst : Bool} {remaining : Bytes},
    remaining.length + 1 < fuel ∨
      remaining.length < fuel ∧ isFirst = false ∧ position % walBlockSize = 0 →
    ∃ chain, TypesFrom isFirst chain ∧ chainData chain = remaining ∧
      chain.map PhysicalFragment.offset = (headerOffsets position
        (fragmentsFrom extend fuel (position % walBlockSize) isFirst remaining).1).map Prod.fst ∧
      ∀ rest, layout extend position (encodedFragments
          (fragmentsFrom extend fuel (position % walBlockSize) isFirst remaining).1 ++ rest) =
        chain.map .fragment ++ layout extend (position + (encodedFragments
          (fragmentsFrom extend fuel (position % walBlockSize) isFirst remaining).1).length) rest := by
  induction fuel with
  | zero => intro _ _ _ hfuel; omega
  | succ fuel ih =>
    intro position isFirst remaining hfuel
    obtain ⟨padding, offset, ⟨hp, heq⟩ | ⟨payload, more, rfl, hne, hp, hnext, heq⟩⟩ :=
      fragmentsFrom_cases extend fuel (position % walBlockSize) isFirst remaining
    · rw [heq]
      refine ⟨[⟨_, remaining, position + padding, offset⟩], typesFrom_last isFirst _ _ _,
        List.append_nil _, rfl, fun rest => ?_⟩
      simp only [encodedFragments, List.flatMap_cons, List.flatMap_nil, List.append_nil]
      rw [layout_encoded (selectFragmentType_ne_zero _ _) hp, length_encoded]
      rfl
    · have hmod := hp.next hnext
      have hfuel' : more.length < fuel := by
        rw [List.length_append] at hfuel
        rcases hfuel with hfuel | ⟨hfuel, _, hzero⟩
        · omega
        · have := List.length_pos_iff.mpr (hne hzero)
          omega
      obtain ⟨chain, htypes, hdata, hoffsets, hlayout⟩ :=
        @ih (position + (padding + (walHeaderSize + payload.length))) false more
          (.inr ⟨hfuel', rfl, hmod⟩)
      rw [hmod] at hoffsets hlayout
      rw [heq]
      refine ⟨⟨_, payload, position + padding, offset⟩ :: chain, htypes.cons isFirst _ _ _, ?_, ?_,
        fun rest => ?_⟩
      · rw [chainData, List.flatMap_cons]
        exact congrArg (payload ++ ·) hdata
      · rw [headerOffsets, List.map_cons, List.map_cons, hoffsets, length_encoded]
      · simp only [encodedFragments, List.flatMap_cons, List.append_assoc, List.length_append] at hlayout ⊢
        rw [layout_encoded (selectFragmentType_ne_zero _ _) hp, length_encoded, hlayout,
          Nat.add_assoc position]
        rfl

/-- The fragments of one record in a file: the offset of the first one is the record's. -/
structure Spells (chain : List PhysicalFragment) (data : Bytes) (offset : Nat) : Prop where
  types : RecordTypes chain
  data_eq : data = chainData chain
  head : chain.head?.map PhysicalFragment.offset = some offset

theorem layout_record (extend : CrcExtend) (position : Nat) (record : Bytes) :
    ∃ chain, Spells chain record
        (headerOffset position (fragment extend (position % walBlockSize) record).1) ∧
      chain.map PhysicalFragment.offset = (headerOffsets position
        (fragment extend (position % walBlockSize) record).1).map Prod.fst ∧
      ∀ rest, layout extend position (encodedFragments
          (fragment extend (position % walBlockSize) record).1 ++ rest) =
        chain.map .fragment ++ layout extend (position + (encodedFragments
          (fragment extend (position % walBlockSize) record).1).length) rest := by
  obtain ⟨chain, htypes, hdata, hoffsets, hlayout⟩ :=
    @layout_fragmentsFrom extend (record.length + 2) position true record (.inl (by omega))
  refine ⟨chain, ⟨htypes, hdata.symm, ?_⟩, hoffsets, hlayout⟩
  have hne : chain ≠ [] := by
    rintro rfl
    rcases htypes with ⟨_, h, _⟩ | ⟨_, _, _, h, _⟩ <;> cases h
  rw [← List.head?_map, hoffsets, fragment]
  cases hfragments : (fragmentsFrom extend (record.length + 2) (position % walBlockSize) true
      record).1 with
  | nil =>
    rw [hfragments] at hoffsets
    exact absurd (List.map_eq_nil_iff.mp hoffsets) hne
  | cons first rest => rfl

/-! ## Chains of fragments are records -/

theorem assemble_middles (start : Nat) (last : PhysicalFragment) (hlast : last.type = .last)
    (reads : List PhysicalRead) (middles : List PhysicalFragment) : ∀ data : Bytes,
    (∀ middle ∈ middles, middle.type = .middle) →
    assemble (some (data, start)) ((middles ++ [last]).map .fragment ++ reads) =
      .record (data ++ chainData (middles ++ [last])) start :: assemble none reads := by
  obtain ⟨type, payload, offset, position⟩ := last
  cases hlast
  induction middles with
  | nil =>
    intro data _
    simp [chainData, assemble]
  | cons middle middles ih =>
    intro data hmiddles
    obtain ⟨type, payload', offset', position'⟩ := middle
    cases hmiddles _ List.mem_cons_self
    have hrest := ih (data ++ payload') (fun m hm => hmiddles m (List.mem_cons_of_mem _ hm))
    rw [List.cons_append, List.map_cons, List.cons_append, assemble, hrest]
    simp [chainData]

theorem Spells.assembled {data : Bytes} {offset : Nat} (h : Spells chain data offset)
    (underway : Option (Bytes × Nat)) (reads : List PhysicalRead) :
    ∃ before, assemble underway (chain.map .fragment ++ reads) =
        before ++ .record data offset :: assemble none reads ∧
      (underway = none → before = []) := by
  obtain ⟨htypes, rfl, hhead⟩ := h
  rcases htypes with ⟨fragment, rfl, hfull⟩ | ⟨first, middles, last, rfl, hfirst, hmiddles, hlast⟩
  · obtain ⟨type, payload, offset', position⟩ := fragment
    cases hfull
    cases hhead
    rw [List.map_singleton, List.singleton_append, assemble]
    exact ⟨_, congrArg (_ ++ ·) (by simp [chainData]), by rintro rfl; rfl⟩
  · obtain ⟨type, payload, offset', position⟩ := first
    cases hfirst
    cases hhead
    rw [List.cons_append, List.map_cons, List.cons_append, assemble,
      assemble_middles _ last hlast reads middles payload hmiddles]
    exact ⟨_, congrArg (_ ++ ·) (by simp [chainData]), by rintro rfl; rfl⟩

/-! ## Logs -/

def recordsBytes (extend : CrcExtend) : (offset : Nat) → List Bytes → Bytes
  | _, [] => []
  | offset, record :: records =>
      encodedFragments (fragment extend offset record).1 ++
        recordsBytes extend (fragment extend offset record).2 records

def recordsEnd (extend : CrcExtend) (offset : Nat) (records : List Bytes) : Nat :=
  records.foldl (fun offset record => (fragment extend offset record).2) offset

theorem recordsBytes_append (offset : Nat) (before after : List Bytes) :
    recordsBytes extend offset (before ++ after) =
      recordsBytes extend offset before ++
        recordsBytes extend (recordsEnd extend offset before) after := by
  induction before generalizing offset with
  | nil => rfl
  | cons record before ih =>
    simp only [List.cons_append, recordsBytes, ih, List.append_assoc]
    rfl

theorem recordsEnd_append (offset : Nat) (before after : List Bytes) :
    recordsEnd extend offset (before ++ after) =
      recordsEnd extend (recordsEnd extend offset before) after :=
  List.foldl_append

theorem recordsEnd_mod (extend : CrcExtend) (records : List Bytes) : ∀ position : Nat,
    (position + (recordsBytes extend (position % walBlockSize) records).length) % walBlockSize =
      recordsEnd extend (position % walBlockSize) records := by
  induction records with
  | nil => intro position; simp [recordsBytes, recordsEnd]
  | cons record records ih =>
    intro position
    have hend := fragmentsFrom_end extend (record.length + 2) position true record
    have hrest := ih (position +
      (encodedFragments (fragment extend (position % walBlockSize) record).1).length)
    unfold fragment at hrest
    rw [hend] at hrest
    rw [recordsBytes, List.length_append, ← Nat.add_assoc]
    exact hrest

/-- The events of whole records, from a position on: each with the offset of its first header. -/
def recordEvents (extend : CrcExtend) : (position : Nat) → List Bytes → List WalReadEvent
  | _, [] => []
  | position, record :: records =>
      let fragments := (fragment extend (position % walBlockSize) record).1
      .record record (headerOffset position fragments) ::
        recordEvents extend (position + (encodedFragments fragments).length) records

theorem assemble_record (extend : CrcExtend) (position : Nat) (record rest : Bytes) :
    assemble none (layout extend position
        (encodedFragments (fragment extend (position % walBlockSize) record).1 ++ rest)) =
      .record record (headerOffset position (fragment extend (position % walBlockSize) record).1) ::
        assemble none (layout extend (position +
          (encodedFragments (fragment extend (position % walBlockSize) record).1).length) rest) := by
  obtain ⟨chain, hspells, _, hlayout⟩ := layout_record extend position record
  obtain ⟨before, hassemble, hnone⟩ := hspells.assembled none (layout extend (position +
    (encodedFragments (fragment extend (position % walBlockSize) record).1).length) rest)
  rw [hlayout, hassemble, hnone rfl, List.nil_append]

/-- Records that stand in a file as a whole are read one after the other. -/
theorem assemble_records (extend : CrcExtend) (records : List Bytes) : ∀ (position : Nat) (rest : Bytes),
    assemble none (layout extend position
        (recordsBytes extend (position % walBlockSize) records ++ rest)) =
      recordEvents extend position records ++ assemble none (layout extend
        (position + (recordsBytes extend (position % walBlockSize) records).length) rest) := by
  induction records with
  | nil => intro position rest; simp [recordsBytes, recordEvents]
  | cons record records ih =>
    intro position rest
    have hend := fragmentsFrom_end extend (record.length + 2) position true record
    have hrest := ih (position +
      (encodedFragments (fragment extend (position % walBlockSize) record).1).length) rest
    unfold fragment at hrest
    rw [hend] at hrest
    rw [recordsBytes, List.append_assoc, assemble_record, recordEvents, List.cons_append,
      List.length_append, ← Nat.add_assoc]
    exact congrArg _ hrest

/-! ## What a writer leaves in the file -/

theorem addRecords_returned (records : List Bytes) : ∀ {writer writer' : WalWriter} {w w' : World},
    writer.addRecords extend records w = (.returned writer', w') → writer.reopenPadding = 0 →
      w'.disk = (FileOp.append writer.file
        (recordsBytes extend writer.blockOffset records)).effect w.disk ∧
      writer' = { writer with blockOffset := recordsEnd extend writer.blockOffset records } := by
  induction records with
  | nil =>
    intro writer writer' w w' h hpadding
    obtain ⟨rfl, rfl⟩ := FileM.pure_returned h
    exact ⟨(effect_append_nil _ _).symm, rfl⟩
  | cons record records ih =>
    intro writer writer' w w' h hpadding
    obtain ⟨added, w₁, hadd, h⟩ := FileM.bind_returned h
    obtain ⟨hdisk, rfl⟩ := WalWriter.addRecord_returned hadd
    obtain ⟨hdisk', rfl⟩ := ih h rfl
    rw [hpadding, List.replicate_zero, List.nil_append] at hdisk
    refine ⟨?_, by rw [← hpadding]; rfl⟩
    rw [hdisk', hdisk, effect_append_append]
    rfl

theorem writeLog_returned {file : FileName} {records : List Bytes} {writer : WalWriter} {w w' : World}
    (h : WalWriter.writeLog extend file records w = (.returned writer, w')) :
    w'.disk file = some (recordsBytes extend 0 records) ∧
      writer = { file, blockOffset := recordsEnd extend 0 records } := by
  obtain ⟨_, w₁, hopen, h⟩ := FileM.bind_returned h
  obtain ⟨hdisk, hwriter⟩ := addRecords_returned records h rfl
  refine ⟨?_, hwriter⟩
  rw [hdisk, perform_returned hopen]
  simp [FileOp.effect]

def logFragments (extend : CrcExtend) : (offset : Nat) → List Bytes → List WalFragment
  | _, [] => []
  | offset, record :: records =>
      (fragment extend offset record).1 ++ logFragments extend (fragment extend offset record).2 records

theorem encodedFragments_logFragments (extend : CrcExtend) (records : List Bytes) : ∀ offset : Nat,
    encodedFragments (logFragments extend offset records) = recordsBytes extend offset records := by
  induction records with
  | nil => intro offset; rfl
  | cons record records ih =>
    intro offset
    rw [logFragments, recordsBytes, ← ih]
    exact List.flatMap_append

theorem headerOffsets_append (before after : List WalFragment) : ∀ position : Nat,
    headerOffsets position (before ++ after) = headerOffsets position before ++
      headerOffsets (position + (encodedFragments before).length) after := by
  induction before with
  | nil => intro position; rfl
  | cons fragment before ih =>
    intro position
    rw [List.cons_append, headerOffsets, headerOffsets, ih, List.cons_append]
    simp only [encodedFragments, List.flatMap_cons, List.length_append, Nat.add_assoc]

theorem headerOffsets_bytes (fragments : List WalFragment) : ∀ {position offset : Nat}
    {fragment : WalFragment} (before rest : Bytes), before.length = position →
    (offset, fragment) ∈ headerOffsets position fragments →
    position ≤ offset ∧
      ((before ++ encodedFragments fragments ++ rest).drop offset).take
        (fragment.header ++ fragment.payload).length = fragment.header ++ fragment.payload := by
  induction fragments with
  | nil => intro _ _ _ _ _ _ h; cases h
  | cons next fragments ih =>
    intro position offset fragment before rest hbefore h
    rcases List.mem_cons.mp h with heq | h
    · cases heq
      refine ⟨by omega, ?_⟩
      have hfront : before ++ encodedFragments (next :: fragments) ++ rest =
          (before ++ List.replicate next.paddingBefore 0) ++
            ((next.header ++ next.payload) ++ (encodedFragments fragments ++ rest)) := by
        simp [encodedFragments, WalFragment.encoded]
      rw [hfront, List.drop_left' (by simp [hbefore]), List.take_left' rfl]
    · obtain ⟨hle, hbytes⟩ := ih (before ++ next.encoded) rest (by simp [hbefore]) h
      refine ⟨by omega, ?_⟩
      have hfront : before ++ encodedFragments (next :: fragments) ++ rest =
          before ++ next.encoded ++ encodedFragments fragments ++ rest := by
        simp [encodedFragments]
      rw [hfront]
      exact hbytes

theorem headerOffsets_fits (extend : CrcExtend) (fuel : Nat) : ∀ {position offset : Nat}
    {isFirst : Bool} {remaining : Bytes} {fragment : WalFragment},
    (offset, fragment) ∈ headerOffsets position
      (fragmentsFrom extend fuel (position % walBlockSize) isFirst remaining).1 →
    offset % walBlockSize + (fragment.header ++ fragment.payload).length ≤ walBlockSize := by
  induction fuel with
  | zero => intro _ _ _ _ _ h; cases h
  | succ fuel ih =>
    intro position offset isFirst remaining fragment h
    have hfits : ∀ {padding start : Nat} {type : WalRecordType} {payload : Bytes},
        Placed (position % walBlockSize) padding start payload →
        (position + padding) % walBlockSize + (encodeHeader extend type payload ++ payload).length ≤
          walBlockSize := by
      intro padding start type payload hp
      have hfit := hp.fit
      rw [hp.mod, List.length_append, length_encodeHeader]
      have hseven : walHeaderSize = 7 := rfl
      omega
    obtain ⟨padding, start, ⟨hp, heq⟩ | ⟨payload, more, rfl, _, hp, hnext, heq⟩⟩ :=
      fragmentsFrom_cases extend fuel (position % walBlockSize) isFirst remaining
    · rw [heq] at h
      cases List.mem_singleton.mp h
      exact hfits hp
    · have hmod := hp.next hnext
      rw [heq] at h
      rcases List.mem_cons.mp h with hfirst | h
      · cases hfirst
        exact hfits hp
      · rw [length_encoded, ← hmod] at h
        exact ih h

theorem headerOffsets_log_fits (extend : CrcExtend) (records : List Bytes) : ∀ {position offset : Nat}
    {fragment : WalFragment},
    (offset, fragment) ∈ headerOffsets position
      (logFragments extend (position % walBlockSize) records) →
    offset % walBlockSize + (fragment.header ++ fragment.payload).length ≤ walBlockSize := by
  induction records with
  | nil => intro _ _ _ h; cases h
  | cons record records ih =>
    intro position offset found h
    rw [logFragments, headerOffsets_append] at h
    rcases List.mem_append.mp h with h | h
    · exact headerOffsets_fits extend (record.length + 2) h
    · unfold fragment at h
      rw [← fragmentsFrom_end extend (record.length + 2) position true record] at h
      exact ih h

/-- What a writer puts into a new file, a reader gets back, however it reads the file: the records in
order, each with the offset of its first header, and then the end of the file for ever. The fragments
stay within their blocks, and the writer knows where in a block it is. -/
theorem writeLog_readback (extend : CrcExtend) (file : FileName) (records : List Bytes)
    (w w' : World) (writer : WalWriter)
    (h : WalWriter.writeLog extend file records w = (.returned writer, w')) :
    ∃ contents, w'.disk file = some contents ∧
      (∀ (sizes : Nat → Nat) (k : Nat),
        readNextAt extend { file := { rest := contents, sizes } } k =
          (recordEvents extend 0 records)[k]?) ∧
      contents = encodedFragments (logFragments extend 0 records) ∧
      (∀ offset fragment, (offset, fragment) ∈ headerOffsets 0 (logFragments extend 0 records) →
        (contents.drop offset).take (fragment.header ++ fragment.payload).length =
            fragment.header ++ fragment.payload ∧
          offset % walBlockSize + (fragment.header ++ fragment.payload).length ≤ walBlockSize) ∧
      writer.blockOffset = contents.length % walBlockSize := by
  obtain ⟨hcontents, hwriter⟩ := writeLog_returned h
  have hlog := encodedFragments_logFragments extend records 0
  refine ⟨recordsBytes extend 0 records, hcontents, ?_, hlog.symm, ?_, ?_⟩
  · intro sizes k
    have hall := assemble_records extend records 0 []
    rw [List.append_nil, layout_nil] at hall
    rw [readNextAt_start]
    show (assemble none (layout extend 0 (recordsBytes extend (0 % walBlockSize) records)))[k]? = _
    rw [hall, assemble, List.append_nil]
  · intro offset fragment hmem
    have hbytes := (headerOffsets_bytes (logFragments extend 0 records) [] [] rfl hmem).2
    rw [List.nil_append, List.append_nil, hlog] at hbytes
    exact ⟨hbytes, headerOffsets_log_fits extend records hmem⟩
  · have hmod := recordsEnd_mod extend records 0
    rw [Nat.zero_add] at hmod
    rw [hwriter]
    exact hmod.symm

theorem writeLog_readback_two :
    ∃ contents, (WalWriter.writeLog (fun crc _ => crc) (.log 3) [[1, 2], []]
        { disk := fun _ => none }).2.disk (.log 3) = some contents ∧
      ∀ (sizes : Nat → Nat) (k : Nat),
        readNextAt (fun crc _ => crc) { file := { rest := contents, sizes } } k =
          [WalReadEvent.record [1, 2] 0, WalReadEvent.record [] 9][k]? := by
  obtain ⟨contents, hcontents, hevents, _⟩ := writeLog_readback (fun crc _ => crc) (.log 3)
    [[1, 2], []] { disk := fun _ => none } _ { file := .log 3, blockOffset := 16 } rfl
  exact ⟨contents, hcontents, hevents⟩

/-! ## Cut logs -/

theorem layout_short (hshort : rest.length < walHeaderSize)
    (hleft : rest.length ≤ blockLeft position) : layout extend position rest = [] := by
  have hmin : min rest.length (blockLeft position) = rest.length := by omega
  rw [layout_trailer (physicalAt_short (by omega)), hmin, List.drop_length, layout_nil]

theorem layout_truncated (hcut : rest.length < payload.length)
    (hfit : walHeaderSize + payload.length ≤ blockLeft position) :
    layout extend position (encodeHeader extend type payload ++ rest) = [] := by
  have hpayload := le_maximumWalPayload hfit
  have hlen : (encodeHeader extend type payload ++ rest).length = walHeaderSize + rest.length := by
    simp
  have hmin : min (encodeHeader extend type payload ++ rest).length (blockLeft position) =
      (encodeHeader extend type payload ++ rest).length := by omega
  apply layout_cutTail
  unfold physicalAt decodeWalFragment
  dsimp only
  rw [hmin, if_neg (by omega), List.take_length, readWalPayloadSize_header hpayload, if_pos hcut,
    decide_eq_true (show _ < blockLeft position by omega)]
  rfl

theorem layout_cut {cut : Nat} (hp : Placed (position % walBlockSize) padding start payload)
    (hcut : cut < (WalFragment.mk padding (encodeHeader extend type payload) payload).encoded.length) :
    layout extend position
      ((WalFragment.mk padding (encodeHeader extend type payload) payload).encoded.take cut) = [] := by
  have hfits := hp.fits
  -- Behind the padding, the cut is in the header or in the payload.
  have hbody : ∀ {cut : Nat}, cut < walHeaderSize + payload.length →
      layout extend (position + padding) ((encodeHeader extend type payload ++ payload).take cut) =
        [] := by
    intro cut hcut
    have hlen : ((encodeHeader extend type payload ++ payload).take cut).length = cut := by
      rw [List.length_take, List.length_append, length_encodeHeader]
      omega
    by_cases hheader : cut < walHeaderSize
    · exact layout_short (by omega) (by omega)
    · rw [List.take_append, List.take_of_length_le (by rw [length_encodeHeader]; omega)]
      exact layout_truncated (by rw [List.length_take, length_encodeHeader]; omega) hfits
  rw [length_encoded] at hcut
  simp only [WalFragment.encoded, List.append_assoc]
  rcases hp.place with ⟨rfl, _⟩ | ⟨hpad, hshort, _⟩
  · rw [List.replicate_zero, List.nil_append]
    exact hbody (by omega)
  · have hlen : (List.replicate padding (0 : UInt8)).length = padding := List.length_replicate
    rw [List.take_append, hlen]
    by_cases hinside : cut < padding
    · rw [show cut - padding = 0 by omega, List.take_zero, List.append_nil]
      exact layout_short (by rw [List.length_take]; omega)
        (by rw [List.length_take]; unfold blockLeft; omega)
    · rw [List.take_of_length_le (by omega), layout_padding (by rw [hlen]; exact hpad) (by omega), hlen]
      exact hbody (by omega)

theorem assemble_more (underway : Option (Bytes × Nat)) (payload : Bytes) (offset position : Nat) :
    ∃ collected, ∀ reads, assemble underway (.fragment
        ⟨selectFragmentType underway.isNone false, payload, offset, position⟩ :: reads) =
      assemble (some collected) reads := by
  cases underway with
  | none => exact ⟨(payload, offset), fun _ => rfl⟩
  | some under => exact ⟨(under.1 ++ payload, under.2), fun _ => rfl⟩

/-- A record that is cut anywhere is cut within one of its fragments, and the reader gets there. -/
theorem exists_cut_fragment (extend : CrcExtend) (fuel : Nat) : ∀ {position cut : Nat}
    {underway : Option (Bytes × Nat)} {remaining : Bytes} {fragments : List WalFragment},
    (fragmentsFrom extend fuel (position % walBlockSize) underway.isNone remaining).1 = fragments →
    cut < (encodedFragments fragments).length →
    ∃ position' padding offset type payload cut' underway',
      Placed (position' % walBlockSize) padding offset payload ∧
      cut' < (WalFragment.mk padding (encodeHeader extend type payload) payload).encoded.length ∧
      position' + cut' = position + cut ∧
      (position' + padding, ⟨padding, encodeHeader extend type payload, payload⟩) ∈
        headerOffsets position fragments ∧
      ∀ tail, assemble underway (layout extend position ((encodedFragments fragments).take cut ++ tail)) =
        assemble underway' (layout extend position'
          ((WalFragment.mk padding (encodeHeader extend type payload) payload).encoded.take cut' ++ tail)) := by
  induction fuel with
  | zero =>
    rintro _ _ _ _ _ rfl hcut
    simp [fragmentsFrom, encodedFragments] at hcut
  | succ fuel ih =>
    intro position cut underway remaining fragments hfragments hcut
    obtain ⟨padding, offset, ⟨hp, heq⟩ | ⟨payload, more, rfl, _, hp, hnext, heq⟩⟩ :=
      fragmentsFrom_cases extend fuel (position % walBlockSize) underway.isNone remaining
    · rw [heq] at hfragments
      subst hfragments
      simp only [encodedFragments, List.flatMap_cons, List.flatMap_nil, List.append_nil] at hcut ⊢
      exact ⟨position, padding, offset, _, _, cut, underway, hp, hcut, rfl, List.mem_cons_self,
        fun _ => rfl⟩
    · rw [heq] at hfragments
      subst hfragments
      simp only [encodedFragments, List.flatMap_cons, List.length_append, List.take_append] at hcut ⊢
      by_cases hfirst : cut < (WalFragment.mk padding
          (encodeHeader extend (selectFragmentType underway.isNone false) payload) payload).encoded.length
      · refine ⟨position, padding, offset, _, payload, cut, underway, hp, hfirst, rfl,
          List.mem_cons_self, fun tail => ?_⟩
        rw [Nat.sub_eq_zero_of_le hfirst.le, List.take_zero, List.append_nil]
      · have hmod := hp.next hnext
        obtain ⟨collected, hmore⟩ := assemble_more underway payload (position + padding) offset
        have hrest := @ih (position + (padding + (walHeaderSize + payload.length)))
          (cut - (padding + (walHeaderSize + payload.length))) (some collected) more _ rfl
        rw [length_encoded] at hcut hfirst
        rw [hmod, Option.isNone_some] at hrest
        obtain ⟨position', padding', offset', type, last, cut', underway', hp', hcut', hsum, hmem,
          htail⟩ := hrest (by unfold encodedFragments; omega)
        refine ⟨position', padding', offset', type, last, cut', underway', hp', hcut', by omega, ?_,
          fun tail => ?_⟩
        · rw [← length_encoded padding (selectFragmentType underway.isNone false) payload] at hmem
          exact List.mem_cons_of_mem _ hmem
        · rw [List.take_of_length_le (by rw [length_encoded]; omega), List.append_assoc,
            layout_encoded (selectFragmentType_ne_zero _ _) hp, hmore, length_encoded]
          exact htail tail

/-- What a cut leaves of the records from `count` on: a part of the next one. -/
def CutTail (extend : CrcExtend) (offset : Nat) (records : List Bytes) (lost : Bytes) : Prop :=
  records = [] ∧ lost = [] ∨
    ∃ record more cut, records = record :: more ∧
      cut < (encodedFragments (fragment extend offset record).1).length ∧
      lost = (encodedFragments (fragment extend offset record).1).take cut

theorem recordsBytes_take (extend : CrcExtend) (records : List Bytes) : ∀ offset cut : Nat,
    ∃ count lost, count ≤ records.length ∧
      (∀ i, i < count ↔ i < records.length ∧
        (recordsBytes extend offset (records.take (i + 1))).length ≤ cut) ∧
      (recordsBytes extend offset records).take cut =
        recordsBytes extend offset (records.take count) ++ lost ∧
      CutTail extend (recordsEnd extend offset (records.take count)) (records.drop count) lost := by
  induction records with
  | nil =>
    intro offset cut
    exact ⟨0, [], le_rfl, by simp, by simp [recordsBytes], .inl ⟨rfl, rfl⟩⟩
  | cons record records ih =>
    intro offset cut
    generalize hsize : (encodedFragments (fragment extend offset record).1).length = size
    have htake : (recordsBytes extend offset (record :: records)).take cut =
        (encodedFragments (fragment extend offset record).1).take cut ++
          (recordsBytes extend (fragment extend offset record).2 records).take (cut - size) := by
      rw [recordsBytes, List.take_append, hsize]
    have hend : ∀ i, (recordsBytes extend offset ((record :: records).take (i + 1))).length =
        size + (recordsBytes extend (fragment extend offset record).2 (records.take i)).length := by
      intro i
      rw [List.take_succ_cons, recordsBytes, List.length_append, hsize]
    rw [htake]
    by_cases hcut : cut < size
    · refine ⟨0, (encodedFragments (fragment extend offset record).1).take cut, Nat.zero_le _, ?_, ?_,
        .inr ⟨record, records, cut, rfl, by rw [recordsEnd, List.take_zero]; exact hsize ▸ hcut, rfl⟩⟩
      · intro i
        rw [hend]
        omega
      · rw [Nat.sub_eq_zero_of_le hcut.le, List.take_zero, List.append_nil]
        rfl
    · obtain ⟨count, lost, hcount, hiff, hbytes, htail⟩ :=
        ih (fragment extend offset record).2 (cut - size)
      refine ⟨count + 1, lost, by simpa using hcount, ?_, ?_, htail⟩
      · intro i
        rw [hend]
        cases i with
        | zero => simp [recordsBytes]; omega
        | succ i =>
          have := hiff i
          rw [List.length_cons]
          omega
      · rw [hbytes, List.take_of_length_le (by omega), List.take_succ_cons, recordsBytes,
          List.append_assoc]

theorem assemble_whole (extend : CrcExtend) (records : List Bytes) (lost rest : Bytes) :
    assemble none (layout extend 0 (recordsBytes extend 0 records ++ lost ++ rest)) =
      recordEvents extend 0 records ++ assemble none
        (layout extend (recordsBytes extend 0 records).length (lost ++ rest)) := by
  have hall := assemble_records extend records 0 (lost ++ rest)
  rw [Nat.zero_mod, Nat.zero_add] at hall
  rw [List.append_assoc, hall]

theorem assemble_log (extend : CrcExtend) (records : List Bytes) :
    assemble none (layout extend 0 (recordsBytes extend 0 records)) = recordEvents extend 0 records := by
  have hall := assemble_whole extend records [] []
  rw [List.append_nil, List.append_nil, List.append_nil, layout_nil, assemble, List.append_nil] at hall
  exact hall

theorem recordsEnd_zero_mod (extend : CrcExtend) (records : List Bytes) :
    (recordsBytes extend 0 records).length % walBlockSize = recordsEnd extend 0 records := by
  have hmod := recordsEnd_mod extend records 0
  rw [Nat.zero_mod, Nat.zero_add] at hmod
  exact hmod

theorem assemble_cutTail {records : List Bytes} {lost : Bytes}
    (h : CutTail extend (position % walBlockSize) records lost) :
    assemble none (layout extend position lost) = [] := by
  rcases h with ⟨_, rfl⟩ | ⟨record, more, cut, _, hcut, rfl⟩
  · rw [layout_nil, assemble]
  · obtain ⟨_, _, _, _, _, _, underway, hp, hcut', _, _, htail⟩ :=
      @exists_cut_fragment extend (record.length + 2) position cut none record _ rfl hcut
    have hevents := htail []
    rw [List.append_nil, List.append_nil, layout_cut hp hcut'] at hevents
    refine Eq.trans hevents ?_
    cases underway <;> rfl

/-- Of a log that is cut anywhere, the reader returns the records that are whole. -/
theorem assemble_take (extend : CrcExtend) (records : List Bytes) (cut : Nat) :
    ∃ count, count ≤ records.length ∧
      (∀ i, i < count ↔ i < records.length ∧
        (recordsBytes extend 0 (records.take (i + 1))).length ≤ cut) ∧
      assemble none (layout extend 0 ((recordsBytes extend 0 records).take cut)) =
        recordEvents extend 0 (records.take count) := by
  obtain ⟨count, lost, hcount, hiff, hbytes, htail⟩ := recordsBytes_take extend records 0 cut
  refine ⟨count, hcount, hiff, ?_⟩
  have hwhole := assemble_whole extend (records.take count) lost []
  rw [← recordsEnd_zero_mod] at htail
  rw [List.append_nil, List.append_nil, assemble_cutTail htail, List.append_nil] at hwhole
  rw [hbytes, hwhole]

theorem recordEvents_data (extend : CrcExtend) (records : List Bytes) : ∀ position : Nat,
    List.Forall₂ (fun event data => ∃ offset, event = WalReadEvent.record data offset)
      (recordEvents extend position records) records := by
  induction records with
  | nil => intro position; exact .nil
  | cons record records ih => intro position; exact .cons ⟨_, rfl⟩ (ih _)

theorem events_take (extend : CrcExtend) (records : List Bytes) {cut fuel : Nat} {file : SequentialFile}
    (hfile : file.rest = (recordsBytes extend 0 records).take cut)
    (hfuel : 2 * file.rest.length < fuel) :
    ∃ count, count ≤ records.length ∧
      List.Forall₂ (fun event data => ∃ offset, event = WalReadEvent.record data offset)
        (events extend fuel { file }) (records.take count) ∧
      (count = records.length ∨
        cut < (recordsBytes extend 0 (records.take (count + 1))).length) := by
  obtain ⟨count, hcount, hiff, hevents⟩ := assemble_take extend records cut
  refine ⟨count, hcount, ?_, ?_⟩
  · have hlayout := length_layout_le extend 0 file.rest
    have hlen := length_assemble_le (layout extend 0 file.rest) none
    rw [events_assemble extend fuel (at_start file) rfl (by omega), hfile, hevents]
    exact recordEvents_data extend (records.take count) 0
  · by_cases hall : count = records.length
    · exact .inl hall
    · have hnot := (hiff count).not.mp (lt_irrefl count)
      right
      omega

end WalReader
end ModernLevelDB
