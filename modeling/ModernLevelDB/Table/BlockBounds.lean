import ModernLevelDB.Table.BlockAccess

/-! # Every access of a block iterator is in bounds

For any bytes that `Block::Create` accepts: the checked functions of `BlockAccess` never fault, and
give what the functions of `Block` give. What a move needs is that the iterator is `Safe`, which every
move keeps. -/
namespace ModernLevelDB
set_option autoImplicit false

namespace Block

/-- The layout of an accepted block: entries, restart points, and their count. -/
def Created (block : Block) : Prop :=
  block.contents.length = block.entriesEnd + 4 * (block.restartCount + 1)

theorem created_of_create {contents : Bytes} {block : Block} (h : Block.create contents = .ok block) :
    block.Created := by
  rw [create, readRestartCount] at h
  split at h
  · cases h
  · next hlength =>
    dsimp only at h
    split at h
    · cases h
    · next hcount =>
      cases h
      dsimp only [Created]
      omega

end Block

namespace BlockAccess

/-! ## Entries -/

def rest (block : Block) (offset : Nat) : Bytes := (block.contents.take block.entriesEnd).drop offset

section Entries

variable {block : Block}

variable {offset : Nat}

theorem view_eq {size : Nat} (h : offset + size ≤ block.contents.length) :
    view block offset size = some (block.slice offset size) := if_pos h

theorem length_slice {size : Nat} (h : offset + size ≤ block.contents.length) :
    (block.slice offset size).length = size := by
  rw [Block.slice, List.length_take, List.length_drop]
  omega

variable (hblock : block.Created)
include hblock

theorem length_rest (offset : Nat) : (rest block offset).length = block.entriesEnd - offset := by
  have hcreated : block.contents.length = _ := hblock
  rw [rest, List.length_drop, List.length_take]
  omega

theorem rest_eq_cons (h : offset < block.entriesEnd) :
    ∃ b, byteAt block offset = some b ∧ rest block offset = b :: rest block (offset + 1) := by
  have hcreated : block.contents.length = _ := hblock
  have hlt : offset < (block.contents.take block.entriesEnd).length := by
    rw [List.length_take]
    omega
  refine ⟨_, ?_, List.drop_eq_getElem_cons hlt⟩
  rw [byteAt, List.getElem_take, List.getElem?_eq_getElem]

theorem rest_end : rest block block.entriesEnd = [] := by
  rw [← List.length_eq_zero_iff, length_rest hblock, Nat.sub_self]

/-- A reader that gives a number and goes on inside the entries, or gives nothing. -/
def Reads (block : Block) (offset : Nat) (checked : Option (Option (Nat × Nat)))
    (result : Option (Nat × Bytes)) : Prop :=
  checked = some none ∧ result = none ∨
    ∃ value behind, checked = some (some (value, behind)) ∧ result = some (value, rest block behind) ∧
      offset < behind ∧ behind ≤ block.entriesEnd

theorem decodeVarint32Fallback_reads (left : Nat) : ∀ (index value : Nat) {offset : Nat},
    offset ≤ block.entriesEnd →
    Reads block offset (decodeVarint32Fallback block block.entriesEnd left index value offset)
      (ModernLevelDB.decodeVarint32Fallback left index value (rest block offset)) := by
  induction left with
  | zero => exact fun _ _ _ _ => .inl ⟨rfl, rfl⟩
  | succ left ih =>
    intro index value offset hle
    rw [decodeVarint32Fallback]
    rcases Nat.eq_or_lt_of_le hle with rfl | hlt
    · rw [rest_end hblock, if_pos rfl]
      exact .inl ⟨rfl, rfl⟩
    obtain ⟨b, hb, hrest⟩ := rest_eq_cons hblock hlt
    rw [hrest, if_neg (Nat.ne_of_lt hlt), hb, ModernLevelDB.decodeVarint32Fallback]
    dsimp only [Option.bind_eq_bind, Option.bind_some]
    split
    · exact .inr ⟨_, _, rfl, rfl, Nat.lt_succ_self _, hlt⟩
    · rcases ih (index + 1) _ hlt with hnone | ⟨read, behind, hchecked, hresult, hbehind⟩
      · exact .inl hnone
      · exact .inr ⟨read, behind, hchecked, hresult, by omega⟩

theorem decodeVarint32_reads (h : offset ≤ block.entriesEnd) :
    Reads block offset (decodeVarint32 block block.entriesEnd offset)
      (ModernLevelDB.decodeVarint32 (rest block offset)) := by
  have hfallback := decodeVarint32Fallback_reads hblock 5 0 0 h
  rcases Nat.eq_or_lt_of_le h with rfl | hlt
  · rw [rest_end hblock] at hfallback ⊢
    rw [decodeVarint32, if_neg (fun hne => hne rfl)]
    exact hfallback
  · obtain ⟨b, hb, hrest⟩ := rest_eq_cons hblock hlt
    rw [hrest] at hfallback ⊢
    rw [decodeVarint32, if_pos (Nat.ne_of_lt hlt), hb, ModernLevelDB.decodeVarint32]
    dsimp only [Option.bind_eq_bind, Option.bind_some]
    split
    · exact .inr ⟨_, _, rfl, rfl, Nat.lt_succ_self _, hlt⟩
    · exact hfallback

/-- The checked decoder stays in bounds and agrees with the plain one. -/
def ReadsHeader (block : Block) (offset : Nat) (checked : Option (Option (EntryHeader × Nat)))
    (result : Option (EntryHeader × Bytes)) : Prop :=
  checked = some none ∧ result = none ∨
    ∃ header behind, checked = some (some (header, behind)) ∧
      result = some (header, rest block behind) ∧ offset < behind ∧ behind ≤ block.entriesEnd

theorem decodeLengths_reads (h : offset ≤ block.entriesEnd) :
    ReadsHeader block offset (decodeLengths block block.entriesEnd offset) (do
      let (shared, input) ← ModernLevelDB.decodeVarint32 (rest block offset)
      let (nonShared, input) ← ModernLevelDB.decodeVarint32 input
      let (valueSize, input) ← ModernLevelDB.decodeVarint32 input
      return (⟨shared, nonShared, valueSize⟩, input)) := by
  rw [decodeLengths]
  rcases decodeVarint32_reads hblock h with ⟨hchecked, hresult⟩ | ⟨shared, i, hchecked, hresult, hi⟩
  · rw [hchecked, hresult]
    exact .inl ⟨rfl, rfl⟩
  rw [hchecked, hresult]
  dsimp only [Option.bind_eq_bind, Option.bind_some]
  rcases decodeVarint32_reads hblock hi.2 with ⟨hchecked, hresult⟩ | ⟨nonShared, j, hchecked, hresult, hj⟩
  · rw [hchecked, hresult]
    exact .inl ⟨rfl, rfl⟩
  rw [hchecked, hresult]
  dsimp only [Option.bind_some]
  rcases decodeVarint32_reads hblock hj.2 with ⟨hchecked, hresult⟩ | ⟨valueSize, k, hchecked, hresult, hk⟩
  · rw [hchecked, hresult]
    exact .inl ⟨rfl, rfl⟩
  rw [hchecked, hresult]
  exact .inr ⟨_, k, rfl, rfl, by omega, hk.2⟩

theorem decodeEntryHeader_reads (h : offset + 3 ≤ block.entriesEnd) :
    ReadsHeader block offset (decodeEntryHeader block block.entriesEnd offset)
      (ModernLevelDB.decodeEntryHeader (rest block offset)) := by
  have hlengths := decodeLengths_reads hblock (Nat.le_of_add_right_le h)
  obtain ⟨a, ha, hrest⟩ := rest_eq_cons hblock (show offset < block.entriesEnd by omega)
  obtain ⟨b, hb, hrest'⟩ := rest_eq_cons hblock (show offset + 1 < block.entriesEnd by omega)
  obtain ⟨c, hc, hrest''⟩ := rest_eq_cons hblock (show offset + 1 + 1 < block.entriesEnd by omega)
  rw [hrest, hrest', hrest''] at hlengths ⊢
  rw [decodeEntryHeader, ha, hb, hc]
  dsimp only [Option.bind_eq_bind, Option.bind_some]
  by_cases hsmall : (a ||| b ||| c).toNat < 128
  · rw [if_pos hsmall]
    exact .inr ⟨_, _, rfl, if_pos hsmall, by omega, h⟩
  · rw [if_neg hsmall]
    have hresult : ModernLevelDB.decodeEntryHeader (a :: b :: c :: rest block (offset + 1 + 1 + 1)) = _ :=
      if_neg hsmall
    exact hresult ▸ hlengths

/-- The same for a whole entry, whose payload is inside too. -/
inductive DecodesEntry (block : Block) (offset : Nat) : Prop
  | damaged (checked : decodeEntry block offset = some none)
      (result : block.decodeEntry offset = none)
  | entry (header : EntryHeader) (keyOffset : Nat)
      (checked : decodeEntry block offset = some (some (header, keyOffset)))
      (result : block.decodeEntry offset = some (header, keyOffset))
      (behind : offset < keyOffset)
      (payload : keyOffset + header.nonShared + header.valueSize ≤ block.entriesEnd)

theorem decodesEntry (h : offset ≤ block.entriesEnd) : DecodesEntry block offset := by
  have hchecked : decodeEntry block offset = _ := if_neg (Nat.not_lt.mpr h)
  have hresult : block.decodeEntry offset = (ModernLevelDB.decodeEntry (rest block offset)).map _ := rfl
  rw [ModernLevelDB.decodeEntry, length_rest hblock] at hresult
  by_cases hshort : block.entriesEnd - offset < 3
  · rw [if_pos hshort] at hchecked hresult
    exact .damaged hchecked hresult
  rw [if_neg hshort] at hchecked hresult
  rcases decodeEntryHeader_reads hblock (show offset + 3 ≤ block.entriesEnd by omega) with
    ⟨hread, hheader⟩ | ⟨header, keyOffset, hread, hheader, hbehind, hle⟩
  · rw [hread] at hchecked
    rw [hheader] at hresult
    exact .damaged hchecked hresult
  · rw [hread] at hchecked
    rw [hheader] at hresult
    simp only [Option.bind_eq_bind, Option.bind_some, hasEntryPayload, length_rest hblock,
      decide_eq_true_eq] at hchecked hresult
    by_cases hpayload : header.nonShared + header.valueSize ≤ block.entriesEnd - keyOffset
    · rw [if_pos hpayload] at hchecked hresult
      rw [Option.map_some, length_rest hblock, Nat.sub_sub_self hle] at hresult
      exact .entry header keyOffset hchecked hresult hbehind (by omega)
    · rw [if_neg hpayload] at hchecked hresult
      exact .damaged hchecked hresult

/-! ## Restart points -/

theorem restartPoint_eq {index : Nat} (h : index < block.restartCount) :
    restartPoint block index = some (BlockIterator.restartPoint block index) := by
  have hcreated : block.contents.length = _ := hblock
  rw [restartPoint, view_eq (by omega), BlockIterator.restartPoint, Block.restartPoint]
  exact (apply_ite some _ _ _).symm

theorem restartKey_eq (format : BlockKeyFormat) {index : Nat} (h : index < block.restartCount) :
    restartKey block format index = some (BlockIterator.restartKey block format index) := by
  have hcreated : block.contents.length = _ := hblock
  rw [restartKey, restartPoint_eq hblock h, BlockIterator.restartKey]
  cases hpoint : BlockIterator.restartPoint block index with
  | none => rfl
  | some offset =>
    dsimp only [Option.bind_eq_bind, Option.bind_some]
    by_cases hend : offset ≥ block.entriesEnd
    · rw [if_pos hend, if_pos hend]
    rw [if_neg hend, if_neg hend]
    cases decodesEntry hblock (Nat.le_of_not_le hend) with
    | damaged hchecked hresult =>
      rw [hchecked, hresult]
      rfl
    | entry header keyOffset hchecked hresult _ hpayload =>
      rw [hchecked, hresult]
      dsimp only [Option.bind_some]
      rw [view_eq (by omega)]
      exact (apply_ite some _ _ _).symm

end Entries

/-! ## States of an iterator -/

section States

variable (block : Block)

/-- An iterator that stands nowhere: a new one, apart from the cache it keeps and from damage that it
reported. -/
def Idle (it : BlockIterator) : Prop :=
  it = { BlockIterator.create block with cache := it.cache, corrupted := it.corrupted }

/-- The key bytes are there. A key in the reverse cache is in the storage that the cache still has. -/
def KeyInside (it : BlockIterator) : Prop :=
  match it.borrowedKey with
  | none => True
  | some (.block offset size) => offset + size ≤ block.entriesEnd
  | some (.cache offset size) => ∃ cache, it.cache = some cache ∧ offset + size ≤ cache.keys.length

/-- The iterator may parse from where it stands. -/
structure Ready (it : BlockIterator) : Prop where
  next_le : it.next ≤ block.entriesEnd
  key : KeyInside block it
  value_le : it.value.1 + it.value.2 ≤ block.entriesEnd
  restart_lt : it.restartIndex < block.restartCount
  corrupted : it.corrupted = false

/-- A cached entry points into the block or the key buffer. -/
structure EntryInside (cache : ReverseCache) (entry : ReverseCacheEntry) : Prop where
  current_lt : entry.current < block.entriesEnd
  next_le : entry.next ≤ block.entriesEnd
  value_le : entry.value.1 + entry.value.2 ≤ block.entriesEnd
  restart_lt : entry.restartIndex < block.restartCount
  key : ∀ offset, entry.keyData = some offset → offset + entry.keySize ≤ block.entriesEnd
  copied : entry.keyData = none → entry.keyOffset + entry.keySize ≤ cache.keys.length

/-- The cache has its position. -/
structure Selected (cache : ReverseCache) : Prop where
  position_lt : cache.position < cache.entries.length
  entries : ∀ entry ∈ cache.entries, EntryInside block cache entry

/-- The iterator stands on an entry. -/
structure Standing (it : BlockIterator) : Prop where
  current_lt : it.current < block.entriesEnd
  ready : Ready block it
  selected : it.reverseCacheActive = true → ∃ cache, it.cache = some cache ∧ Selected block cache

/-- On an entry or on none: the next call stays in bounds. -/
def Safe (it : BlockIterator) : Prop := Standing block it ∨ Idle block it

end States

variable {block : Block} {it : BlockIterator}

theorem idle_invalidate (it : BlockIterator) : Idle block (it.invalidate block) := rfl

theorem idle_corruption (it : BlockIterator) : Idle block (it.corruption block) := rfl

theorem key_eq (hblock : block.Created) (hkey : KeyInside block it) :
    key block it = some (it.key block) := by
  have hcreated : block.contents.length = _ := hblock
  rw [KeyInside] at hkey
  rw [key, BlockIterator.key]
  split at hkey
  · next hnone => rw [hnone]
  · next hview =>
    rw [hview]
    exact view_eq (by omega)
  · next hview =>
    obtain ⟨cache, hcache, hle⟩ := hkey
    rw [hview, hcache]
    dsimp only [BlockIterator.viewBytes]
    rw [if_pos hle, hcache]
    rfl

/-! ## Steps -/

/-- The checked run stays in bounds and gives the same iterator. -/
structure Agrees (block : Block) (checked : Option BlockIterator) (it : BlockIterator) : Prop where
  eq : checked = some it
  safe : Safe block it

/-- The same for a step that may fail: it goes on in a state with `P`, or stops with an iterator that
stands nowhere. -/
inductive Steps (block : Block) (P : BlockIterator → Prop) (checked : Option (Bool × BlockIterator))
    (result : Bool × BlockIterator) : Prop
  | on (it : BlockIterator) (checked_eq : checked = some (true, it)) (result_eq : result = (true, it))
      (holds : P it)
  | stop (it : BlockIterator) (checked_eq : checked = some (false, it))
      (result_eq : result = (false, it)) (idle : Idle block it)

theorem Agrees.ite {c : Prop} [Decidable c] {first second : Option BlockIterator}
    {it it' : BlockIterator} (hpos : c → Agrees block first it) (hneg : ¬ c → Agrees block second it') :
    Agrees block (if c then first else second) (if c then it else it') := by
  by_cases h : c
  · rw [if_pos h, if_pos h]
    exact hpos h
  · rw [if_neg h, if_neg h]
    exact hneg h

theorem Steps.ite {P : BlockIterator → Prop} {c : Prop} [Decidable c]
    {first second : Option (Bool × BlockIterator)} {result result' : Bool × BlockIterator}
    (hpos : c → Steps block P first result) (hneg : ¬ c → Steps block P second result') :
    Steps block P (if c then first else second) (if c then result else result') := by
  by_cases h : c
  · rw [if_pos h, if_pos h]
    exact hpos h
  · rw [if_neg h, if_neg h]
    exact hneg h

/-- Case analysis on how a step ended, for a goal about the step and its result. -/
@[elab_as_elim]
theorem Steps.elim {P : BlockIterator → Prop} {step : Option (Bool × BlockIterator)}
    {result : Bool × BlockIterator}
    {motive : Option (Bool × BlockIterator) → Bool × BlockIterator → Prop}
    (h : Steps block P step result)
    (stop : ∀ it', Idle block it' → motive (some (false, it')) (false, it'))
    (on : ∀ it', P it' → motive (some (true, it')) (true, it')) : motive step result := by
  cases h with
  | stop it' hchecked hresult hidle =>
    rw [hchecked, hresult]
    exact stop it' hidle
  | on it' hchecked hresult hholds =>
    rw [hchecked, hresult]
    exact on it' hholds

/-- A parsed entry: the iterator has moved on and kept its cache. -/
structure Parsed (block : Block) (it it' : BlockIterator) : Prop where
  ready : Ready block it'
  current : it'.current = it.next
  current_lt : it.next < block.entriesEnd
  next_gt : it.next < it'.next
  detached : ∀ offset size, it'.borrowedKey ≠ some (.cache offset size)
  cache : it'.cache = it.cache
  active : it'.reverseCacheActive = it.reverseCacheActive

theorem Parsed.standing {it' : BlockIterator} (h : Parsed block it it')
    (hactive : it.reverseCacheActive = false) : Standing block it' :=
  ⟨h.current ▸ h.current_lt, h.ready, fun htrue => by rw [h.active, hactive] at htrue; cases htrue⟩

section Steps

variable (hblock : block.Created)
include hblock

theorem seekToRestartPoint_steps (it : BlockIterator) {index : Nat} (h : index < block.restartCount)
    (hcorrupted : it.corrupted = false) :
    Steps block (fun it' => Ready block it' ∧ it'.reverseCacheActive = it.reverseCacheActive)
      (seekToRestartPoint block index it) (it.seekToRestartPoint block index) := by
  rw [seekToRestartPoint, restartPoint_eq hblock h, BlockIterator.seekToRestartPoint]
  cases hpoint : BlockIterator.restartPoint block index with
  | none => exact .stop _ rfl rfl (idle_corruption it)
  | some offset =>
    have hoffset : offset ≤ block.entriesEnd := by
      rw [BlockIterator.restartPoint] at hpoint
      split at hpoint
      · next hle => exact Option.some.inj hpoint ▸ hle
      · cases hpoint
    exact .on _ rfl rfl ⟨⟨hoffset, trivial, Nat.zero_le _, h, hcorrupted⟩, rfl⟩

theorem advanceRestartIndex_steps (rounds : Nat) : ∀ (it : BlockIterator),
    it.restartIndex < block.restartCount → block.restartCount ≤ it.restartIndex + rounds →
    Steps block (fun it' => ∃ index < block.restartCount, it' = { it with restartIndex := index })
      (advanceRestartIndex block rounds it) (it.advanceRestartIndex block rounds) := by
  induction rounds with
  | zero => exact fun _ hlt hle => absurd hle (Nat.not_le.mpr hlt)
  | succ rounds ih =>
    intro it hlt hle
    rw [advanceRestartIndex, BlockIterator.advanceRestartIndex]
    by_cases hnext : it.restartIndex + 1 < block.restartCount
    · rw [if_pos hnext, if_pos hnext, restartPoint_eq hblock hnext]
      cases BlockIterator.restartPoint block (it.restartIndex + 1) with
      | none => exact .stop _ rfl rfl (idle_corruption it)
      | some restart =>
        dsimp only [Option.bind_eq_bind, Option.bind_some]
        refine Steps.ite (fun _ => .on it rfl rfl ⟨it.restartIndex, hlt, rfl⟩) (fun hcurrent => ?_)
        have hround : block.restartCount ≤ it.restartIndex + 1 + rounds := by omega
        exact ih { it with restartIndex := it.restartIndex + 1 } hnext hround
    · rw [if_neg hnext, if_neg hnext]
      exact .on it rfl rfl ⟨it.restartIndex, hlt, rfl⟩

theorem findPreviousRestart_steps (original rounds : Nat) : ∀ (it : BlockIterator),
    it.restartIndex < block.restartCount → it.restartIndex < rounds →
    Steps block (fun it' => ∃ index < block.restartCount, it' = { it with restartIndex := index })
      (findPreviousRestart block original rounds it) (it.findPreviousRestart block original rounds) := by
  induction rounds with
  | zero => exact fun _ _ h => absurd h (Nat.not_lt_zero _)
  | succ rounds ih =>
    intro it hlt hrounds
    rw [findPreviousRestart, BlockIterator.findPreviousRestart, restartPoint_eq hblock hlt]
    cases BlockIterator.restartPoint block it.restartIndex with
    | none => exact .stop _ rfl rfl (idle_corruption it)
    | some restart =>
      dsimp only [Option.bind_eq_bind, Option.bind_some]
      refine Steps.ite (fun _ => .on it rfl rfl ⟨it.restartIndex, hlt, rfl⟩) (fun horiginal => ?_)
      refine Steps.ite (fun _ => .stop _ rfl rfl (idle_invalidate it)) (fun hzero => ?_)
      exact ih { it with restartIndex := it.restartIndex - 1 }
        (show it.restartIndex - 1 < block.restartCount by omega)
        (show it.restartIndex - 1 < rounds by omega)

/-! ## The next entry -/

theorem committed_steps (hready : Ready block it) {header : EntryHeader} {keyOffset : Nat}
    (hbehind : it.next < keyOffset)
    (hpayload : keyOffset + header.nonShared + header.valueSize ≤ block.entriesEnd)
    {buffer : Bytes} {borrowed : Option KeyView}
    (hkey : borrowed = none ∨ borrowed = some (.block keyOffset header.nonShared)) :
    let held := { it with
      keyBuffer := buffer
      borrowedKey := borrowed
      current := it.next
      value := (keyOffset + header.nonShared, header.valueSize)
      next := keyOffset + header.nonShared + header.valueSize }
    Steps block (Parsed block it) (advanceRestartIndex block block.restartCount held)
      (held.advanceRestartIndex block block.restartCount) := by
  intro held
  cases advanceRestartIndex_steps hblock block.restartCount held hready.restart_lt
    (Nat.le_add_left _ _) with
  | stop it' hchecked hresult hidle => exact .stop it' hchecked hresult hidle
  | on it' hchecked hresult hholds =>
    obtain ⟨index, hindex, rfl⟩ := hholds
    have hinside : KeyInside block { held with restartIndex := index } := by
      rcases hkey with rfl | rfl
      · trivial
      · exact Nat.le_trans (Nat.le_add_right _ _) hpayload
    refine .on _ hchecked hresult ⟨⟨hpayload, hinside, hpayload, hindex, hready.corrupted⟩, rfl,
      by omega, show it.next < _ from ?_, ?_, rfl, rfl⟩
    · exact Nat.lt_of_lt_of_le hbehind (Nat.le_trans (Nat.le_add_right _ _) (Nat.le_add_right _ _))
    · rcases hkey with rfl | rfl <;> exact fun _ _ h => nomatch h

theorem commitEntry_steps (hready : Ready block it) {header : EntryHeader} {keyOffset : Nat}
    (hbehind : it.next < keyOffset)
    (hpayload : keyOffset + header.nonShared + header.valueSize ≤ block.entriesEnd)
    (hshared : header.shared ≤ (it.key block).length) :
    Steps block (Parsed block it) (commitEntry block header keyOffset it)
      (it.commitEntry block header keyOffset) := by
  have hcreated : block.contents.length = _ := hblock
  rw [commitEntry, view_eq (by omega), BlockIterator.commitEntry]
  dsimp only [Option.bind_eq_bind, Option.bind_some]
  by_cases hzero : header.shared = 0
  · rw [if_pos hzero, if_pos hzero]
    exact committed_steps hblock hready hbehind hpayload (.inr rfl)
  · rw [if_neg hzero, if_neg hzero, key_eq hblock hready.key, BlockIterator.key]
    rw [BlockIterator.key] at hshared
    dsimp only [Option.bind_some]
    rw [if_pos hshared]
    cases hborrowed : it.borrowedKey with
    | none => exact committed_steps hblock hready hbehind hpayload (.inl rfl)
    | some view => exact committed_steps hblock hready hbehind hpayload (.inl rfl)

theorem parseNextEntry_steps (format : BlockKeyFormat) (hready : Ready block it) :
    Steps block (Parsed block it) (parseNextEntry block format it)
      (it.parseNextEntry block format) := by
  rw [parseNextEntry, BlockIterator.parseNextEntry]
  refine Steps.ite (fun _ => .stop _ rfl rfl (idle_invalidate it)) (fun hend => ?_)
  cases decodesEntry hblock (Nat.le_of_not_le hend) with
  | damaged hchecked hresult =>
    rw [hchecked, hresult]
    exact .stop _ rfl rfl (idle_corruption it)
  | entry header keyOffset hchecked hresult hbehind hpayload =>
    rw [hchecked, hresult]
    dsimp only [Option.bind_eq_bind, Option.bind_some]
    rw [key_eq hblock hready.key]
    dsimp only [Option.bind_some]
    refine Steps.ite (fun _ => .stop _ rfl rfl (idle_corruption it)) (fun hshared => ?_)
    refine Steps.ite (fun _ => .stop _ rfl rfl (idle_corruption it)) (fun hsize => ?_)
    exact commitEntry_steps hblock hready hbehind hpayload (Nat.le_of_not_lt hshared)

/-! ## Scans -/

theorem scanToLastEntry_agrees (format : BlockKeyFormat) (rounds : Nat) : ∀ {it : BlockIterator},
    Ready block it → it.reverseCacheActive = false → block.entriesEnd < it.next + rounds →
    Agrees block (scanToLastEntry block format rounds it)
      (it.scanToLastEntry block format rounds) := by
  induction rounds with
  | zero => exact fun hready _ h => absurd h (Nat.not_lt.mpr hready.next_le)
  | succ rounds ih =>
    intro it hready hactive hrounds
    rw [scanToLastEntry, BlockIterator.scanToLastEntry]
    refine Steps.elim (parseNextEntry_steps hblock format hready)
      (fun it' hidle => ⟨rfl, .inr hidle⟩) (fun it' hparsed => ?_)
    dsimp only [Option.bind_eq_bind, Option.bind_some]
    refine Agrees.ite (fun hmore => ?_) (fun hmore => ?_)
    · have hgt := hparsed.next_gt
      exact ih hparsed.ready (hparsed.active.trans hactive) (by omega)
    · exact ⟨rfl, .inl (hparsed.standing hactive)⟩

theorem scanToLowerBound_agrees (order : Bytes → Bytes → Ordering) (format : BlockKeyFormat)
    (target : Bytes) (rounds : Nat) : ∀ {it : BlockIterator},
    Ready block it → it.reverseCacheActive = false → block.entriesEnd < it.next + rounds →
    Agrees block (scanToLowerBound order block format target rounds it)
      (it.scanToLowerBound order block format target rounds) := by
  induction rounds with
  | zero => exact fun hready _ h => absurd h (Nat.not_lt.mpr hready.next_le)
  | succ rounds ih =>
    intro it hready hactive hrounds
    rw [scanToLowerBound, BlockIterator.scanToLowerBound]
    refine Steps.elim (parseNextEntry_steps hblock format hready)
      (fun it' hidle => ⟨rfl, .inr hidle⟩) (fun it' hparsed => ?_)
    dsimp only [Option.bind_eq_bind, Option.bind_some]
    rw [key_eq hblock hparsed.ready.key]
    dsimp only [Option.bind_some]
    refine Agrees.ite (fun hbelow => ?_) (fun hbelow => ?_)
    · have hgt := hparsed.next_gt
      exact ih hparsed.ready (hparsed.active.trans hactive) (by omega)
    · exact ⟨rfl, .inl (hparsed.standing hactive)⟩

theorem skipToPrevious_agrees (format : BlockKeyFormat) (original rounds : Nat) :
    ∀ {it : BlockIterator}, Standing block it → it.reverseCacheActive = false →
    block.entriesEnd < it.next + rounds →
    Agrees block (skipToPrevious block format original rounds it)
      (it.skipToPrevious block format original rounds) := by
  induction rounds with
  | zero => exact fun hstanding _ h => absurd h (Nat.not_lt.mpr hstanding.ready.next_le)
  | succ rounds ih =>
    intro it hstanding hactive hrounds
    rw [skipToPrevious, BlockIterator.skipToPrevious]
    refine Agrees.ite (fun hbefore => ?_) (fun hbefore => ?_)
    · refine Steps.elim (parseNextEntry_steps hblock format hstanding.ready)
        (fun it' hidle => ⟨rfl, .inr hidle⟩) (fun it' hparsed => ?_)
      have hgt := hparsed.next_gt
      exact ih (hparsed.standing hactive) (hparsed.active.trans hactive) (by omega)
    · exact ⟨rfl, .inl hstanding⟩

end Steps

/-! ## The reverse cache -/

variable {cache : ReverseCache}

theorem EntryInside.mono {cache' : ReverseCache} {entry : ReverseCacheEntry}
    (h : EntryInside block cache entry) (hkeys : cache.keys.length ≤ cache'.keys.length) :
    EntryInside block cache' entry :=
  { h with copied := fun hnone => Nat.le_trans (h.copied hnone) hkeys }

/-- A reverse cache that is being filled, within its budget. -/
structure Filling (block : Block) (budget : Nat) (cache : ReverseCache) : Prop where
  entries : ∀ entry ∈ cache.entries, EntryInside block cache entry
  charged_le : cache.chargedBytes ≤ budget

theorem restore_ready (hselected : Selected block cache) (hcorrupted : it.corrupted = false) :
    restore cache it = some (it.restore cache) ∧
      (it.restore cache).current < block.entriesEnd ∧ Ready block (it.restore cache) ∧
      (it.restore cache).cache = some cache ∧
      (it.restore cache).reverseCacheActive = it.reverseCacheActive := by
  refine ⟨if_pos hselected.position_lt, ?_⟩
  obtain ⟨entry, hentry⟩ : ∃ entry, cache.entries[cache.position]? = some entry :=
    ⟨_, List.getElem?_eq_getElem hselected.position_lt⟩
  have hinside := hselected.entries entry (List.mem_of_getElem? hentry)
  rw [BlockIterator.restore, hentry]
  refine ⟨hinside.current_lt, ⟨hinside.next_le, ?_, hinside.value_le, hinside.restart_lt,
    hcorrupted⟩, rfl, rfl⟩
  rw [KeyInside]
  dsimp only
  cases hdata : entry.keyData with
  | none => exact ⟨cache, rfl, hinside.copied hdata⟩
  | some offset => exact hinside.key offset hdata

theorem selectLast_agrees {budget : Nat} (hfilling : Filling block budget cache)
    (hentries : cache.entries ≠ []) (hcorrupted : it.corrupted = false) :
    Agrees block (selectLast cache it) (it.selectLast cache) := by
  have hlength := List.length_pos_of_ne_nil hentries
  have hselected : Selected block { cache with position := cache.entries.length - 1 } :=
    ⟨Nat.sub_lt hlength Nat.one_pos, fun entry hentry =>
      (hfilling.entries entry hentry).mono (Nat.le_refl _)⟩
  obtain ⟨hchecked, hcurrent, hready, hcache, _⟩ := restore_ready hselected hcorrupted
  refine ⟨?_, .inl ⟨hcurrent, ?_, fun _ => ⟨_, hcache, hselected⟩⟩⟩
  · rw [selectLast, hchecked]
    rfl
  · exact { hready with }

theorem tryPrevious_standing (hstanding : Standing block it) (hactive : it.reverseCacheActive = true) :
    tryPrevious it = some it.tryPrevious ∧
      ∀ it', it.tryPrevious = some it' → Standing block it' := by
  obtain ⟨cache, hcache, hselected⟩ := hstanding.selected hactive
  rw [tryPrevious, BlockIterator.tryPrevious, hcache]
  dsimp only
  by_cases hzero : cache.position = 0
  · rw [if_pos hzero, if_pos hzero]
    exact ⟨rfl, fun _ h => nomatch h⟩
  rw [if_neg hzero, if_neg hzero]
  have hbefore : Selected block { cache with position := cache.position - 1 } :=
    ⟨Nat.lt_of_le_of_lt (Nat.sub_le _ _) hselected.position_lt, fun entry hentry =>
      (hselected.entries entry hentry).mono (Nat.le_refl _)⟩
  obtain ⟨hchecked, hcurrent, hready, hrestored, _⟩ :=
    restore_ready hbefore hstanding.ready.corrupted
  rw [hchecked]
  refine ⟨rfl, fun it' h => ?_⟩
  obtain rfl := Option.some.inj h
  exact ⟨hcurrent, hready, fun _ => ⟨_, hrestored, hbefore⟩⟩

theorem Standing.withCache (hstanding : Standing block it)
    (hdetached : ∀ offset size, it.borrowedKey ≠ some (.cache offset size))
    (hactive : it.reverseCacheActive = false) (cache : ReverseCache) :
    Standing block { it with cache := some cache } := by
  refine ⟨hstanding.current_lt, { hstanding.ready with key := ?_ }, fun h => ?_⟩
  · have hkey := hstanding.ready.key
    rw [KeyInside] at hkey ⊢
    dsimp only
    split at hkey
    · trivial
    · exact hkey
    · next offset size hview => exact absurd hview (hdetached offset size)
  · exact absurd (hactive.symm.trans h) Bool.false_ne_true

section Replay

variable (hblock : block.Created)
include hblock

theorem appendToCache_eq {entrySize budget : Nat} {cache : ReverseCache} (hkey : KeyInside block it)
    (hfilling : Filling block budget cache) :
    appendToCache block entrySize budget cache it =
      some (it.appendToCache block entrySize budget cache) := by
  rw [appendToCache, key_eq hblock hkey, BlockIterator.appendToCache]
  dsimp only [Option.bind_eq_bind, Option.bind_some]
  rw [if_neg (Nat.not_lt.mpr hfilling.charged_le)]
  exact (apply_ite some _ _ _).symm

theorem appendToCache_filling {entrySize budget : Nat} {cache cache' : ReverseCache}
    (hstanding : Standing block it)
    (hdetached : ∀ offset size, it.borrowedKey ≠ some (.cache offset size))
    (hfilling : Filling block budget cache)
    (happend : it.appendToCache block entrySize budget cache = some cache') :
    Filling block budget cache' ∧ cache'.entries ≠ [] := by
  have hcreated : block.contents.length = _ := hblock
  have hkey := hstanding.ready.key
  by_cases hfull : budget - cache.chargedBytes < entrySize ∨
      (if it.borrowedKey.isNone then (it.key block).length else 0) >
        budget - cache.chargedBytes - entrySize
  · exact absurd (happend.symm.trans (if_pos hfull)) (Option.some_ne_none _)
  obtain rfl := Option.some.inj (happend.symm.trans (if_neg hfull))
  rw [not_or, Nat.not_lt, Nat.not_lt] at hfull
  refine ⟨⟨fun entry hentry => ?_, ?_⟩, List.append_ne_nil_of_right_ne_nil _ (List.cons_ne_nil _ _)⟩
  · rcases List.mem_append.mp hentry with hold | hnew
    · refine (hfilling.entries entry hold).mono ?_
      dsimp only
      split
      · rw [List.length_append]
        exact Nat.le_add_right _ _
      · exact Nat.le_refl _
    · obtain rfl := List.mem_singleton.mp hnew
      refine ⟨hstanding.current_lt, hstanding.ready.next_le, hstanding.ready.value_le,
        hstanding.ready.restart_lt, ?_, ?_⟩
      · intro offset hdata
        dsimp only at hdata ⊢
        split at hdata
        · next start size hborrowed =>
          obtain rfl := Option.some.inj hdata
          rw [KeyInside, hborrowed] at hkey
          dsimp only at hkey
          rw [BlockIterator.key, hborrowed]
          dsimp only [BlockIterator.viewBytes]
          rw [length_slice (by omega)]
          exact hkey
        · cases hdata
      · intro hdata
        dsimp only at hdata ⊢
        cases hborrowed : it.borrowedKey with
        | none =>
          rw [Option.isNone_none, if_pos rfl, List.length_append]
        | some view =>
          cases view with
          | block offset size => rw [hborrowed] at hdata; cases hdata
          | cache offset size => exact absurd hborrowed (hdetached offset size)
  · have hle := hfilling.charged_le
    dsimp only
    omega

theorem replay_agrees (format : BlockKeyFormat) (entrySize original budget rounds : Nat) :
    ∀ {cache : ReverseCache} {it : BlockIterator}, Standing block it →
    (∀ offset size, it.borrowedKey ≠ some (.cache offset size)) →
    it.reverseCacheActive = false → Filling block budget cache →
    block.entriesEnd + 1 < it.next + rounds →
    Agrees block (replay block format entrySize original budget rounds cache it)
      (it.replay block format entrySize original budget rounds cache) := by
  induction rounds with
  | zero =>
    exact fun hstanding _ _ _ h =>
      absurd h (Nat.not_lt.mpr (Nat.le_succ_of_le hstanding.ready.next_le))
  | succ rounds ih =>
    intro cache it hstanding hdetached hactive hfilling hrounds
    rw [replay, BlockIterator.replay, appendToCache_eq hblock hstanding.ready.key hfilling]
    cases happend : it.appendToCache block entrySize budget cache with
    | none =>
      have hreset := hstanding.withCache hdetached hactive {}
      exact skipToPrevious_agrees hblock format original rounds hreset hactive (by dsimp only; omega)
    | some filled =>
      obtain ⟨hfilled, hentries⟩ := appendToCache_filling hblock hstanding hdetached hfilling happend
      have hheld := hstanding.withCache hdetached hactive filled
      dsimp only [Option.bind_eq_bind, Option.bind_some]
      refine Agrees.ite (fun hbefore => ?_) (fun hbefore => ?_)
      · exact selectLast_agrees hfilled hentries hheld.ready.corrupted
      refine Steps.elim (parseNextEntry_steps hblock format hheld.ready)
        (fun it' hidle => ⟨rfl, .inr hidle⟩) (fun it' hparsed => ?_)
      have hgt : it.next < it'.next := hparsed.next_gt
      exact ih (hparsed.standing hactive) hparsed.detached (hparsed.active.trans hactive) hfilled
        (by omega)

theorem scanToPreviousEntry_agrees (format : BlockKeyFormat) (entrySize original : Nat)
    (hready : Ready block it) (hactive : it.reverseCacheActive = false) :
    Agrees block (scanToPreviousEntry block format entrySize original it)
      (it.scanToPreviousEntry block format entrySize original) := by
  rw [scanToPreviousEntry, BlockIterator.scanToPreviousEntry]
  refine Steps.elim (parseNextEntry_steps hblock format hready) (fun it' hidle => ⟨rfl, .inr hidle⟩)
    (fun it' hparsed => ?_)
  dsimp only [Option.bind_eq_bind, Option.bind_some]
  have hstanding := hparsed.standing hactive
  have hinactive := hparsed.active.trans hactive
  have hgt := hparsed.next_gt
  refine Agrees.ite (fun _ => ⟨rfl, .inl hstanding⟩) (fun hbefore => ?_)
  exact replay_agrees hblock format entrySize original _ _
    (hstanding.withCache hparsed.detached hinactive {}) hparsed.detached hinactive
    ⟨fun _ h => absurd h List.not_mem_nil, Nat.zero_le _⟩ (by dsimp only; omega)

end Replay

/-! ## Moves -/

section Moves

theorem Safe.beginPositioning (h : Safe block it) : Safe block it.beginPositioning := by
  rcases h with hstanding | hidle
  · refine .inl ⟨hstanding.current_lt, ?_, fun h => nomatch h⟩
    exact { hstanding.ready with corrupted := rfl }
  · right
    rw [Idle] at hidle ⊢
    rw [hidle]
    rfl

variable (hblock : block.Created)
include hblock

theorem seekToFirst_agrees (format : BlockKeyFormat) (it : BlockIterator) :
    Agrees block (seekToFirst block format it) (it.seekToFirst block format) := by
  rw [seekToFirst, BlockIterator.seekToFirst]
  dsimp only
  refine Agrees.ite (fun _ => ⟨rfl, .inr (idle_invalidate _)⟩) (fun hcount => ?_)
  refine Steps.elim
    (seekToRestartPoint_steps hblock it.beginPositioning (Nat.pos_of_ne_zero hcount) rfl)
    (fun it' hidle => ⟨rfl, .inr hidle⟩) (fun it' hsought => ?_)
  dsimp only [Option.bind_eq_bind, Option.bind_some]
  refine Steps.elim (parseNextEntry_steps hblock format hsought.1)
    (fun it'' hidle => ⟨rfl, .inr hidle⟩) (fun it'' hparsed => ?_)
  exact ⟨rfl, .inl (hparsed.standing hsought.2)⟩

theorem seekToLast_agrees (format : BlockKeyFormat) (it : BlockIterator) :
    Agrees block (seekToLast block format it) (it.seekToLast block format) := by
  rw [seekToLast, BlockIterator.seekToLast]
  refine Agrees.ite (fun _ => ⟨rfl, .inr (idle_invalidate _)⟩) (fun hcount => ?_)
  have hlast := Nat.sub_lt (Nat.pos_of_ne_zero hcount) Nat.one_pos
  refine Steps.elim (seekToRestartPoint_steps hblock it.beginPositioning hlast rfl)
    (fun it' hidle => ⟨rfl, .inr hidle⟩) (fun it' hsought => ?_)
  exact scanToLastEntry_agrees hblock format _ hsought.1 hsought.2 (by omega)

theorem findRestart_eq (order : Bytes → Bytes → Ordering) (format : BlockKeyFormat) (target : Bytes)
    (rounds : Nat) : ∀ {left right : Nat}, left ≤ right → right < block.restartCount →
    right ≤ left + rounds →
    findRestart order block format target rounds left right =
        some (BlockIterator.findRestart order block format target rounds left right) ∧
      ∀ index, BlockIterator.findRestart order block format target rounds left right = some index →
        index < block.restartCount := by
  induction rounds with
  | zero =>
    intro left right hle hright hrounds
    rw [findRestart, BlockIterator.findRestart, if_neg (by omega)]
    exact ⟨rfl, fun index h => by obtain rfl := Option.some.inj h; omega⟩
  | succ rounds ih =>
    intro left right hle hright hrounds
    rw [findRestart, BlockIterator.findRestart]
    by_cases hlt : left < right
    · rw [if_pos hlt, if_pos hlt]
      dsimp only
      rw [restartKey_eq hblock format (by omega)]
      cases BlockIterator.restartKey block format (left + (right - left + 1) / 2) with
      | none => exact ⟨rfl, fun _ h => nomatch h⟩
      | some middleKey =>
        dsimp only [Option.bind_eq_bind, Option.bind_some]
        by_cases hbelow : order middleKey target = .lt
        · rw [if_pos hbelow, if_pos hbelow]
          exact ih (by omega) hright (by omega)
        · rw [if_neg hbelow, if_neg hbelow]
          exact ih (by omega) (by omega) (by omega)
    · rw [if_neg hlt, if_neg hlt]
      exact ⟨rfl, fun index h => by obtain rfl := Option.some.inj h; omega⟩

/-- The part of `Seek` behind the choice of the ends. A position that is kept is one that is ready. -/
theorem seekBetween_agrees (order : Bytes → Bytes → Ordering) (format : BlockKeyFormat)
    (target : Bytes) {left right : Nat} {currentKeyCompare : Ordering} (hle : left ≤ right)
    (hright : right < block.restartCount) (hcorrupted : it.corrupted = false)
    (hactive : it.reverseCacheActive = false)
    (hready : currentKeyCompare = .lt → Ready block it) :
    Agrees block (seekBetween order block format target left right currentKeyCompare it)
      (it.seekBetween order block format target left right currentKeyCompare) := by
  obtain ⟨hfind, hindex⟩ :=
    findRestart_eq hblock order format target block.restartCount hle hright (by omega)
  rw [seekBetween, hfind, BlockIterator.seekBetween]
  cases hrestart : BlockIterator.findRestart order block format target block.restartCount left right with
  | none => exact ⟨rfl, .inr (idle_corruption it)⟩
  | some restart =>
    dsimp only [Option.bind_eq_bind, Option.bind_some]
    rw [restoreCheckpoint, BlockIterator.restoreCheckpoint]
    by_cases hkept : restart = it.restartIndex ∧ currentKeyCompare = .lt
    · rw [if_pos hkept, if_pos hkept]
      exact scanToLowerBound_agrees hblock order format target _ (hready hkept.2) hactive (by omega)
    rw [if_neg hkept, if_neg hkept]
    refine Steps.elim (seekToRestartPoint_steps hblock it (hindex restart hrestart) hcorrupted)
      (fun it' hidle => ⟨rfl, .inr hidle⟩) (fun it' hsought => ?_)
    exact scanToLowerBound_agrees hblock order format target _ hsought.1
      (hsought.2.trans hactive) (by omega)

theorem seek_agrees (order : Bytes → Bytes → Ordering) (format : BlockKeyFormat) (target : Bytes)
    (hsafe : Safe block it) :
    Agrees block (seek order block format target it) (it.seek order block format target) := by
  have hbegin := hsafe.beginPositioning
  rw [seek, BlockIterator.seek]
  refine Agrees.ite (fun _ => ⟨rfl, .inr (idle_corruption _)⟩) (fun hsize => ?_)
  refine Agrees.ite (fun _ => ⟨rfl, .inr (idle_invalidate _)⟩) (fun hcount => ?_)
  refine Agrees.ite (fun hvalid => ?_) (fun hvalid => ?_)
  · have hstanding : Standing block it.beginPositioning := by
      refine hbegin.resolve_right (fun hidle => ?_)
      rw [hidle] at hvalid
      exact absurd (of_decide_eq_true hvalid) (Nat.lt_irrefl _)
    have hlt := hstanding.ready.restart_lt
    rw [key_eq hblock hstanding.ready.key]
    dsimp only [Option.bind_eq_bind, Option.bind_some]
    cases order (it.beginPositioning.key block) target with
    | lt =>
      exact seekBetween_agrees hblock order format target (by omega) (by omega) rfl rfl
        (fun _ => hstanding.ready)
    | eq => exact ⟨rfl, .inl hstanding⟩
    | gt =>
      exact seekBetween_agrees hblock order format target (Nat.zero_le _) hlt rfl rfl
        (fun h => nomatch h)
  · exact seekBetween_agrees hblock order format target (Nat.zero_le _) (by omega) rfl rfl
      (fun h => nomatch h)

theorem moveNext_agrees (format : BlockKeyFormat) (hstanding : Standing block it) :
    Agrees block (moveNext block format it) (it.moveNext block format) := by
  have hready : Ready block { it with reverseCacheActive := false } := { hstanding.ready with }
  rw [moveNext, BlockIterator.moveNext]
  refine Steps.elim (parseNextEntry_steps hblock format hready) (fun it' hidle => ⟨rfl, .inr hidle⟩)
    (fun it' hparsed => ?_)
  exact ⟨rfl, .inl (hparsed.standing rfl)⟩

theorem movePrev_agrees (format : BlockKeyFormat) (entrySize : Nat) (hstanding : Standing block it) :
    Agrees block (movePrev block format entrySize it) (it.movePrev block format entrySize) := by
  have htry : tryCached it = some (if it.reverseCacheActive then it.tryPrevious else none) ∧
      ∀ it', (if it.reverseCacheActive then it.tryPrevious else none) = some it' →
        Standing block it' := by
    rw [tryCached]
    by_cases hactive : it.reverseCacheActive = true
    · rw [if_pos hactive, if_pos hactive]
      exact tryPrevious_standing hstanding hactive
    · rw [if_neg hactive, if_neg hactive]
      exact ⟨rfl, fun _ h => nomatch h⟩
  rw [movePrev, htry.1, BlockIterator.movePrev]
  cases hprevious : (if it.reverseCacheActive then it.tryPrevious else none) with
  | some it' => exact ⟨rfl, .inl (htry.2 it' hprevious)⟩
  | none =>
    dsimp only [Option.bind_eq_bind, Option.bind_some]
    have hlt := hstanding.ready.restart_lt
    refine Steps.elim (findPreviousRestart_steps hblock it.current (block.restartCount + 1)
      { it with reverseCacheActive := false } hlt (Nat.lt_succ_of_lt hlt))
      (fun it' hidle => ⟨rfl, .inr hidle⟩) (fun it' hfound => ?_)
    obtain ⟨index, hindex, rfl⟩ := hfound
    dsimp only [Option.bind_some]
    refine Steps.elim (seekToRestartPoint_steps hblock
      { it with reverseCacheActive := false, restartIndex := index } hindex hstanding.ready.corrupted)
      (fun it' hidle => ⟨rfl, .inr hidle⟩) (fun it' hsought => ?_)
    exact scanToPreviousEntry_agrees hblock format entrySize it.current hsought.1 hsought.2

theorem move_agrees (order : Bytes → Bytes → Ordering) (format : BlockKeyFormat) (entrySize : Nat)
    {m : Cursor.Move Bytes} (hsafe : Safe block it)
    (hallowed : Cursor.Allowed m ((blockIteratorBy order block format entrySize).current it)) :
    Agrees block (move order block format entrySize m it) (it.move order block format entrySize m) := by
  have hstanding (hcurrent : (blockIteratorBy order block format entrySize).current it ≠ none) :
      Standing block it := by
    refine hsafe.resolve_right (fun hidle => hcurrent ?_)
    rw [hidle]
    exact if_neg (fun h => absurd (of_decide_eq_true h) (Nat.lt_irrefl _))
  cases m with
  | seekToFirst => exact seekToFirst_agrees hblock format it
  | seekToLast => exact seekToLast_agrees hblock format it
  | seek target => exact seek_agrees hblock order format target hsafe
  | next => exact moveNext_agrees hblock format (hstanding fun h => by rw [h] at hallowed; exact hallowed)
  | prev =>
    exact movePrev_agrees hblock format entrySize
      (hstanding fun h => by rw [h] at hallowed; exact hallowed)

end Moves

/-! ## Runs -/

/-- How a move ends: at an entry whose key and value are in the block or in the storage of the
iterator, at no entry, or with an error. A positioning move after the error does what it does on a
new iterator with the same cache. -/
inductive Ends (order : Bytes → Bytes → Ordering) (block : Block) (format : BlockKeyFormat)
    (entrySize : Nat) (status : Status) (it : BlockIterator) : Prop
  | entry (valid : it.valid block = true) (ok : status = .ok ())
      (key : key block it = some (it.key block))
      (value : view block it.value.1 it.value.2 = some (it.valueBytes block))
      (restart : it.restartIndex < block.restartCount)
  | past (invalid : it.valid block = false) (ok : status = .ok ())
  | damaged (invalid : it.valid block = false)
      (error : status = .error (Error.corruption "bad entry in block"))
      (cleared : ∀ m, m ≠ .next → m ≠ .prev → move order block format entrySize m it =
        move order block format entrySize m { BlockIterator.create block with cache := it.cache })

theorem Safe.ends (hblock : block.Created) (order : Bytes → Bytes → Ordering)
    (format : BlockKeyFormat) (entrySize : Nat) (h : Safe block it) :
    Ends order block format entrySize it.currentStatus it := by
  have hcreated : block.contents.length = _ := hblock
  rcases h with hstanding | hidle
  · have hvalue := hstanding.ready.value_le
    exact .entry (decide_eq_true hstanding.current_lt) (if_neg (by simp [hstanding.ready.corrupted]))
      (key_eq hblock hstanding.ready.key) (view_eq (by omega)) hstanding.ready.restart_lt
  · have hinvalid : it.valid block = false := by
      rw [hidle]
      exact decide_eq_false (Nat.lt_irrefl _)
    by_cases hcorrupted : it.corrupted = true
    · refine .damaged hinvalid (if_pos hcorrupted) (fun m hnext hprev => ?_)
      rw [hidle]
      cases m with
      | seekToFirst => rfl
      | seekToLast => rfl
      | seek target => rfl
      | next => exact absurd rfl hnext
      | prev => exact absurd rfl hprev
    · exact .past hinvalid (if_neg hcorrupted)

theorem blockIterator_in_bounds {contents : Bytes} {block : Block}
    (hcreate : Block.create contents = .ok block) (order : Bytes → Bytes → Ordering)
    (format : BlockKeyFormat) (entrySize : Nat) (moves : List (Cursor.Move Bytes))
    (m : Cursor.Move Bytes)
    (hallowed : (blockIteratorBy order block format entrySize).AllowedRun (moves ++ [m])
      (.create block)) :
    let it := (blockIteratorBy order block format entrySize).after moves (.create block)
    let (status, it') := (blockIteratorBy order block format entrySize).move m it
    move order block format entrySize m it = some it' ∧
      Ends order block format entrySize status it' := by
  have hblock := Block.created_of_create hcreate
  obtain ⟨hmoves, hlast⟩ := (Cursor.Iterator.allowedRun_append _ _).mp hallowed
  have hsafe : Safe block ((blockIteratorBy order block format entrySize).after moves
      (.create block)) :=
    Cursor.Iterator.after_induction
      (fun it m hsafe hallowed => (move_agrees hblock order format entrySize hsafe hallowed).safe)
      moves (.inr rfl) hmoves
  have hagrees := move_agrees hblock order format entrySize hsafe hlast.1
  exact ⟨hagrees.eq, hagrees.safe.ends hblock order format entrySize⟩

/-- The second entry shares more bytes than the first key has. -/
def damagedBlock : Block :=
  ⟨[0, 1, 1, 97, 98, 9, 1, 0, 99, 0, 0, 0, 0, 1, 0, 0, 0], 9, 1⟩

theorem blockIterator_in_bounds_damaged :
    let it := (BlockIterator.create damagedBlock).move compare damagedBlock .arbitrary 64 .seekToFirst
    it.valid damagedBlock = true ∧ ∃ it', move compare damagedBlock .arbitrary 64 .next it = some it' ∧
      Ends compare damagedBlock .arbitrary 64 (.error (Error.corruption "bad entry in block")) it' := by
  have hends := blockIterator_in_bounds (show Block.create damagedBlock.contents = .ok damagedBlock from rfl)
    compare .arbitrary 64 [.seekToFirst] .next ⟨trivial, trivial, trivial⟩
  exact ⟨rfl, _, hends.1, hends.2⟩

end BlockAccess
end ModernLevelDB
