import ModernLevelDB.Wal.WalLayout

/-! # The reader follows the layout

However a file splits its reads, the calls of `ReadNext` return the events of its layout in order, and
then the end of the file for ever. -/
namespace ModernLevelDB
set_option autoImplicit false

variable {extend : CrcExtend}

namespace WalReader

/-! ## Filling a block -/

/-- However the file splits its reads, the loop takes what the block has room for, and sees the end
exactly when the file has less. -/
theorem fillLoop_spec (fuel : Nat) : ∀ (file : SequentialFile) (block : Bytes) (left : Nat),
    block.length + left = walBlockSize → left < fuel →
      ∃ file', fillLoop fuel file block =
          (block ++ file.rest.take left, file', decide (file.rest.length < left)) ∧
        file'.rest = file.rest.drop left := by
  induction fuel with
  | zero => intro _ _ _ _ h; omega
  | succ fuel ih =>
    intro file block left hleft hfuel
    rw [fillLoop, Loop.run, fillBody]
    by_cases hroom : block.length < walBlockSize
    · rw [if_pos hroom, show walBlockSize - block.length = left by omega]
      obtain ⟨chunk, next, hread, hrest, hle, hend⟩ := file.read_eq (show 0 < left by omega)
      rw [hread, hrest]
      dsimp only
      by_cases hnil : chunk = []
      · rw [if_pos hnil, hnil, hend hnil]
        have hmore : 0 < left := by omega
        exact ⟨next, by simpa using hmore, by simp [hend hnil]⟩
      · have hpos := List.length_pos_iff.mpr hnil
        rw [if_neg hnil]
        obtain ⟨file', hrun, hfile⟩ := ih next (block ++ chunk) (left - chunk.length)
          (by rw [List.length_append]; omega) (by omega)
        have hshort : next.rest.length < left - chunk.length ↔
            (chunk ++ next.rest).length < left := by
          rw [List.length_append]
          omega
        refine ⟨file', ?_, ?_⟩
        · show fillLoop fuel _ _ = _
          rw [hrun, List.append_assoc, List.take_append, List.take_of_length_le hle,
            decide_eq_decide.mpr hshort]
        · rw [hfile, List.drop_append, List.drop_of_length_le hle, List.nil_append]
    · have hzero : left = 0 := by omega
      subst hzero
      rw [if_neg hroom]
      exact ⟨file, by simp, rfl⟩

/-! ## Where a reader stands -/

/-- The reader has `rest` in front of it, and stands `offset` bytes into the block it loaded. -/
structure Inside (r : WalReader) (rest : Bytes) (offset : Nat) : Prop where
  position : r.blockPosition = offset
  lt : offset < walBlockSize
  block : r.block.drop offset = rest.take (walBlockSize - offset)
  length : r.block.length = offset + min rest.length (walBlockSize - offset)
  file : r.file.rest = rest.drop (walBlockSize - offset)
  eof : r.eofSeen = decide (rest.length < walBlockSize - offset)

/-- The reader consumed its block, and the next one starts with `rest`. -/
structure Between (r : WalReader) (rest : Bytes) : Prop where
  position : r.blockPosition = r.block.length
  file : r.file.rest = rest
  eof : r.eofSeen = false

/-- The reader has `rest` left, at this offset in the block. -/
def View (r : WalReader) (rest : Bytes) (offset : Nat) : Prop :=
  offset = 0 ∧ Between r rest ∨ Inside r rest offset

variable {r : WalReader} {rest : Bytes}

theorem View.unread {offset : Nat} (h : View r rest offset) : r.unread = rest.length := by
  unfold WalReader.unread
  rcases h with ⟨_, h⟩ | h
  · rw [h.position, h.file]
    omega
  · rw [h.position, h.file, h.length, List.length_drop]
    omega

theorem fillBlock_inside (h : Between r rest) : Inside r.fillBlock rest 0 := by
  obtain ⟨file, hfill, hfile⟩ := fillLoop_spec (walBlockSize + 1) r.file [] walBlockSize
    (by simp) (by omega)
  unfold fillBlock
  rw [hfill, h.file]
  rw [h.file] at hfile
  exact ⟨rfl, by decide, by simp, by simp [Nat.min_comm], by simpa using hfile, by simp⟩

theorem Inside.advance {encoded : Bytes} {offset : Nat} (h : Inside r (encoded ++ rest) offset)
    (hfit : encoded.length ≤ walBlockSize - offset) :
    View { r with blockPosition := offset + encoded.length } rest
      ((offset + encoded.length) % walBlockSize) := by
  have hlt := h.lt
  have hlen := h.length
  have heof := h.eof
  rw [List.length_append] at hlen heof
  by_cases hend : offset + encoded.length = walBlockSize
  · rw [hend, Nat.mod_self]
    refine .inl ⟨rfl, ?_, ?_, ?_⟩
    · show walBlockSize = r.block.length
      omega
    · show r.file.rest = rest
      rw [h.file, List.drop_left' (by omega)]
    · show r.eofSeen = false
      rw [heof, decide_eq_false_iff_not]
      omega
  · rw [Nat.mod_eq_of_lt (by omega)]
    have hsplit : walBlockSize - offset = encoded.length + (walBlockSize - (offset + encoded.length)) := by
      omega
    refine .inr ⟨rfl, by omega, ?_, ?_, ?_, ?_⟩
    · show r.block.drop (offset + encoded.length) = _
      rw [← List.drop_drop, h.block, hsplit, List.take_append, List.drop_left' ?_]
      · congr 1
        omega
      · rw [List.length_take]
        omega
    · show r.block.length = _
      omega
    · show r.file.rest = _
      rw [h.file, hsplit, List.drop_append, List.drop_eq_nil_of_le (by omega), List.nil_append]
      congr 1
      omega
    · show r.eofSeen = _
      rw [heof, decide_eq_decide]
      omega

/-! ## Positions -/

/-- The reader stands at this position of the file, in front of `rest`. -/
structure At (r : WalReader) (position : Nat) (rest : Bytes) : Prop where
  view : View r rest (position % walBlockSize)
  position : r.blockStartOffset + r.blockPosition = position

/-- A block is loaded, with `rest` left from its position on. -/
structure Loaded (r : WalReader) (position : Nat) (rest : Bytes) : Prop where
  inside : Inside r rest (position % walBlockSize)
  position : r.blockStartOffset + r.blockPosition = position

/-- The end of the file was seen, and nothing is left. -/
structure Ended (r : WalReader) : Prop where
  position : r.blockPosition = r.block.length
  eof : r.eofSeen = true

/-- Only the record under way differs. -/
structure SamePlace (r r' : WalReader) : Prop where
  file : r'.file = r.file
  block : r'.block = r.block
  position : r'.blockPosition = r.blockPosition
  start : r'.blockStartOffset = r.blockStartOffset
  eof : r'.eofSeen = r.eofSeen

theorem at_start (file : SequentialFile) : At { file } 0 file.rest :=
  ⟨.inl ⟨rfl, rfl, rfl, rfl⟩, rfl⟩

variable {position : Nat}

theorem Loaded.at (h : Loaded r position rest) : At r position rest :=
  ⟨.inr h.inside, h.position⟩

theorem At.congr {r' : WalReader} (h : At r position rest) (hsame : SamePlace r r') :
    At r' position rest := by
  obtain ⟨hview, hposition⟩ := h
  refine ⟨?_, by rw [hsame.start, hsame.position, hposition]⟩
  rcases hview with ⟨hzero, h⟩ | h
  · exact .inl ⟨hzero, by rw [hsame.position, hsame.block, h.position], by rw [hsame.file, h.file],
      by rw [hsame.eof, h.eof]⟩
  · exact .inr ⟨by rw [hsame.position, h.position], h.lt, by rw [hsame.block, h.block],
      by rw [hsame.block, h.length], by rw [hsame.file, h.file], by rw [hsame.eof, h.eof]⟩

theorem Ended.congr {r' : WalReader} (h : Ended r) (hsame : SamePlace r r') : Ended r' :=
  ⟨by rw [hsame.position, hsame.block, h.position], by rw [hsame.eof, h.eof]⟩

theorem samePlace_clearPartial (r : WalReader) : SamePlace r r.clearPartial :=
  ⟨rfl, rfl, rfl, rfl, rfl⟩

theorem Loaded.left (h : Loaded r position rest) :
    r.block.length = r.blockPosition + min rest.length (blockLeft position) ∧
      r.block.drop r.blockPosition = rest.take (min rest.length (blockLeft position)) := by
  have hlen := h.inside.length
  have hblock := h.inside.block
  rw [← h.inside.position] at hlen hblock
  refine ⟨by rw [h.inside.position] at hlen ⊢; exact hlen, ?_⟩
  rw [hblock, h.inside.position, Nat.min_comm, ← List.take_take, List.take_length]
  rfl

theorem Loaded.eof (h : Loaded r position rest) :
    r.eofSeen = decide (rest.length < blockLeft position) :=
  h.inside.eof

theorem Loaded.advance {size : Nat} (h : Loaded r position rest)
    (hsize : size ≤ min rest.length (blockLeft position)) :
    At { r with blockPosition := r.blockPosition + size } (position + size) (rest.drop size) := by
  have htake : (rest.take size).length = size := by
    rw [List.length_take]
    omega
  have hinside := h.inside
  rw [← List.take_append_drop size rest] at hinside
  have hmoved := hinside.advance (by rw [htake]; unfold blockLeft at hsize; omega)
  rw [htake, Nat.mod_add_mod, ← h.inside.position] at hmoved
  refine ⟨hmoved, ?_⟩
  show r.blockStartOffset + (r.blockPosition + size) = position + size
  rw [← h.position]
  omega

/-! ## Physical reads -/

def partialRecord (r : WalReader) : Option (Bytes × Nat) :=
  if r.inFragmentedRecord then some (r.scratch, r.partialRecordOffset) else none

theorem At.load (h : At r position rest) (hrest : rest ≠ []) :
    ∃ loaded, (if r.blockPosition == r.block.length then r.fillBlock else r) = loaded ∧
      (r.blockPosition == r.block.length && r.eofSeen) = false ∧ Loaded loaded position rest ∧
      partialRecord loaded = partialRecord r := by
  have hlen : 0 < rest.length := List.length_pos_iff.mpr hrest
  rcases h.view with ⟨hzero, hbetween⟩ | hinside
  · have hfilled : (r.blockPosition == r.block.length) = true := by
      rw [hbetween.position]
      exact beq_self_eq_true _
    rw [hfilled, hbetween.eof]
    refine ⟨r.fillBlock, rfl, rfl, ⟨?_, ?_⟩, rfl⟩
    · rw [hzero]
      exact fillBlock_inside hbetween
    · have hposition := h.position
      rw [hbetween.position] at hposition
      exact hposition
  · have hne : (r.blockPosition == r.block.length) = false := by
      have hlt := hinside.lt
      have hl := hinside.length
      rw [hinside.position, beq_eq_false_iff_ne]
      omega
    rw [hne]
    exact ⟨r, rfl, rfl, ⟨hinside, h.position⟩, rfl⟩

theorem readPhysical_nil (extend : CrcExtend) (h : At r position []) (fuel : Nat) :
    ∃ r', readPhysical extend (fuel + 1) r = (none, r') ∧ Ended r' := by
  rw [readPhysical, Loop.run, readPhysicalBody]
  rcases h.view with ⟨_, hbetween⟩ | hinside
  · have hfill := fillBlock_inside hbetween
    have hempty : r.fillBlock.block = [] := by
      have hlen := hfill.length
      simpa using hlen
    refine ⟨r.fillBlock, by simp [hbetween.position, hbetween.eof, hempty], ?_, ?_⟩
    · rw [hfill.position, hempty]
      rfl
    · rw [hfill.eof]
      rfl
  · have hlen := hinside.length
    have hlt := hinside.lt
    simp only [List.length_nil, Nat.zero_min, Nat.add_zero] at hlen
    have hend : r.blockPosition = r.block.length := by rw [hlen, hinside.position]
    have heof : r.eofSeen = true := by
      rw [hinside.eof]
      simp only [List.length_nil, decide_eq_true_eq]
      omega
    exact ⟨r, by simp [hend, heof], hend, heof⟩

theorem readPhysical_ended (extend : CrcExtend) (h : Ended r) (fuel : Nat) :
    readPhysical extend (fuel + 1) r = (none, r) := by
  rw [readPhysical, Loop.run, readPhysicalBody]
  simp [h.position, h.eof]

theorem decodePhysical_found {size : Nat} {read : PhysicalRead} (h : Loaded r position rest)
    (hfound : physicalAt extend position rest = .found read size) :
    decodePhysical extend r = (some read, { r with blockPosition := r.blockPosition + size }) := by
  obtain ⟨hlen, hdrop⟩ := h.left
  have hremaining : r.block.length - r.blockPosition = min rest.length (blockLeft position) := by
    omega
  unfold physicalAt at hfound
  dsimp only at hfound
  unfold decodePhysical recoverPhysicalFailure
  rw [hdrop, hremaining, hlen, h.position, h.inside.position, h.eof]
  split at hfound
  · cases hfound
  · cases hdecode : decodeWalFragment extend (rest.take (min rest.length (blockLeft position))) with
    | error failure =>
      rw [hdecode] at hfound
      dsimp only at hfound ⊢
      split at hfound
      · cases hfound
      · next hnot =>
        cases hfound
        rw [if_neg hnot]
    | ok outcome =>
      rw [hdecode] at hfound
      cases outcome with
      | endOfBlock =>
        cases hfound
        rfl
      | fragment type payload encodedSize =>
        cases hfound
        rfl

theorem decodePhysical_cutTail (h : Loaded r position rest)
    (htail : physicalAt extend position rest = .cutTail) :
    ∃ r', decodePhysical extend r = (none, r') ∧ Ended r' := by
  obtain ⟨hlen, hdrop⟩ := h.left
  have hremaining : r.block.length - r.blockPosition = min rest.length (blockLeft position) := by
    omega
  unfold physicalAt at htail
  dsimp only at htail
  unfold decodePhysical recoverPhysicalFailure
  rw [hdrop, hremaining]
  split at htail
  · cases htail
  · have hcases := decodeWalFragment_cases extend
      (rest.take (min rest.length (blockLeft position)))
    cases hdecode : decodeWalFragment extend (rest.take (min rest.length (blockLeft position))) with
    | ok outcome =>
      rw [hdecode] at htail
      cases outcome <;> cases htail
    | error failure =>
      rw [hdecode] at htail hcases
      dsimp only at htail ⊢
      split at htail
      · next hcut =>
        rw [← h.eof] at hcut
        rw [if_pos hcut]
        have heof : r.eofSeen = true := (Bool.and_eq_true_iff.mp hcut).1
        have hskip : failure.skip = none := by
          rcases hcases with ⟨_, he, hskip⟩ | ⟨_, he, hunknown, _⟩ | he | ⟨_, _, he, _⟩
          · cases he
            exact hskip
          · cases he
            rw [hunknown] at hcut
            simp at hcut
          · cases he
          · cases he
        refine ⟨_, rfl, ?_, heof⟩
        show r.blockPosition + failure.skip.getD _ = r.block.length
        rw [hskip, Option.getD_none, hlen]
      · cases htail

/-- Reading stops at the next thing that the layout holds, or at the end of the file. -/
theorem readPhysical_layout (extend : CrcExtend) (fuel : Nat) :
    ∀ {r : WalReader} {position : Nat} {rest : Bytes}, At r position rest → rest.length < fuel →
      (layout extend position rest = [] ∧
        ∃ r', readPhysical extend fuel r = (none, r') ∧ Ended r') ∨
      ∃ loaded start more read size,
        readPhysical extend fuel r =
          (some read, { loaded with blockPosition := loaded.blockPosition + size }) ∧
        Loaded loaded start more ∧ physicalAt extend start more = .found read size ∧
        layout extend position rest = layout extend start more ∧ more.length ≤ rest.length ∧
        partialRecord loaded = partialRecord r := by
  induction fuel with
  | zero => intro _ _ _ _ h; omega
  | succ fuel ih =>
    intro r position rest h hfuel
    by_cases hrest : rest = []
    · subst hrest
      exact .inl ⟨layout_nil position, readPhysical_nil extend h fuel⟩
    · have hpos : 0 < rest.length := List.length_pos_iff.mpr hrest
      have hleft := blockLeft_pos position
      obtain ⟨loaded, hload, hmore, hloaded, hpartial⟩ := h.load hrest
      obtain ⟨hlen, _⟩ := hloaded.left
      have hblock : loaded.block ≠ [] := by
        intro hnil
        rw [hnil, List.length_nil] at hlen
        omega
      rw [readPhysical, Loop.run, readPhysicalBody]
      simp only [hload, hmore, Bool.false_eq_true, if_false, if_neg hblock]
      rw [show loaded.block.length - loaded.blockPosition = min rest.length (blockLeft position) by omega]
      cases hat : physicalAt extend position rest with
      | trailer size =>
        obtain ⟨hsize, hshort⟩ := physicalAt_trailer hat
        have hsizepos := trailer_size_pos hrest hat
        have hmoved := hloaded.advance (le_of_eq hsize)
        rw [if_pos (by omega), layout_trailer hat, hlen, ← hsize]
        rcases ih hmoved (by rw [List.length_drop]; omega) with
          hend | ⟨loaded', start, more, read, found, hread, hloaded', hfound, hlayout, hle, hkeep⟩
        · exact .inl hend
        · rw [List.length_drop] at hle
          exact .inr ⟨loaded', start, more, read, found, hread, hloaded', hfound, hlayout, by omega,
            hkeep.trans hpartial⟩
      | cutTail =>
        have hshort : ¬ min rest.length (blockLeft position) < walHeaderSize := by
          intro hlt
          unfold physicalAt at hat
          rw [if_pos hlt] at hat
          cases hat
        have hseven : walHeaderSize = 7 := rfl
        obtain ⟨fuel, rfl⟩ : ∃ n, fuel = n + 1 := ⟨fuel - 1, by omega⟩
        obtain ⟨r', hdecode, hended⟩ := decodePhysical_cutTail hloaded hat
        rw [if_neg hshort, hdecode]
        exact .inl ⟨layout_cutTail hat, r', readPhysical_ended extend hended fuel, hended⟩
      | found read size =>
        obtain ⟨hmin, hsize, _⟩ := physicalAt_found hat
        rw [if_neg (by omega), decodePhysical_found hloaded hat]
        exact .inr ⟨loaded, position, rest, read, size, rfl, hloaded, hat, rfl, le_rfl, hpartial⟩

/-! ## Logical records -/

theorem partialRecord_none (h : partialRecord r = none) : r.inFragmentedRecord = false := by
  unfold partialRecord at h
  cases hin : r.inFragmentedRecord with
  | false => rfl
  | true => simp [hin] at h

theorem partialRecord_some {data : Bytes} {start : Nat} (h : partialRecord r = some (data, start)) :
    r.inFragmentedRecord = true ∧ r.scratch = data ∧ r.partialRecordOffset = start := by
  unfold partialRecord at h
  cases hin : r.inFragmentedRecord with
  | false => simp [hin] at h
  | true =>
    simp only [hin, if_true, Option.some.injEq, Prod.mk.injEq] at h
    exact ⟨rfl, h⟩

theorem consumeCorruption_spec (r : WalReader) (error : Error) (dropped offset : Nat)
    (reads : List PhysicalRead) :
    ∃ event, r.consumeCorruption error dropped offset = (event, r.clearPartial) ∧
      assemble (partialRecord r) (.corruption error dropped offset :: reads) =
        event :: assemble none reads := by
  unfold consumeCorruption
  cases hp : partialRecord r with
  | none =>
    rw [partialRecord_none hp]
    exact ⟨_, rfl, rfl⟩
  | some under =>
    obtain ⟨data, start⟩ := under
    obtain ⟨hin, hscratch, hstart⟩ := partialRecord_some hp
    rw [hin, hscratch, hstart]
    exact ⟨_, rfl, rfl⟩

/-- What follows a fragment: the reader goes on, it returns an event, or it returns an event and
leaves the fragment to the next call. -/
inductive Consumed (r : WalReader) (fragment : PhysicalFragment) (reads : List PhysicalRead) :
    Option WalReadEvent × WalReader → Prop where
  | more {r' : WalReader} (same : SamePlace r r')
      (eq : assemble (partialRecord r) (.fragment fragment :: reads) =
        assemble (partialRecord r') reads) :
      Consumed r fragment reads (none, r')
  | event {r' : WalReader} {event : WalReadEvent} (same : SamePlace r r')
      (clear : partialRecord r' = none)
      (eq : assemble (partialRecord r) (.fragment fragment :: reads) = event :: assemble none reads) :
      Consumed r fragment reads (some event, r')
  | again {r' : WalReader} {event : WalReadEvent}
      (same : SamePlace { r with blockPosition := fragment.blockPosition } r')
      (clear : partialRecord r' = none)
      (eq : assemble (partialRecord r) (.fragment fragment :: reads) =
        event :: assemble none (.fragment fragment :: reads)) :
      Consumed r fragment reads (some event, r')

theorem consumed_of_none (hp : partialRecord r = none) (fragment : PhysicalFragment)
    (reads : List PhysicalRead) : Consumed r fragment reads (r.consumeFragment fragment) := by
  have hin := partialRecord_none hp
  obtain ⟨type, payload, offset, position⟩ := fragment
  unfold consumeFragment hasPartialPayload
  simp only [hin, Bool.false_and, Bool.false_eq_true, if_false]
  cases type with
  | zero => exact .more (samePlace_clearPartial r) (by rw [hp]; rfl)
  | full => exact .event (samePlace_clearPartial r) rfl (by rw [hp]; rfl)
  | first => exact .more ⟨rfl, rfl, rfl, rfl, rfl⟩ (by rw [hp]; rfl)
  | middle => exact .event ⟨rfl, rfl, rfl, rfl, rfl⟩ hp (by rw [hp]; rfl)
  | last => exact .event ⟨rfl, rfl, rfl, rfl, rfl⟩ hp (by rw [hp]; rfl)

theorem consumed_of_some {data : Bytes} {start : Nat} (hp : partialRecord r = some (data, start))
    (fragment : PhysicalFragment) (reads : List PhysicalRead) :
    Consumed r fragment reads (r.consumeFragment fragment) := by
  obtain ⟨hin, hscratch, hstart⟩ := partialRecord_some hp
  obtain ⟨type, payload, offset, position⟩ := fragment
  have hpartial : r.hasPartialPayload = !data.isEmpty := by
    unfold hasPartialPayload
    rw [hin, hscratch, Bool.true_and]
  unfold consumeFragment
  simp only [hin, if_true, hpartial]
  -- An empty record under way is dropped without a report.
  cases type with
  | zero =>
    cases data with
    | nil => exact .more (samePlace_clearPartial r) (by rw [hp]; rfl)
    | cons byte data =>
      refine .event (samePlace_clearPartial r) rfl ?_
      rw [hp, hscratch, hstart]
      rfl
  | full =>
    cases data with
    | nil => exact .event (samePlace_clearPartial r) rfl (by rw [hp]; rfl)
    | cons byte data =>
      refine .again (samePlace_clearPartial _) rfl ?_
      rw [hp, ← hscratch, ← hstart]
      simp [assemble, abandoned, hscratch]
  | first =>
    cases data with
    | nil => exact .more ⟨rfl, rfl, rfl, rfl, rfl⟩ (by rw [hp]; rfl)
    | cons byte data =>
      refine .again (samePlace_clearPartial _) rfl ?_
      rw [hp, ← hscratch, ← hstart]
      simp [assemble, abandoned, hscratch]
  | middle =>
    refine .more ⟨rfl, rfl, rfl, rfl, rfl⟩ ?_
    simp only [assemble, partialRecord, hin, hscratch, hstart, if_true]
  | last =>
    refine .event ⟨rfl, rfl, rfl, rfl, rfl⟩ rfl ?_
    rw [hp, assemble, hscratch, hstart]

theorem consumeFragment_spec (r : WalReader) (fragment : PhysicalFragment)
    (reads : List PhysicalRead) : Consumed r fragment reads (r.consumeFragment fragment) := by
  cases hp : partialRecord r with
  | none => exact consumed_of_none hp fragment reads
  | some under => exact consumed_of_some hp fragment reads

/-- One call returns the first event of what is left, or the end of the file. -/
theorem readNextLoop_assemble (extend : CrcExtend) (fuel : Nat) :
    ∀ {r : WalReader} {position : Nat} {rest : Bytes}, At r position rest → rest.length < fuel →
      (assemble (partialRecord r) (layout extend position rest) = [] ∧
        ∃ r', readNextLoop extend fuel r = (none, r') ∧ Ended r') ∨
      ∃ event r' position' rest', readNextLoop extend fuel r = (some event, r') ∧
        At r' position' rest' ∧ partialRecord r' = none ∧
        assemble (partialRecord r) (layout extend position rest) =
          event :: assemble none (layout extend position' rest') := by
  induction fuel with
  | zero => intro _ _ _ _ h; omega
  | succ fuel ih =>
    intro r position rest h hfuel
    have hunread : rest.length < 2 * r.unread + 4 := by
      rw [h.view.unread]
      omega
    rw [readNextLoop, Loop.run, readNextBody]
    rcases readPhysical_layout extend (2 * r.unread + 4) h hunread with
      ⟨hlayout, r', hread, hended⟩ |
      ⟨loaded, start, more, read, size, hread, hloaded, hfound, hlayout, hle, hpartial⟩
    · rw [hread, hlayout]
      refine .inl ⟨?_, r'.clearPartial, rfl, hended.congr (samePlace_clearPartial r')⟩
      cases partialRecord r <;> rfl
    · obtain ⟨hmin, hsize, _, hfragment⟩ := physicalAt_found hfound
      have hmoved := hloaded.advance hsize
      have hpos := physicalAt_size_pos hfound
      rw [hread, hlayout, layout_found hfound, ← hpartial]
      -- Consuming sees the reader behind the fragment; its record under way is the same.
      generalize hbehind : { loaded with blockPosition := loaded.blockPosition + size } = behind
        at hmoved
      have hunder : partialRecord behind = partialRecord loaded := by
        rw [← hbehind]
        rfl
      cases read with
      | corruption error dropped offset =>
        obtain ⟨event, hconsume, hassemble⟩ := consumeCorruption_spec behind error dropped offset
          (layout extend (start + size) (more.drop size))
        simp only [hconsume]
        refine .inr ⟨event, _, _, _, rfl, hmoved.congr (samePlace_clearPartial behind), rfl, ?_⟩
        rw [← hunder, hassemble]
      | fragment fragment =>
        have hconsumed := consumeFragment_spec behind fragment
          (layout extend (start + size) (more.drop size))
        rw [← hunder]
        dsimp only
        generalize behind.consumeFragment fragment = consumed at hconsumed
        cases hconsumed with
        | more same eq =>
          rw [eq]
          exact ih (hmoved.congr same) (by rw [List.length_drop]; omega)
        | event same clear eq =>
          exact .inr ⟨_, _, _, _, rfl, hmoved.congr same, clear, eq⟩
        | again same clear eq =>
          have hback : { behind with blockPosition := fragment.blockPosition } = loaded := by
            rw [← hbehind, (hfragment fragment rfl).1, ← hloaded.inside.position]
          rw [hback] at same
          refine .inr ⟨_, _, start, more, rfl, hloaded.at.congr same, clear, ?_⟩
          rw [layout_found hfound]
          exact eq

/-! ## The calls of a reader -/

def readNextAt (extend : CrcExtend) (r : WalReader) : Nat → Option WalReadEvent
  | 0 => (readNext extend r).1
  | k + 1 => readNextAt extend (readNext extend r).2 k

theorem readNext_ended (extend : CrcExtend) (h : Ended r) :
    readNext extend r = (none, r.clearPartial) := by
  rw [readNext, readNextLoop, Loop.run, readNextBody, readPhysical_ended extend h]

theorem readNextAt_ended (extend : CrcExtend) (k : Nat) :
    ∀ {r : WalReader}, Ended r → readNextAt extend r k = none := by
  induction k with
  | zero =>
    intro r h
    rw [readNextAt, readNext_ended extend h]
  | succ k ih =>
    intro r h
    rw [readNextAt, readNext_ended extend h]
    exact ih (h.congr (samePlace_clearPartial r))

theorem readNext_assemble (extend : CrcExtend) (h : At r position rest)
    (hclear : partialRecord r = none) :
    (assemble none (layout extend position rest) = [] ∧
      ∃ r', readNext extend r = (none, r') ∧ Ended r') ∨
    ∃ event r' position' rest', readNext extend r = (some event, r') ∧
      At r' position' rest' ∧ partialRecord r' = none ∧
      assemble none (layout extend position rest) =
        event :: assemble none (layout extend position' rest') := by
  have hunread : rest.length < r.unread + 1 := by
    rw [h.view.unread]
    omega
  have hloop := readNextLoop_assemble extend (r.unread + 1) h hunread
  rw [hclear] at hloop
  exact hloop

theorem readNextAt_assemble (extend : CrcExtend) (k : Nat) :
    ∀ {r : WalReader} {position : Nat} {rest : Bytes}, At r position rest → partialRecord r = none →
      readNextAt extend r k = (assemble none (layout extend position rest))[k]? := by
  induction k with
  | zero =>
    intro r position rest h hclear
    rw [readNextAt]
    rcases readNext_assemble extend h hclear with
      ⟨hnil, r', hread, _⟩ | ⟨event, r', _, _, hread, _, _, hcons⟩
    · rw [hread, hnil]
      rfl
    · rw [hread, hcons]
      rfl
  | succ k ih =>
    intro r position rest h hclear
    rw [readNextAt]
    rcases readNext_assemble extend h hclear with
      ⟨hnil, r', hread, hended⟩ | ⟨event, r', position', rest', hread, h', hclear', hcons⟩
    · rw [hread, hnil, readNextAt_ended extend k hended]
      rfl
    · rw [hread, hcons, List.getElem?_cons_succ]
      exact ih h' hclear'

/-- The events of a file are those of its layout: they do not depend on how it splits its reads. -/
theorem readNextAt_start (extend : CrcExtend) (file : SequentialFile) (k : Nat) :
    readNextAt extend { file } k = (assemble none (layout extend 0 file.rest))[k]? :=
  readNextAt_assemble extend k (at_start file) rfl

theorem events_assemble (extend : CrcExtend) (fuel : Nat) :
    ∀ {r : WalReader} {position : Nat} {rest : Bytes}, At r position rest → partialRecord r = none →
      (assemble none (layout extend position rest)).length < fuel →
      events extend fuel r = assemble none (layout extend position rest) := by
  induction fuel with
  | zero => intro _ _ _ _ _ h; omega
  | succ fuel ih =>
    intro r position rest h hclear hfuel
    rw [events]
    rcases readNext_assemble extend h hclear with
      ⟨hnil, r', hread, _⟩ | ⟨event, r', position', rest', hread, h', hclear', hcons⟩
    · rw [hread, hnil]
    · rw [hread, hcons]
      rw [hcons, List.length_cons] at hfuel
      exact congrArg (event :: ·) (ih h' hclear' (by omega))

end WalReader
end ModernLevelDB
