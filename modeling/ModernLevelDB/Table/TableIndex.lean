import ModernLevelDB.Table.BlockWalk
import ModernLevelDB.Table.Table

/-! # What `Open` makes sure of

`Open` walks over the index and the metaindex once. Behind it no seek and no step in these blocks can
fail, so that the errors which `table.cc` marks as unreachable are, for every file. -/
namespace ModernLevelDB
set_option autoImplicit false

/-! ## Handles in an index -/

theorem trusted_of_consumeBlockHandle {value rest : Bytes} {handle : BlockHandle}
    (h : consumeBlockHandle value = .ok (handle, rest)) :
    readIndexHandle value = some handle ∧ indexHandle value = handle := by
  rw [consumeBlockHandle] at h
  split at h
  · cases h
  next hoffset =>
  split at h
  · cases h
  next hsize =>
  cases h
  have hread := readVarintTrusted_eq hoffset
  have hread' := readVarintTrusted_eq hsize
  constructor
  · simp only [readIndexHandle, hread, hread', Option.bind_eq_bind, Option.bind_some]
    rfl
  · rw [indexHandle, consumeVarintTrusted_of_read hread]
    dsimp only
    rw [consumeVarintTrusted_of_read hread']

/-- The handles of the entries of an index: both decoders see them, and their blocks lie before the
footer, one behind the other. -/
structure IndexHandles (blocksEnd : Nat) (entries : List (Bytes × Bytes))
    (handles : List BlockHandle) : Prop where
  decoded : List.Forall₂ (fun entry handle => consumeBlockHandle entry.2 = .ok (handle, []) ∧
    readIndexHandle entry.2 = some handle ∧ indexHandle entry.2 = handle) entries handles
  before_footer : ∀ handle ∈ handles, handle.offset + handle.size + blockTrailerSize ≤ blocksEnd
  apart : handles.Pairwise fun a b => a.offset + a.size + blockTrailerSize ≤ b.offset

variable {blocksEnd : Nat}

theorem end_le_of_inBlockRegion {handle : BlockHandle} (h : inBlockRegion handle blocksEnd = true) :
    handle.offset + handle.size + blockTrailerSize ≤ blocksEnd := by
  rw [inBlockRegion] at h
  split at h
  · cases h
  · next hinside =>
    rw [Bool.and_eq_true, decide_eq_true_iff, decide_eq_true_iff] at h
    have hsmall := Nat.min_le_left (blocksEnd - handle.offset) (2 ^ 64 - 1)
    omega

variable {format : BlockKeyFormat}

theorem visitIndexEntry_eq_ok {nextOffset next : Nat} {key value : Bytes}
    (h : visitIndexEntry blocksEnd format nextOffset key value = .ok next) :
    (format = .internal → ∃ parsed, ByteKey.decode key = .ok parsed) ∧
      ∃ handle, consumeBlockHandle value = .ok (handle, []) ∧ nextOffset ≤ handle.offset ∧
        handle.offset + handle.size + blockTrailerSize ≤ blocksEnd ∧
        next = (handle.offset + handle.size + blockTrailerSize) % 2 ^ 64 := by
  have hvalue : (format = .internal → ∃ parsed, ByteKey.decode key = .ok parsed) ∧
      visitIndexEntry blocksEnd .arbitrary nextOffset key value = .ok next := by
    cases format with
    | arbitrary => exact ⟨fun hformat => absurd hformat (by decide), h⟩
    | internal =>
      obtain ⟨parsed, hparse, hrest⟩ := Result.bind_eq_ok.mp h
      exact ⟨fun _ => ⟨parsed, hparse⟩, hrest⟩
  obtain ⟨hkey, hrest⟩ := hvalue
  rw [visitIndexEntry, if_neg (by decide)] at hrest
  refine ⟨hkey, ?_⟩
  split at hrest
  · cases hrest
  next handle rest hconsume =>
  split at hrest
  · cases hrest
  next hregion =>
  rw [not_or, not_not, Bool.not_eq_false] at hregion
  obtain ⟨rfl, hregion⟩ := hregion
  split at hrest
  · cases hrest
  next hbehind =>
  cases hrest
  exact ⟨handle, hconsume, Nat.le_of_not_lt hbehind, end_le_of_inBlockRegion hregion, rfl⟩

theorem handles_of_visits (hend : blocksEnd < 2 ^ 64) (entries : List (Bytes × Bytes)) :
    ∀ {nextOffset last : Nat},
    entries.foldlM (fun next entry => visitIndexEntry blocksEnd format next entry.1 entry.2)
      nextOffset = .ok last →
    ∃ handles, IndexHandles blocksEnd entries handles ∧
      ∀ handle ∈ handles, nextOffset ≤ handle.offset := by
  induction entries with
  | nil =>
    exact fun _ => ⟨[], ⟨.nil, fun _ h => absurd h List.not_mem_nil, .nil⟩,
      fun _ h => absurd h List.not_mem_nil⟩
  | cons entry entries ih =>
    intro nextOffset last h
    obtain ⟨next, hvisit, hrest⟩ := Result.bind_eq_ok.mp h
    obtain ⟨_, handle, hconsume, hle, hbefore, rfl⟩ := visitIndexEntry_eq_ok hvisit
    rw [Nat.mod_eq_of_lt (by omega)] at hrest
    obtain ⟨handles, hhandles, hbehind⟩ := ih hrest
    refine ⟨handle :: handles, ⟨.cons ⟨hconsume, trusted_of_consumeBlockHandle hconsume⟩
      hhandles.decoded, ?_, .cons hbehind hhandles.apart⟩, ?_⟩
    · exact List.forall_mem_cons.mpr ⟨hbefore, hhandles.before_footer⟩
    · refine List.forall_mem_cons.mpr ⟨hle, fun handle' hmem => ?_⟩
      have := hbehind handle' hmem
      omega

/-! ## Blocks that a walk accepts -/

theorem acceptsKeySize_of_decode {key : Bytes}
    (h : format = .internal → ∃ parsed, ByteKey.decode key = .ok parsed) :
    format.acceptsKeySize key.length = true := by
  cases format with
  | arbitrary => rfl
  | internal =>
    obtain ⟨parsed, hparse⟩ := h rfl
    rw [ByteKey.decode] at hparse
    split at hparse
    · cases hparse
    · next hlong =>
      rw [BlockKeyFormat.acceptsKeySize, Bool.or_eq_true, decide_eq_true_iff]
      exact .inr (decide_eq_true (Nat.le_of_not_lt hlong))

theorem acceptsKeySize_createTrusted (format : BlockKeyFormat) (userKey : Bytes) (sequence : Nat) :
    format.acceptsKeySize (LookupKey.createTrusted userKey sequence).internalKey.length = true := by
  have hkey : (LookupKey.createTrusted userKey sequence).internalKey =
      ByteKey.encoded (InternalKey.lookupKey userKey sequence) := List.drop_left
  have hlong : 8 ≤ (LookupKey.createTrusted userKey sequence).internalKey.length := by
    rw [hkey, ByteKey.encoded, List.length_append, length_encodeFixed]
    exact Nat.le_add_left _ _
  rw [BlockKeyFormat.acceptsKeySize, Bool.or_eq_true]
  exact .inr (decide_eq_true hlong)

/-- An iterator of the block ends every run without damage, and from wherever it is it visits the
entries in both directions. -/
def Block.Visits (order : Bytes → Bytes → Ordering) (block : Block) (format : BlockKeyFormat)
    (entrySize : Nat) (entries : List (Bytes × Bytes)) : Prop :=
  let iterator := blockIteratorBy order block format entrySize
  ∀ moves : List (Cursor.Move Bytes),
    (∀ m ∈ moves, m.Accepted fun target => format.acceptsKeySize target.length = true) →
    iterator.AllowedRun moves (.create block) →
    ∃ it, iterator.run moves (.create block) = (.ok (), it) ∧
      BlockAccess.run order block format entrySize moves (.create block) = some it ∧
      ∀ k ≤ entries.length,
        iterator.AllowedRun (.seekToFirst :: List.replicate k .next) it ∧
        iterator.current (iterator.after (.seekToFirst :: List.replicate k .next) it) = entries[k]? ∧
        iterator.AllowedRun (.seekToLast :: List.replicate k .prev) it ∧
        iterator.current (iterator.after (.seekToLast :: List.replicate k .prev) it) =
          entries.reverse[k]?

variable {block : Block} {entries : List (Bytes × Bytes)}

theorem Rows.visits (rows : Rows block entries) (hblock : block.Created)
    (order : Bytes → Bytes → Ordering) (entrySize : Nat)
    (haccepts : ∀ entry ∈ entries, format.acceptsKeySize entry.1.length = true) :
    block.Visits order format entrySize entries := by
  intro moves haccepted hallowed
  have hstart : rows.Shows (.create block) none := ⟨rfl, rfl⟩
  obtain ⟨it, _, hrun, hchecked, _⟩ := run_shows order entrySize haccepts hblock moves hstart
    (.inr rfl) haccepted hallowed
  refine ⟨it, hrun, hchecked, fun k hk => ?_⟩
  obtain ⟨hforward, hshown⟩ := rows.forward_shows order entrySize haccepts it hk
  obtain ⟨hbackward, hshown'⟩ := rows.backward_shows order entrySize haccepts it hk
  exact ⟨hforward, hshown, hbackward, hshown'⟩

theorem Block.rows_of_visits {σ : Type} {visitor : σ → Bytes → Bytes → Result σ} {state state' : σ}
    (hblock : block.Created) (hvalid : block.validateEntriesWith visitor state = .ok state')
    (hkeys : format = .internal → ∀ s key value s', visitor s key value = .ok s' →
      ∃ parsed, ByteKey.decode key = .ok parsed) :
    ∃ entries, Nonempty (Rows block entries) ∧
      block.validateEntriesWith (recording visitor) (state, []) = .ok (state', entries) ∧
      entries.foldlM (fun state entry => visitor state entry.1 entry.2) state = .ok state' ∧
      ∀ entry ∈ entries, format.acceptsKeySize entry.1.length = true := by
  obtain ⟨entries, ⟨rows⟩, hvisits⟩ := exists_rows hblock hvalid
  refine ⟨entries, ⟨rows⟩, ?_, hvisits, ?_⟩
  · rw [rows.validateEntriesWith_eq]
    exact foldlM_recording entries [] hvisits
  · refine visited_of_foldlM (fun s entry s' hvisit => ?_) entries hvisits
    exact acceptsKeySize_of_decode fun hinternal => hkeys hinternal s entry.1 entry.2 s' hvisit

theorem Rows.Shows.status {rows : Rows block entries} {it : BlockIterator} {position : Option Nat}
    (h : rows.Shows it position) :
    it.currentStatus = .ok () :=
  if_neg (by rw [h.sound]; exact Bool.false_ne_true)

theorem Rows.Shows.valid {rows : Rows block entries} {it : BlockIterator} {position : Option Nat}
    (h : rows.Shows it position) (hvalid : it.valid block = true) : position.isSome = true := by
  cases position with
  | none =>
    rw [BlockIterator.valid, h.1, decide_eq_true_iff] at hvalid
    exact absurd hvalid (lt_irrefl _)
  | some _ => rfl

/-! ## Opening -/

/-- The outcome is not an error of a branch that is marked as unreachable. -/
def Unmarked {α : Type} (outcome : Except Failure α) : Prop :=
  ∀ error, outcome ≠ .error (.marked error)

theorem unmarked_ok {α : Type} (value : α) : Unmarked (.ok value) := fun _ h => nomatch h

theorem unmarked_reported {α : Type} (error : Error) :
    Unmarked (.error (.reported error) : Except Failure α) := fun _ h => nomatch h

/-- The index block has these rows. -/
structure Table.Indexed {W : Type} (table : Table W) (entries : List (Bytes × Bytes)) : Prop where
  created : table.index.Created
  rows : Nonempty (Rows table.index entries)
  accepts : ∀ entry ∈ entries, table.format.acceptsKeySize entry.1.length = true

theorem findFilterHandle_unmarked {metaindex : Block} (rows : Rows metaindex entries) (key : Bytes) :
    Unmarked (findFilterHandle metaindex key) := by
  have hstart : rows.Shows (.create metaindex) none := ⟨rfl, rfl⟩
  have hsought : ∃ position, rows.Shows ((BlockIterator.create metaindex).seek Bytewise.compareKeys
      metaindex .arbitrary key) position := Rows.seek_shows_some (fun _ _ => rfl) hstart rfl
  obtain ⟨position, hshows⟩ := hsought
  rw [findFilterHandle, hshows.status]
  dsimp only
  split
  · exact unmarked_ok _
  · split
    · exact unmarked_reported _
    · exact unmarked_ok _

section Open

variable {W : Type} {platform : Platform} {file : RandomAccessFile W} {blocksEnd : Nat}

variable {handle : BlockHandle}

theorem created_of_readBlock {w w' : W} {block : Block} {cacheable : Bool}
    (h : readBlock platform file blocksEnd handle w = (.ok (block, cacheable), w')) :
    block.Created := by
  rw [readBlock] at h
  split at h
  · cases h
  · obtain ⟨hblock, _⟩ := Prod.mk.inj h
    obtain ⟨block', hcreate, heq⟩ := Result.bind_eq_ok.mp hblock
    cases heq
    exact Block.created_of_create hcreate

theorem index_of_readValidatedIndex {format : BlockKeyFormat} {w w' : W} {index : Block}
    (h : readValidatedIndex platform file blocksEnd handle format w = (.ok index, w')) :
    index.Created ∧ ∃ last, index.validateEntriesWith (visitIndexEntry blocksEnd format) 0 = .ok last := by
  rw [readValidatedIndex] at h
  split at h
  · cases h
  next hread =>
  split at h
  · cases h
  next hvalid =>
  cases h
  obtain ⟨last, hlast, _⟩ := Result.bind_eq_ok.mp hvalid
  exact ⟨created_of_readBlock hread, last, hlast⟩

theorem rows_of_readValidatedMetaindex {w w' : W} {metaindex : Block}
    (h : readValidatedMetaindex platform file blocksEnd handle w = (.ok metaindex, w')) :
    ∃ entries, Nonempty (Rows metaindex entries) := by
  rw [readValidatedMetaindex] at h
  split at h
  · cases h
  next hread =>
  split at h
  · cases h
  next hvalid =>
  cases h
  rw [Block.validateEntries] at hvalid
  obtain ⟨entries, hrows, _⟩ := Block.exists_rows (created_of_readBlock hread) hvalid
  exact ⟨entries, hrows⟩

theorem loadFilters_unmarked (policy : Option BloomFilterPolicy) (metaindexHandle : BlockHandle)
    (w : W) : Unmarked (loadFilters platform file blocksEnd policy metaindexHandle w).1 := by
  cases policy with
  | none => exact unmarked_ok _
  | some policy =>
    rw [loadFilters, readFilters]
    split
    · exact unmarked_reported _
    next metaindex w hread =>
    obtain ⟨entries, ⟨rows⟩⟩ := rows_of_readValidatedMetaindex hread
    split
    · next hfull =>
      intro error heq
      cases heq
      exact findFilterHandle_unmarked rows _ error hfull
    · split
      · exact unmarked_reported _
      · exact unmarked_ok _
    · split
      · next hlegacy =>
        intro error heq
        cases heq
        exact findFilterHandle_unmarked rows _ error hlegacy
      · exact unmarked_ok _
      · split
        · exact unmarked_reported _
        · exact unmarked_ok _

theorem openTable_cases (platform : Platform) (file : Option (RandomAccessFile W)) (fileSize : UInt64)
    (comparator : KeyComparator) (options : TableOptions W) (w : W) :
    Unmarked (Table.openTable platform file fileSize comparator options w).1 ∧
      ∀ table w', Table.openTable platform file fileSize comparator options w = (.ok table, w') →
        table.blocksEnd + footerSize = fileSize.toNat ∧ table.index.Created ∧
        ∃ last, table.index.validateEntriesWith (visitIndexEntry table.blocksEnd table.format) 0 =
          .ok last := by
  cases file with
  | none => exact ⟨unmarked_reported _, fun _ _ h => nomatch h⟩
  | some file =>
    rw [Table.openTable]
    dsimp only
    split
    · exact ⟨unmarked_reported _, fun _ _ h => nomatch h⟩
    next hsize =>
    split
    · exact ⟨unmarked_reported _, fun _ _ h => nomatch h⟩
    next footer w hfooter =>
    split
    · exact ⟨unmarked_reported _, fun _ _ h => nomatch h⟩
    next index w hindex =>
    have hfilters : Unmarked (loadFilters platform file (fileSize.toNat - footerSize)
        options.filterPolicy footer.metaindex w).1 := loadFilters_unmarked _ _ _
    split
    · next hload =>
      rw [hload] at hfilters
      refine ⟨fun error heq => ?_, fun _ _ h => nomatch h⟩
      cases heq
      exact hfilters error rfl
    · refine ⟨unmarked_ok _, fun table w' h => ?_⟩
      cases h
      obtain ⟨hcreated, last, hlast⟩ := index_of_readValidatedIndex hindex
      exact ⟨Nat.sub_add_cancel (Nat.le_of_not_lt hsize), hcreated, last, hlast⟩

end Open

namespace Table.Indexed

variable {W : Type} {table : Table W} {entries : List (Bytes × Bytes)}

theorem seek_status (h : table.Indexed entries) {target : Bytes}
    (htarget : table.format.acceptsKeySize target.length = true) :
    ((BlockIterator.create table.index).seek table.blockOrder table.index table.format
      target).currentStatus = .ok () := by
  obtain ⟨rows⟩ := h.rows
  have hstart : rows.Shows (.create table.index) none := ⟨rfl, rfl⟩
  obtain ⟨position, hshows⟩ := Rows.seek_shows_some h.accepts hstart htarget
  exact hshows.status

theorem get_unmarked (h : table.Indexed entries) {key : LookupKey}
    (hkey : table.format.acceptsKeySize key.internalKey.length = true) (fillCache : Bool) (w : W) :
    Unmarked (table.get key fillCache w).1 := by
  rw [Table.get]
  split
  · exact unmarked_ok _
  dsimp only
  rw [h.seek_status hkey]
  dsimp only
  split
  · exact unmarked_ok _
  split
  · exact unmarked_ok _
  split
  · exact unmarked_reported _
  split
  · exact unmarked_reported _
  · exact unmarked_ok _

end Table.Indexed

/-! ## Iterators -/

namespace TableIterator

variable {W : Type} {table : Table W} {entries : List (Bytes × Bytes)}
  {rows : Rows table.index entries}

/-- The index stands on a row whenever there is a data block. -/
def Stands (rows : Rows table.index entries) (it : TableIterator) : Prop :=
  ∃ position, rows.Shows it.index position ∧ (it.data.isSome = true → position.isSome = true)

/-- The call fails with no marked error and leaves the iterator standing. -/
structure Kept (rows : Rows table.index entries) (out : Except Failure Unit × TableIterator × W) :
    Prop where
  unmarked : Unmarked out.1
  stands : Stands rows out.2.1

variable {it : TableIterator} {position : Option Nat}

theorem fail_kept (h : rows.Shows it.index position) (error : Error) (w : W) :
    Kept rows (it.fail (.reported error) w) :=
  ⟨unmarked_reported _, position, h, fun h => nomatch h⟩

theorem loadBlock_spec (table : Table W) (fillCache : Bool) (it : TableIterator) (w : W) :
    (loadBlock table fillCache it w).2.1.index = it.index ∧
      ((loadBlock table fillCache it w).2.1.data.isSome = true → it.index.valid table.index = true) := by
  rw [loadBlock]
  split
  · exact ⟨rfl, fun h => nomatch h⟩
  next hvalid =>
  rw [Bool.not_eq_false] at hvalid
  dsimp only
  split
  · exact ⟨rfl, fun _ => hvalid⟩
  split
  · exact ⟨rfl, fun _ => hvalid⟩
  · exact ⟨rfl, fun _ => hvalid⟩

theorem loadBlock_stands {it' : TableIterator} {fillCache : Bool} {w w' : W} {status : Status}
    (h : rows.Shows it.index position) (hload : loadBlock table fillCache it w = (status, it', w')) :
    rows.Shows it'.index position ∧ (it'.data.isSome = true → position.isSome = true) := by
  obtain ⟨hindex, hvalid⟩ := loadBlock_spec table fillCache it w
  rw [hload] at hindex hvalid
  exact ⟨hindex ▸ h, fun hdata => h.valid (hvalid hdata)⟩

variable (entrySize : Nat) (fillCache : Bool)

theorem enterBlock_kept (h : rows.Shows it.index position) (edge : Edge) (w : W) :
    Kept rows (enterBlock table entrySize fillCache edge it w) := by
  unfold enterBlock
  split
  · next hload => exact fail_kept (loadBlock_stands h hload).1 _ _
  next it' w' hload =>
  obtain ⟨hindex, hdata⟩ := loadBlock_stands h hload
  split
  · exact ⟨unmarked_ok _, position, hindex, hdata⟩
  next block data heq =>
  have hposition : position.isSome = true := hdata (by rw [heq]; rfl)
  dsimp only
  split
  · exact fail_kept hindex _ _
  split
  · exact fail_kept hindex _ _
  · exact ⟨unmarked_ok _, position, hindex, fun _ => hposition⟩

variable (haccepts : ∀ entry ∈ entries, table.format.acceptsKeySize entry.1.length = true)
include haccepts

theorem moveIndex_kept (m : Cursor.Move Bytes) (h : rows.Shows it.index position)
    (haccepted : m.Accepted fun target => table.format.acceptsKeySize target.length = true)
    (hallowed : Cursor.Allowed m (position.bind (entries[·]?))) (edge : Edge) (w : W) :
    Kept rows (moveIndex table entrySize fillCache m edge it w) := by
  have hmoved : ∃ position', rows.Shows
      (it.index.move table.blockOrder table.index table.format entrySize m) position' :=
    Rows.move_shows table.blockOrder entrySize haccepts h haccepted (by rw [h.current]; exact hallowed)
  obtain ⟨position', hshows⟩ := hmoved
  rw [moveIndex, hshows.status]
  exact enterBlock_kept entrySize fillCache hshows edge w

omit haccepts in
theorem allowed_of_shows {it : BlockIterator} {m : Cursor.Move Bytes} (h : rows.Shows it position)
    (hposition : position.isSome = true) :
    Cursor.Allowed m (position.bind (entries[·]?)) := by
  obtain ⟨i, rfl⟩ := Option.isSome_iff_exists.mp hposition
  obtain ⟨entry, hat, _⟩ := h
  rw [Option.bind_some, hat.inside]
  cases m <;> trivial

theorem seek_kept (h : Stands rows it) (target : Bytes) (w : W) :
    Kept rows (seek table entrySize fillCache target it w) := by
  obtain ⟨position, hshows, _⟩ := h
  rw [seek]
  split
  · exact fail_kept hshows _ _
  next hchecked =>
  have htarget : table.format.acceptsKeySize target.length = true := by
    refine acceptsKeySize_of_decode fun hinternal => ?_
    rw [if_pos hinternal] at hchecked
    cases hparse : ByteKey.decode target with
    | error error =>
      rw [hparse] at hchecked
      cases hchecked
    | ok parsed => exact ⟨parsed, rfl⟩
  have hmoved : ∃ position', rows.Shows (it.index.move table.blockOrder table.index table.format
      entrySize (.seek target)) position' := Rows.seek_shows_some haccepts hshows htarget
  obtain ⟨position', hshows'⟩ := hmoved
  dsimp only
  rw [hshows'.status]
  dsimp only
  split
  · next hload => exact fail_kept (loadBlock_stands hshows' hload).1 _ _
  next it' w' hload =>
  obtain ⟨hindex, hdata⟩ := loadBlock_stands hshows' hload
  split
  · exact ⟨unmarked_ok _, position', hindex, hdata⟩
  next block data heq =>
  have hposition : position'.isSome = true := hdata (by rw [heq]; rfl)
  split
  · exact fail_kept hindex _ _
  next data' _ =>
  have hmoved : rows.Shows ({ it' with data := some (block, data') } : TableIterator).index position' :=
    hindex
  split
  · exact ⟨unmarked_ok _, position', hindex, fun _ => hposition⟩
  · exact moveIndex_kept entrySize fillCache haccepts .next hmoved trivial
      (allowed_of_shows hindex hposition) .first w'

theorem step_kept (m : Cursor.Move Bytes) (h : Stands rows it)
    (haccepted : m.Accepted fun target => table.format.acceptsKeySize target.length = true)
    (edge : Edge) (w : W) : Kept rows (step table entrySize fillCache m edge it w) := by
  obtain ⟨position, hshows, hdata⟩ := h
  rw [step]
  split
  · exact ⟨unmarked_ok _, position, hshows, hdata⟩
  next block data heq =>
  have hposition : position.isSome = true := hdata (by rw [heq]; rfl)
  split
  · exact fail_kept hshows _ _
  next data' _ =>
  have hmoved : rows.Shows ({ it with data := some (block, data') } : TableIterator).index position :=
    hshows
  dsimp only
  split
  · exact ⟨unmarked_ok _, position, hshows, fun _ => hposition⟩
  · exact moveIndex_kept entrySize fillCache haccepts m hmoved haccepted
      (allowed_of_shows hshows hposition) edge w

theorem move_kept (h : Stands rows it) (m : Cursor.Move Bytes) (w : W) :
    Kept rows (move table entrySize fillCache m it w) := by
  obtain ⟨position, hshows, _⟩ := id h
  cases m with
  | seekToFirst => exact moveIndex_kept entrySize fillCache haccepts .seekToFirst hshows trivial trivial _ _
  | seekToLast => exact moveIndex_kept entrySize fillCache haccepts .seekToLast hshows trivial trivial _ _
  | seek target => exact seek_kept entrySize fillCache haccepts h target w
  | next => exact step_kept entrySize fillCache haccepts .next h trivial _ _
  | prev => exact step_kept entrySize fillCache haccepts .prev h trivial _ _

variable (rows) in
include rows in
/-- No run meets a marked error, also behind errors that it reports. -/
theorem run_unmarked (moves : List (Cursor.Move Bytes)) (m : Cursor.Move Bytes) (w : W)
    (hallowed : (tableIterator table entrySize fillCache).AllowedRun moves (create table, w)) :
    Unmarked ((tableIterator table entrySize fillCache).move m
      ((tableIterator table entrySize fillCache).after moves (create table, w))).1 := by
  have hstart : Stands rows (create table) := ⟨none, ⟨rfl, rfl⟩, fun h => nomatch h⟩
  have hstands : Stands rows
      ((tableIterator table entrySize fillCache).after moves (create table, w)).1 :=
    Cursor.Iterator.after_induction (P := fun s => Stands rows s.1)
      (fun s m h _ => (move_kept entrySize fillCache haccepts h m s.2).stands) moves hstart hallowed
  exact (move_kept entrySize fillCache haccepts hstands m _).unmarked

end TableIterator

/-! ## Every file -/

/-- What a walk over the entries accepted, whatever the visitor and the comparator, is visited without
damage. So is the index of every table that `Open` returns, whose handles are those that `Open` saw;
and neither `Open` nor the operations on its tables take a branch that is marked as unreachable. -/
theorem validated_blocks_infallible :
    (∀ (contents : Bytes) (block : Block) (σ : Type) (visitor : σ → Bytes → Bytes → Result σ)
        (state state' : σ) (format : BlockKeyFormat) (order : Bytes → Bytes → Ordering)
        (entrySize : Nat),
      Block.create contents = .ok block → block.validateEntriesWith visitor state = .ok state' →
      (format = .internal → ∀ s key value s', visitor s key value = .ok s' →
        ∃ parsed, ByteKey.decode key = .ok parsed) →
      ∃ entries,
        block.validateEntriesWith (Block.recording visitor) (state, []) = .ok (state', entries) ∧
        block.Visits order format entrySize entries) ∧
    ∀ (W : Type) (platform : Platform) (file : Option (RandomAccessFile W)) (fileSize : UInt64)
        (comparator : KeyComparator) (options : TableOptions W) (w : W),
      Unmarked (Table.openTable platform file fileSize comparator options w).1 ∧
      ∀ table w', Table.openTable platform file fileSize comparator options w = (.ok table, w') →
        (∃ last entries handles,
          table.index.validateEntriesWith
            (Block.recording (visitIndexEntry table.blocksEnd table.format)) (0, []) =
              .ok (last, entries) ∧
          IndexHandles (fileSize.toNat - footerSize) entries handles ∧
          ∀ order entrySize, table.index.Visits order table.format entrySize entries) ∧
        (∀ userKey sequence fillCache w,
          Unmarked (table.get (LookupKey.createTrusted userKey sequence) fillCache w).1) ∧
        ∀ entrySize fillCache w moves m,
          (tableIterator table entrySize fillCache).AllowedRun (moves ++ [m]) (.create table, w) →
          Unmarked ((tableIterator table entrySize fillCache).move m
            ((tableIterator table entrySize fillCache).after moves (.create table, w))).1 := by
  constructor
  · intro contents block σ visitor state state' format order entrySize hcreate hvalid hkeys
    have hblock := Block.created_of_create hcreate
    obtain ⟨entries, ⟨rows⟩, hseen, _, haccepts⟩ := Block.rows_of_visits hblock hvalid hkeys
    exact ⟨entries, hseen, rows.visits hblock order entrySize haccepts⟩
  intro W platform file fileSize comparator options w
  obtain ⟨hunmarked, hopened⟩ := openTable_cases platform file fileSize comparator options w
  refine ⟨hunmarked, fun table w' hopen => ?_⟩
  obtain ⟨hsize, hblock, last, hvalid⟩ := hopened table w' hopen
  obtain ⟨entries, ⟨rows⟩, hseen, hvisits, haccepts⟩ := Block.rows_of_visits hblock hvalid
    (fun hinternal s key value s' hvisit => (visitIndexEntry_eq_ok hvisit).1 hinternal)
  have hend : table.blocksEnd < 2 ^ 64 := by
    have := fileSize.toNat_lt
    omega
  refine ⟨?_, fun userKey sequence fillCache w => ?_, fun entrySize fillCache w moves m hallowed => ?_⟩
  · obtain ⟨handles, hhandles, _⟩ := handles_of_visits hend entries hvisits
    rw [← hsize, Nat.add_sub_cancel]
    exact ⟨last, entries, handles, hseen, hhandles, fun order entrySize =>
      rows.visits hblock order entrySize haccepts⟩
  · have hindexed : table.Indexed entries := ⟨hblock, ⟨rows⟩, haccepts⟩
    exact hindexed.get_unmarked (acceptsKeySize_createTrusted _ userKey sequence) fillCache w
  · obtain ⟨hmoves, _⟩ := (Cursor.Iterator.allowedRun_append _ _).mp hallowed
    exact TableIterator.run_unmarked rows entrySize fillCache haccepts moves m w hmoves

def bytesFile (bytes : Bytes) : RandomAccessFile Unit where
  read offset size w := (.ok ((bytes.drop offset).take size), w)
  tryReadView _ _ w := (none, w)

/-- A block with one value. -/
def smallBlock : Bytes := [0, 9, 1, 107, 1, 1, 0, 0, 0, 0, 0, 0, 118, 0, 0, 0, 0, 1, 0, 0, 0]

/-- An index with the key and the handle of that block. -/
def smallIndex : Bytes := [0, 9, 2, 107, 1, 1, 0, 0, 0, 0, 0, 0, 0, 21, 0, 0, 0, 0, 1, 0, 0, 0]

def smallTable : Bytes :=
  smallBlock ++ encodeBlockTrailer plainPlatform.extend smallBlock .none ++
    (smallIndex ++ encodeBlockTrailer plainPlatform.extend smallIndex .none) ++
      encodeFooter ⟨⟨0, 0⟩, ⟨26, smallIndex.length⟩⟩

def openSmallTable : Except Failure (Table Unit) × Unit :=
  Table.openTable plainPlatform (some (bytesFile smallTable)) 101
    ⟨Bytewise.compareKeys, fun start _ => start, id⟩ {} ()

/-- An iterator shows the value, and goes on from there. -/
theorem validated_blocks_infallible_small :
    (∃ entries, Block.Visits compare ⟨smallIndex, 14, 1⟩ .internal 64 entries) ∧
    ∃ table, openSmallTable = (.ok table, ()) ∧
      (∃ entries handles, IndexHandles 53 entries handles ∧
        table.index.Visits compare table.format 64 entries) ∧
      Unmarked (table.get (LookupKey.createTrusted [107] 1) true ()).1 ∧
      ((tableIterator table 64 true).current
        ((tableIterator table 64 true).after [.seekToFirst] (.create table, ()))).isSome = true ∧
      Unmarked ((tableIterator table 64 true).move .next
        ((tableIterator table 64 true).after [.seekToFirst] (.create table, ()))).1 := by
  constructor
  · obtain ⟨entries, _, hvisits⟩ := validated_blocks_infallible.1 smallIndex ⟨smallIndex, 14, 1⟩ Nat
      (visitIndexEntry 53 .internal) 0 26 .internal compare 64 rfl (by decide +kernel)
      (fun hinternal _ _ _ _ hvisit => (visitIndexEntry_eq_ok hvisit).1 hinternal)
    exact ⟨entries, hvisits⟩
  · have hshown : openSmallTable.1.toOption.any (fun table => ((tableIterator table 64 true).current
        ((tableIterator table 64 true).after [.seekToFirst] (.create table, ()))).isSome) = true := by
      decide +kernel
    obtain ⟨_, hopened⟩ := validated_blocks_infallible.2 Unit plainPlatform
      (some (bytesFile smallTable)) 101 ⟨Bytewise.compareKeys, fun start _ => start, id⟩ {} ()
    cases hopen : openSmallTable with
    | mk outcome w =>
      rw [hopen] at hshown
      cases outcome with
      | error failure => cases hshown
      | ok table =>
        obtain ⟨⟨_, entries, handles, _, hhandles, hvisits⟩, hget, hmove⟩ := hopened table w hopen
        obtain ⟨shown, hcurrent⟩ := Option.isSome_iff_exists.mp hshown
        refine ⟨table, rfl, ⟨entries, handles, hhandles, hvisits compare 64⟩, hget [107] 1 true (),
          hshown, hmove 64 true () [.seekToFirst] .next ⟨trivial, ?_, trivial⟩⟩
        change Cursor.Allowed _ ((tableIterator table 64 true).current
          ((tableIterator table 64 true).after [.seekToFirst] (.create table, ())))
        rw [hcurrent]
        trivial

end ModernLevelDB
