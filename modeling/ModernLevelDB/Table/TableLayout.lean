import ModernLevelDB.Table.BlockFinish
import ModernLevelDB.Table.TableBuilder

/-! # The layout of a table

The file of a table is given by the entries of its data blocks, the keys that separate them, and the
filter. A builder that has met no error has written a part of that file, and `Finish` completes it. -/
namespace ModernLevelDB
set_option autoImplicit false

namespace TableBuilder

/-! ## The file -/

def storedBytes (platform : Platform) (stored : Bytes × BlockCompression) : Bytes :=
  stored.1 ++ encodeBlockTrailer platform.extend stored.1 stored.2

def place : (offset : Nat) → List (Bytes × BlockCompression) → List BlockHandle
  | _, [] => []
  | offset, stored :: rest =>
      ⟨offset, stored.1.length⟩ :: place (offset + stored.1.length + blockTrailerSize) rest

section Layout

variable (platform : Platform) (options : TableBuilderOptions) (filterKey : Bytes)

def dataBlocks (blocks : List (List (Bytes × Bytes))) : List (Bytes × BlockCompression) :=
  blocks.map fun entries =>
    storedContents platform options (blockBuilderOf options.restartInterval entries).finish

def dataHandles (blocks : List (List (Bytes × Bytes))) : List BlockHandle :=
  place 0 (dataBlocks platform options blocks)

def bodyBlocks (blocks : List (List (Bytes × Bytes))) (filter : Option Bytes) :
    List (Bytes × BlockCompression) :=
  dataBlocks platform options blocks ++ filter.toList.map fun payload => (payload, .none)

def bytesOf (stored : List (Bytes × BlockCompression)) : Bytes := stored.flatMap (storedBytes platform)

def metaindexEntries (blocks : List (List (Bytes × Bytes))) (filter : Option Bytes) :
    List (Bytes × Bytes) :=
  filter.toList.map fun payload => (filterKey, encodeBlockHandle
    ⟨(bytesOf platform (dataBlocks platform options blocks)).length, payload.length⟩)

def indexEntries (blocks : List (List (Bytes × Bytes))) (separators : List Bytes) :
    List (Bytes × Bytes) :=
  separators.zip ((dataHandles platform options blocks).map encodeBlockHandle)

def metaindexBlock (blocks : List (List (Bytes × Bytes))) (filter : Option Bytes) :
    Bytes × BlockCompression :=
  storedContents platform options (blockBuilderOf options.restartInterval
    (metaindexEntries platform options filterKey blocks filter)).finish

def indexBlockOf (blocks : List (List (Bytes × Bytes))) (separators : List Bytes) :
    Bytes × BlockCompression :=
  storedContents platform options
    (blockBuilderOf 1 (indexEntries platform options blocks separators)).finish

def footerOf (blocks : List (List (Bytes × Bytes))) (filter : Option Bytes)
    (separators : List Bytes) : Footer :=
  let body := bytesOf platform (bodyBlocks platform options blocks filter)
  let metaindex := metaindexBlock platform options filterKey blocks filter
  ⟨⟨body.length, metaindex.1.length⟩, ⟨body.length + (storedBytes platform metaindex).length,
    (indexBlockOf platform options blocks separators).1.length⟩⟩

def tableBytes (blocks : List (List (Bytes × Bytes))) (filter : Option Bytes)
    (separators : List Bytes) : Bytes :=
  bytesOf platform (bodyBlocks platform options blocks filter) ++
    storedBytes platform (metaindexBlock platform options filterKey blocks filter) ++
    storedBytes platform (indexBlockOf platform options blocks separators) ++
    encodeFooter (footerOf platform options filterKey blocks filter separators)

end Layout

theorem length_storedBytes (platform : Platform) (stored : Bytes × BlockCompression) :
    (storedBytes platform stored).length = stored.1.length + blockTrailerSize := by
  rw [storedBytes, encodeBlockTrailer, List.length_append, List.length_cons, length_encodeFixed]
  rfl

theorem place_append (platform : Platform) (first : List (Bytes × BlockCompression))
    (stored : Bytes × BlockCompression) : ∀ offset : Nat,
    place offset (first ++ [stored]) =
      place offset first ++ [⟨offset + (bytesOf platform first).length, stored.1.length⟩] := by
  induction first with
  | nil => exact fun _ => rfl
  | cons block first ih =>
    intro offset
    rw [List.cons_append, place, place, ih, bytesOf, bytesOf, List.flatMap_cons, List.length_append,
      length_storedBytes, List.cons_append, Nat.add_assoc, Nat.add_assoc offset, Nat.add_assoc]

theorem length_place (stored : List (Bytes × BlockCompression)) : ∀ offset : Nat,
    (place offset stored).length = stored.length := by
  induction stored with
  | nil => exact fun _ => rfl
  | cons _ _ ih => exact fun _ => congrArg (· + 1) (ih _)

/-! ## Writing -/

/-- An error was recorded. -/
def Failed (builder : TableBuilder) : Prop := builder.firstError.isSome = true

/-- What a builder never changes. -/
structure Setting where
  platform : Platform
  comparator : KeyComparator
  options : TableBuilderOptions
  filterKey : Bytes

def setting (builder : TableBuilder) : Setting :=
  ⟨builder.platform, builder.comparator, builder.options, builder.filterKey⟩

/-- Without an error, the file has these contents. -/
structure Wrote (s : Setting) (builder : TableBuilder) (contents : Bytes) : Prop where
  setting : builder.setting = s
  ok : builder.firstError = none
  file : ∃ file, builder.file = some file ∧ file.contents = contents
  fileSize : builder.fileSize = contents.length

variable {s : Setting} {builder : TableBuilder} {contents : Bytes}

theorem failed_record {error : Error} : (builder.record (.error error)).Failed := by
  rw [record]
  split
  · rfl
  · next h => exact Option.isSome_iff_exists.mpr ⟨_, h⟩

theorem Wrote.not_failed (h : Wrote s builder contents) : ¬builder.firstError.isSome = true := by
  rw [h.ok]
  exact Bool.false_ne_true

theorem appendFile_cases {file : WritableFile} (hfile : builder.file = some file) (data : Bytes) :
    (∃ file', file'.contents = file.contents ++ data ∧
      builder.appendFile data = (true, { builder with file := some file' })) ∨
    ∃ failed, builder.appendFile data = (false, failed) ∧ failed.Failed := by
  rw [appendFile, hfile]
  dsimp only
  cases hcall : file.outcome file.calls with
  | none =>
    have happend : file.append data =
        (.ok (), { file with contents := file.contents ++ data, calls := file.calls + 1 }) := by
      rw [WritableFile.append.eq_def, hcall]
    rw [happend]
    exact .inl ⟨_, rfl, rfl⟩
  | some outcome =>
    have happend : file.append data = (.error outcome.1,
        { file with contents := file.contents ++ data.take outcome.2, calls := file.calls + 1 }) := by
      rw [WritableFile.append.eq_def, hcall]
    rw [happend]
    exact .inr ⟨_, rfl, failed_record⟩

theorem Wrote.writeRawBlock (h : Wrote s builder contents) (stored : Bytes × BlockCompression) :
    (∃ file fileSize, builder.writeRawBlock stored.1 stored.2 = (⟨contents.length, stored.1.length⟩,
        { builder with file, fileSize }) ∧
      Wrote s { builder with file, fileSize }
        (contents ++ storedBytes s.platform stored)) ∨
    ∃ handle failed, builder.writeRawBlock stored.1 stored.2 = (handle, failed) ∧ failed.Failed := by
  obtain ⟨rfl, hok, ⟨file, hfile, rfl⟩, hsize⟩ := id h
  rw [TableBuilder.writeRawBlock, if_neg h.not_failed, hsize]
  rcases appendFile_cases hfile stored.1 with ⟨file₁, hcontents₁, happend⟩ | ⟨failed, happend, hfailed⟩
  · rw [happend]
    dsimp only
    rcases appendFile_cases (show ({ builder with file := some file₁ } : TableBuilder).file = _ from rfl)
      (encodeBlockTrailer builder.platform.extend stored.1 stored.2) with
      ⟨file₂, hcontents₂, happend⟩ | ⟨failed, happend, hfailed⟩
    · rw [happend]
      refine .inl ⟨some file₂, _, rfl, rfl, hok, ⟨file₂, rfl, ?_⟩, ?_⟩
      · rw [hcontents₂, hcontents₁, storedBytes, List.append_assoc]
        rfl
      · rw [List.length_append, length_storedBytes, ← hsize, Nat.add_assoc]
    · exact .inr ⟨_, failed, by rw [happend], hfailed⟩
  · exact .inr ⟨_, failed, by rw [happend], hfailed⟩

theorem Wrote.writeBlock (h : Wrote s builder contents) (data : Bytes) :
    builder.writeBlock data = builder.writeRawBlock (storedContents s.platform s.options data).1
      (storedContents s.platform s.options data).2 := by
  obtain ⟨rfl, hok, -, -⟩ := h
  rw [TableBuilder.writeBlock, hok]
  rfl

/-! ## Builders without errors -/

variable {blocks : List (List (Bytes × Bytes))} {current : List (Bytes × Bytes)}
  {separators : List Bytes}

theorem blockBuilderOf_append (interval : Nat) (entries : List (Bytes × Bytes)) (entry : Bytes × Bytes) :
    blockBuilderOf interval (entries ++ [entry]) =
      (blockBuilderOf interval entries).add entry.1 entry.2 := by
  rw [blockBuilderOf, BlockBuilder.addAll, List.foldl_append]
  rfl

theorem restartInterval_blockBuilderOf (interval : Nat) (entries : List (Bytes × Bytes)) :
    (blockBuilderOf interval entries).restartInterval = interval := by
  induction entries using List.reverseRecOn with
  | nil => rfl
  | append_singleton entries entry ih =>
    rw [blockBuilderOf_append, BlockBuilder.add]
    dsimp only
    split
    · exact ih
    · exact ih

theorem entriesSinceRestart_eq_zero (interval : Nat) (entries : List (Bytes × Bytes)) :
    (blockBuilderOf interval entries).entriesSinceRestart = 0 ↔ entries = [] := by
  induction entries using List.reverseRecOn with
  | nil => exact ⟨fun _ => rfl, fun _ => rfl⟩
  | append_singleton entries entry _ =>
    rw [blockBuilderOf_append, BlockBuilder.add]
    simp

theorem dataHandles_append (platform : Platform) (options : TableBuilderOptions)
    (blocks : List (List (Bytes × Bytes))) (entries : List (Bytes × Bytes)) :
    dataHandles platform options (blocks ++ [entries]) = dataHandles platform options blocks ++
      [⟨(bytesOf platform (dataBlocks platform options blocks)).length, (storedContents platform options
        (blockBuilderOf options.restartInterval entries).finish).1.length⟩] := by
  rw [dataHandles, dataBlocks, List.map_append, List.map_singleton, place_append platform, Nat.zero_add]
  rfl

theorem length_dataHandles (platform : Platform) (options : TableBuilderOptions)
    (blocks : List (List (Bytes × Bytes))) :
    (dataHandles platform options blocks).length = blocks.length := by
  rw [dataHandles, length_place, dataBlocks, List.length_map]

theorem indexEntries_append_block (platform : Platform) (options : TableBuilderOptions)
    (entries : List (Bytes × Bytes)) (hlength : separators.length = blocks.length) :
    indexEntries platform options (blocks ++ [entries]) separators =
      indexEntries platform options blocks separators := by
  rw [indexEntries, dataHandles_append, List.map_append]
  conv_lhs => rw [← List.append_nil separators]
  rw [List.zip_append (by rw [List.length_map, length_dataHandles, hlength]), List.zip_nil_left,
    List.append_nil, indexEntries]

theorem indexEntries_append_key {platform : Platform} {options : TableBuilderOptions}
    {handle : BlockHandle} (hlength : separators.length + 1 = blocks.length)
    (hlast : (dataHandles platform options blocks).getLast? = some handle) (separator : Bytes) :
    indexEntries platform options blocks (separators ++ [separator]) =
      indexEntries platform options blocks separators ++ [(separator, encodeBlockHandle handle)] := by
  have hsplit : dataHandles platform options blocks =
      (dataHandles platform options blocks).dropLast ++ [handle] :=
    (List.dropLast_append_getLast? handle hlast).symm
  have hfirst : separators.length =
      ((dataHandles platform options blocks).dropLast.map encodeBlockHandle).length := by
    rw [List.length_map, List.length_dropLast, length_dataHandles]
    omega
  rw [indexEntries, indexEntries, hsplit, List.map_append, List.map_singleton, List.zip_append hfirst]
  conv_rhs => rw [← List.append_nil separators]
  rw [List.zip_append hfirst, List.zip_nil_left, List.append_nil]
  rfl

/-- `blocks` are written, `current` is in the data block, and `separators` are the index keys so far. -/
structure Written (s : Setting) (builder : TableBuilder) (blocks : List (List (Bytes × Bytes)))
    (current : List (Bytes × Bytes)) (separators : List Bytes) : Prop where
  wrote : Wrote s builder (bytesOf s.platform (dataBlocks s.platform s.options blocks))
  data : builder.dataBlock = blockBuilderOf s.options.restartInterval current
  index : builder.indexBlock = blockBuilderOf 1 (indexEntries s.platform s.options blocks separators)
  indexed : separators.length + (if builder.pendingIndexEntry then 1 else 0) = blocks.length
  pending : builder.pendingIndexEntry = true → current = [] ∧
    (dataHandles s.platform s.options blocks).getLast? = some builder.pendingHandle

section

variable (h : Written s builder blocks current separators)

include h

theorem Written.pending_eq_false
    (hlength : separators.length = blocks.length) : builder.pendingIndexEntry = false := by
  have hindexed := h.indexed
  rw [← hlength] at hindexed
  by_contra hpending
  rw [Bool.not_eq_false] at hpending
  rw [if_pos hpending] at hindexed
  omega

theorem Written.addPendingIndexEntry
    (hpending : builder.pendingIndexEntry = true) (separator : Bytes) :
    Written s (builder.addPendingIndexEntry separator) blocks current (separators ++ [separator]) := by
  have hindexed := h.indexed
  rw [if_pos hpending] at hindexed
  refine ⟨{ h.wrote with }, h.data, ?_, ?_, ?_⟩
  · rw [indexEntries_append_key hindexed (h.pending hpending).2, blockBuilderOf_append, ← h.index]
    rfl
  · rw [List.length_append, List.length_singleton]
    exact hindexed
  · exact fun hfalse => absurd hfalse Bool.false_ne_true

theorem Written.indexPending (separator : Bytes) :
    ∃ separators', separators'.length = blocks.length ∧
      Written s (if builder.pendingIndexEntry then builder.addPendingIndexEntry separator else builder)
        blocks current separators' := by
  have hindexed := h.indexed
  by_cases hpending : builder.pendingIndexEntry = true
  · rw [if_pos hpending] at hindexed ⊢
    refine ⟨separators ++ [separator], ?_, h.addPendingIndexEntry hpending separator⟩
    rw [List.length_append, List.length_singleton, hindexed]
  · rw [if_neg hpending] at hindexed ⊢
    exact ⟨separators, hindexed, h⟩

theorem Written.appendDataEntry (hlength : separators.length = blocks.length) (key value : Bytes) :
    Written s (builder.appendDataEntry key value) blocks (current ++ [(key, value)]) separators := by
  have hpending := h.pending_eq_false hlength
  refine ⟨{ h.wrote with }, ?_, h.index, h.indexed, ?_⟩
  · rw [blockBuilderOf_append, ← h.data]
    rfl
  · exact fun htrue => absurd (hpending.symm.trans htrue) Bool.false_ne_true

end

theorem Failed.startFilterBlock (h : builder.Failed) : builder.startFilterBlock.Failed := by
  rw [TableBuilder.startFilterBlock]
  split
  · exact h
  · split
    · exact failed_record
    · exact h

theorem bytesOf_dataBlocks_append (platform : Platform) (options : TableBuilderOptions)
    (blocks : List (List (Bytes × Bytes))) (entries : List (Bytes × Bytes)) :
    bytesOf platform (dataBlocks platform options (blocks ++ [entries])) =
      bytesOf platform (dataBlocks platform options blocks) ++ storedBytes platform
        (storedContents platform options (blockBuilderOf options.restartInterval entries).finish) := by
  rw [bytesOf, dataBlocks, List.map_append, List.flatMap_append, List.map_singleton,
    List.flatMap_singleton]
  rfl

theorem Written.writeDataBlock (h : Written s builder blocks current separators)
    (hcurrent : current ≠ []) :
    builder.writeDataBlock.Failed ∨ ∃ written, builder.writeDataBlock = written.startFilterBlock ∧
      Written s written (blocks ++ [current]) [] separators ∧
      written.filterBlock = builder.filterBlock ∧ written.fullFilter = builder.fullFilter ∧
      written.finished = builder.finished := by
  have hidle : builder.pendingIndexEntry = false :=
    Bool.eq_false_iff.mpr fun htrue => hcurrent (h.pending htrue).1
  have hindexed := h.indexed
  rw [hidle] at hindexed
  rw [TableBuilder.writeDataBlock, h.wrote.writeBlock, h.data, restartInterval_blockBuilderOf]
  rcases h.wrote.writeRawBlock (storedContents s.platform s.options
    (blockBuilderOf s.options.restartInterval current).finish) with
    ⟨file, fileSize, hwrite, hwrote⟩ | ⟨handle, failed, hwrite, hfailed⟩
  · rw [hwrite]
    dsimp only
    rw [if_neg h.wrote.not_failed]
    refine .inr ⟨_, rfl, ⟨?_, rfl, ?_, ?_, fun _ => ⟨rfl, ?_⟩⟩, rfl, rfl, rfl⟩
    · rw [bytesOf_dataBlocks_append]
      exact { hwrote with }
    · rw [indexEntries_append_block _ _ current hindexed]
      exact h.index
    · rw [List.length_append, List.length_singleton, ← hindexed]
      rfl
    · rw [dataHandles_append, List.getLast?_concat]
  · rw [hwrite]
    exact .inl (Failed.startFilterBlock hfailed)

/-! ## The end of a table -/

theorem Failed.writeBlock (h : builder.Failed) (data : Bytes) :
    builder.writeBlock data = (⟨0, 0⟩, builder) := if_pos h

theorem Wrote.writeMetaindex
    (h : Wrote s builder (bytesOf s.platform (dataBlocks s.platform s.options blocks)))
    {filter : Option Bytes} (hfilter : builder.finishFilter = filter) (separators : List Bytes) :
    (∃ file fileSize, builder.writeMetaindex =
        ((footerOf s.platform s.options s.filterKey blocks filter separators).metaindex,
          { builder with file, fileSize }) ∧
      Wrote s { builder with file, fileSize }
        (bytesOf s.platform (bodyBlocks s.platform s.options blocks filter) ++
          storedBytes s.platform (metaindexBlock s.platform s.options s.filterKey blocks filter))) ∨
    ∃ handle failed, builder.writeMetaindex = (handle, failed) ∧ failed.Failed := by
  obtain rfl := h.setting
  rw [TableBuilder.writeMetaindex, addFilterIndexEntry, hfilter]
  cases filter with
  | none =>
    dsimp only
    rw [h.writeBlock, footerOf, bodyBlocks, Option.toList_none, List.map_nil, List.append_nil]
    exact h.writeRawBlock _
  | some payload =>
    dsimp only
    have hbody (platform : Platform) (options : TableBuilderOptions) :
        bytesOf platform (bodyBlocks platform options blocks (some payload)) =
          bytesOf platform (dataBlocks platform options blocks) ++
            storedBytes platform (payload, .none) := by
      rw [bodyBlocks, bytesOf, List.flatMap_append]
      exact congrArg (_ ++ ·) (List.append_nil _)
    rcases h.writeRawBlock (payload, .none) with
      ⟨file, fileSize, hwrite, hwrote⟩ | ⟨handle, failed, hwrite, hfailed⟩
    · rw [hwrite, footerOf, hbody]
      dsimp only
      rw [hwrote.writeBlock]
      exact hwrote.writeRawBlock _
    · rw [hwrite]
      dsimp only
      rw [hfailed.writeBlock]
      exact .inr ⟨_, _, rfl, hfailed⟩

theorem contents_sync (file : WritableFile) : file.sync.2.contents = file.contents := by
  rw [WritableFile.sync]
  split <;> rfl

theorem file_record_sync (builder : TableBuilder) (file : WritableFile) :
    ∃ file', (({ builder with file := some file.sync.2 } : TableBuilder).record file.sync.1).file =
      some file' ∧ file'.contents = file.contents := by
  refine ⟨file.sync.2, ?_, contents_sync file⟩
  cases file.sync.1 with
  | error error =>
    rw [record]
    split <;> rfl
  | ok _ => rfl

theorem Wrote.writeFooter (h : Wrote s builder contents) (metaindex index : BlockHandle) :
    (builder.writeFooter metaindex index).Failed ∨
      ∃ file, (builder.writeFooter metaindex index).file = some file ∧
        file.contents = contents ++ encodeFooter ⟨metaindex, index⟩ := by
  obtain ⟨file, hfile, rfl⟩ := h.file
  rw [TableBuilder.writeFooter]
  rcases appendFile_cases hfile (encodeFooter ⟨metaindex, index⟩) with
    ⟨file', hcontents, happend⟩ | ⟨failed, happend, hfailed⟩
  · rw [happend, ← hcontents]
    exact .inr (file_record_sync _ file')
  · rw [happend]
    exact .inl hfailed

theorem Failed.writeMetaindex (h : builder.Failed) : builder.writeMetaindex.2 = builder := by
  rw [TableBuilder.writeMetaindex, addFilterIndexEntry]
  cases builder.finishFilter with
  | none => exact congrArg Prod.snd (h.writeBlock _)
  | some payload =>
    have hwrite : builder.writeRawBlock payload .none = (⟨0, 0⟩, builder) := if_pos h
    dsimp only
    rw [hwrite]
    exact congrArg Prod.snd (h.writeBlock _)

theorem Failed.writeIndex (h : builder.Failed) : builder.writeIndex.2.Failed := by
  have hfinal : builder.addFinalIndexEntry.Failed := by
    rw [addFinalIndexEntry]
    split
    · exact h
    · exact h
  rw [TableBuilder.writeIndex, hfinal.writeBlock]
  exact hfinal

theorem Wrote.writeIndex (h : Wrote s builder contents) :
    (∃ written, builder.writeIndex = (⟨contents.length, (storedContents s.platform s.options
        builder.addFinalIndexEntry.indexBlock.finish).1.length⟩, written) ∧
      Wrote s written (contents ++ storedBytes s.platform (storedContents s.platform s.options
        builder.addFinalIndexEntry.indexBlock.finish))) ∨ builder.writeIndex.2.Failed := by
  have hfinal : Wrote s builder.addFinalIndexEntry contents := by
    rw [addFinalIndexEntry]
    split
    · exact { h with }
    · exact h
  rw [TableBuilder.writeIndex, hfinal.writeBlock]
  rcases hfinal.writeRawBlock (storedContents s.platform s.options
    builder.addFinalIndexEntry.indexBlock.finish) with
    ⟨file, fileSize, hwrite, hwrote⟩ | ⟨handle, failed, hwrite, hfailed⟩
  · exact .inl ⟨_, hwrite, hwrote⟩
  · rw [hwrite]
    exact .inr hfailed

theorem failed_footer (h : builder.Failed) (metaindex index : BlockHandle) :
    (if builder.firstError.isSome then builder else builder.writeFooter metaindex index).Failed := by
  rw [if_pos (show builder.firstError.isSome = true from h)]
  exact h

theorem Failed.writeTail (h : builder.Failed) (hzero : builder.dataBlock.entriesSinceRestart = 0) :
    builder.writeTail.Failed := by
  have hindex : builder.writeMetaindex.2.writeIndex.2.Failed :=
    Failed.writeIndex (h.writeMetaindex.symm ▸ h)
  rw [TableBuilder.writeTail, if_pos hzero]
  exact failed_footer hindex _ _

/-- What `Finish` writes behind the data blocks completes the table. -/
theorem Written.writeTail (h : Written s builder blocks [] separators) :
    builder.writeTail.Failed ∨ ∃ separators' file, separators'.length = blocks.length ∧
      builder.writeTail.file = some file ∧ file.contents =
        tableBytes s.platform s.options s.filterKey blocks builder.finishFilter separators' := by
  have hzero : builder.dataBlock.entriesSinceRestart = 0 := by
    rw [h.data]
    rfl
  obtain ⟨separators', hlength, hfinal⟩ := h.indexPending
    (InternalKeyComparator.findShortSuccessor builder.comparator builder.lastKey)
  rw [TableBuilder.writeTail, if_pos hzero]
  rcases h.wrote.writeMetaindex rfl separators' with
    ⟨file, fileSize, hmeta, hwrote⟩ | ⟨handle, failed, hmeta, hfailed⟩
  case inr =>
    rw [hmeta]
    exact .inl (failed_footer hfailed.writeIndex _ _)
  have hindex : ({ builder with file, fileSize } :
      TableBuilder).addFinalIndexEntry.indexBlock =
        blockBuilderOf 1 (indexEntries s.platform s.options blocks separators') := by
    refine Eq.trans ?_ hfinal.index
    rw [addFinalIndexEntry]
    split
    · rfl
    · rfl
  have hwritten := hwrote.writeIndex
  rw [hindex] at hwritten
  rw [hmeta]
  rcases hwritten with ⟨written, hwrite, hwrote⟩ | hfailed
  · dsimp only
    rw [hwrite, if_neg hwrote.not_failed]
    refine (hwrote.writeFooter _ _).imp_right ?_
    rintro ⟨file, hfile, hcontents⟩
    refine ⟨separators', file, hlength, hfile, ?_⟩
    rw [hcontents, List.length_append]
    rfl
  · exact .inl (failed_footer hfailed _ _)

theorem dataBlock_startFilterBlock (builder : TableBuilder) :
    builder.startFilterBlock.dataBlock = builder.dataBlock := by
  rw [startFilterBlock]
  split
  · rfl
  · split
    · rw [record]
      split <;> rfl
    · rfl

theorem writeTail_eq (hpositive : ¬builder.dataBlock.entriesSinceRestart = 0) :
    builder.writeTail = builder.writeDataBlock.writeTail := by
  have hzero : builder.writeDataBlock.dataBlock.entriesSinceRestart = 0 :=
    congrArg BlockBuilder.entriesSinceRestart (dataBlock_startFilterBlock _)
  rw [writeTail, if_neg hpositive]
  conv_rhs => rw [writeTail, if_pos hzero]

theorem Failed.closeFile (h : builder.Failed) : builder.closeFile.Failed := by
  rw [TableBuilder.closeFile]
  split
  · exact h
  · next file _ =>
    cases hsync : file.sync with
    | mk status synced =>
      cases status with
      | ok _ => exact h
      | error error => exact failed_record

theorem status_eq_ok : builder.status = .ok () ↔ ¬builder.Failed := by
  rw [status, Failed]
  cases builder.firstError with
  | none => exact ⟨fun _ => Bool.false_ne_true, fun _ => rfl⟩
  | some error => exact ⟨fun hok => (nomatch hok), fun hnot => absurd rfl hnot⟩

theorem finish_ok (hok : builder.finish.1 = .ok ()) :
    ¬builder.Failed ∧ ¬({ builder with finished := true } : TableBuilder).writeTail.Failed ∧
      ∀ file, ({ builder with finished := true } : TableBuilder).writeTail.file = some file →
        ∃ file', builder.finish.2.file = some file' ∧ file'.contents = file.contents := by
  have hfinished : ¬builder.finished = true := by
    intro hfinished
    rw [finish, if_pos hfinished] at hok
    cases hok
  rw [finish, if_neg hfinished] at hok ⊢
  have hclosed := status_eq_ok.mp hok
  have hnot : ¬builder.firstError.isSome = true := by
    intro hfailed
    rw [if_pos hfailed] at hclosed
    exact hclosed (Failed.closeFile hfailed)
  rw [if_neg hnot] at hclosed
  refine ⟨hnot, fun hfailed => hclosed hfailed.closeFile, fun file hfile => ?_⟩
  dsimp only
  rw [if_neg hnot, closeFile, hfile]
  exact file_record_sync _ file

end TableBuilder

end ModernLevelDB
