import ModernLevelDB.Table.FilterBlockRuns
import ModernLevelDB.Table.TableLayout

/-! # The filter block of a table

A key goes into the filter of the range in which its data block begins. The offset of the next data
block is known before its first key is added, so that the current range is always the one of the block
that is being filled. -/
namespace ModernLevelDB
set_option autoImplicit false

namespace TableBuilder

variable {s : Setting} {builder : TableBuilder} {blocks : List (List (Bytes × Bytes))}
  {current : List (Bytes × Bytes)} {separators : List Bytes} {key value : Bytes}

def keyOffsets (platform : Platform) (options : TableBuilderOptions)
    (blocks : List (List (Bytes × Bytes))) : List (Nat × Bytes) :=
  ((dataHandles platform options blocks).zip blocks).flatMap fun block =>
    block.2.map fun entry => (block.1.offset, ByteKey.userPart entry.1)

theorem keyOffsets_append (platform : Platform) (options : TableBuilderOptions)
    (blocks : List (List (Bytes × Bytes))) (entries : List (Bytes × Bytes)) :
    keyOffsets platform options (blocks ++ [entries]) = keyOffsets platform options blocks ++
      entries.map fun entry => ((bytesOf platform (dataBlocks platform options blocks)).length,
        ByteKey.userPart entry.1) := by
  rw [keyOffsets, dataHandles_append, List.zip_append (length_dataHandles platform options blocks),
    List.flatMap_append]
  exact congrArg (_ ++ ·) (List.append_nil _)

/-- The keys of the blocks are in the ranges of their blocks, and the current range is the one of the
next block. -/
structure Filtered (s : Setting) (builder : TableBuilder) (blocks : List (List (Bytes × Bytes))) :
    Prop where
  full : builder.fullFilter = none
  block : ∃ filterBlock ranges pending, builder.filterBlock = some filterBlock ∧
    filterBlock.Holds ranges pending ∧ ranges.length = builder.fileSize >>> filterRangeShift ∧
    ∀ p ∈ keyOffsets s.platform s.options blocks,
      FilterBlockBuilder.Located ranges pending (p.1 >>> filterRangeShift) p.2

/-! ## Adding -/

theorem Filtered.addFilterKey (h : Filtered s builder (blocks ++ [current]))
    (hwrote : Wrote s builder (bytesOf s.platform (dataBlocks s.platform s.options blocks)))
    (key value : Bytes) :
    (builder.addFilterKey key).Failed ∨ ∃ filterBlock,
      builder.addFilterKey key = { builder with filterBlock := some filterBlock } ∧
      Filtered s { builder with filterBlock := some filterBlock }
        (blocks ++ [current ++ [(key, value)]]) := by
  obtain ⟨hfull, filterBlock, ranges, pending, hblock, hholds, hlength, hlocated⟩ := h
  cases hadd : filterBlock.addKey (ByteKey.userPart key) with
  | error error =>
    have hcall : builder.addFilterKey key = builder.record (.error error) := by
      rw [TableBuilder.addFilterKey, hfull, hblock]
      dsimp only
      rw [hadd]
    rw [hcall]
    exact .inl failed_record
  | ok filterBlock' =>
    have hcall : builder.addFilterKey key = { builder with filterBlock := some filterBlock' } := by
      unfold TableBuilder.addFilterKey
      simp only [hfull, hblock, hadd]
    refine .inr ⟨filterBlock', hcall, hfull, filterBlock', ranges, _, rfl, hholds.addKey hadd, hlength,
      fun p hp => ?_⟩
    rw [keyOffsets_append, List.map_append, ← List.append_assoc, ← keyOffsets_append] at hp
    rcases List.mem_append.mp hp with hold | hnew
    · exact (hlocated p hold).add _
    · rw [List.map_singleton, List.mem_singleton] at hnew
      refine .inr ⟨?_, ?_⟩
      · rw [hnew, hlength, hwrote.fileSize]
      · rw [hnew]
        exact List.mem_append_right _ (List.mem_singleton.mpr rfl)

theorem Written.startFilterBlock (h : Written s builder blocks [] separators)
    (hfull : builder.fullFilter = none) {filterBlock : FilterBlockBuilder}
    (hblock : builder.filterBlock = some filterBlock) {ranges : List (List Bytes)}
    {pending : List Bytes} (hholds : filterBlock.Holds ranges pending)
    (hle : ranges.length ≤ builder.fileSize >>> filterRangeShift)
    (hlocated : ∀ p ∈ keyOffsets s.platform s.options blocks,
      FilterBlockBuilder.Located ranges pending (p.1 >>> filterRangeShift) p.2) :
    builder.startFilterBlock.Failed ∨ Written s builder.startFilterBlock blocks [] separators ∧
      Filtered s builder.startFilterBlock (blocks ++ [[]]) ∧
      builder.startFilterBlock.finished = builder.finished := by
  rw [TableBuilder.startFilterBlock, hblock]
  dsimp only
  cases hstart : filterBlock.startBlock builder.fileSize with
  | error error => exact .inl failed_record
  | ok filterBlock' =>
    obtain ⟨ranges', pending', hholds', hlength, hkept⟩ := hholds.startBlock hle hstart
    refine .inr ⟨{ h with wrote := { h.wrote with } },
      ⟨hfull, filterBlock', ranges', pending', rfl, hholds', hlength, ?_⟩, rfl⟩
    intro p hp
    rw [keyOffsets_append, List.map_nil, List.append_nil] at hp
    exact hkept (hlocated p hp)

theorem Filtered.writeDataBlock (h : Filtered s builder (blocks ++ [current]))
    (hwritten : Written s builder blocks current separators) (hcurrent : current ≠ []) :
    builder.writeDataBlock.Failed ∨
      Written s builder.writeDataBlock (blocks ++ [current]) [] separators ∧
      Filtered s builder.writeDataBlock (blocks ++ [current] ++ [[]]) ∧
      builder.writeDataBlock.finished = builder.finished := by
  obtain ⟨hfull, filterBlock, ranges, pending, hblock, hholds, hlength, hlocated⟩ := h
  refine (hwritten.writeDataBlock hcurrent).elim .inl ?_
  rintro ⟨written, hwrite, hnext, hblock', hfull', hfinished⟩
  have hle : ranges.length ≤ written.fileSize >>> filterRangeShift := by
    rw [hlength, hwritten.wrote.fileSize, hnext.wrote.fileSize, bytesOf_dataBlocks_append,
      List.length_append, Nat.shiftRight_eq_div_pow, Nat.shiftRight_eq_div_pow]
    exact Nat.div_le_div_right (Nat.le_add_right _ _)
  rw [hwrite, ← hfinished]
  exact hnext.startFilterBlock (hfull'.trans hfull) (hblock'.trans hblock) hholds hle hlocated

/-- A builder that was given `entries` and has met no error. -/
def Building (s : Setting) (builder : TableBuilder) (entries : List (Bytes × Bytes)) : Prop :=
  ∃ blocks current separators, Written s builder blocks current separators ∧
    Filtered s builder (blocks ++ [current]) ∧ blocks.flatten ++ current = entries

variable {entries : List (Bytes × Bytes)}

theorem Filtered.appendEntry (h : Filtered s builder (blocks ++ [current ++ [(key, value)]]))
    (hwritten : Written s builder blocks current separators) :
    let added := ((builder.finishPendingIndexEntry key).appendDataEntry key
      value).flushDataBlockIfNeeded
    added.Failed ∨ Building s added (blocks.flatten ++ current ++ [(key, value)]) ∧
      added.finished = builder.finished := by
  obtain ⟨separators', hlength, hindexed⟩ := hwritten.indexPending
    (InternalKeyComparator.findShortestSeparator builder.comparator builder.lastKey key)
  have hadded := hindexed.appendDataEntry hlength key value
  have hkept : Filtered s ((builder.finishPendingIndexEntry key).appendDataEntry key value)
        (blocks ++ [current ++ [(key, value)]]) ∧
      ((builder.finishPendingIndexEntry key).appendDataEntry key value).finished = builder.finished := by
    rw [finishPendingIndexEntry]
    split
    · exact ⟨⟨h.full, h.block⟩, rfl⟩
    · exact ⟨⟨h.full, h.block⟩, rfl⟩
  dsimp only
  rw [flushDataBlockIfNeeded]
  split
  · refine (hkept.1.writeDataBlock hadded (List.concat_ne_nil _ _)).imp_right ?_
    rintro ⟨hwritten, hfiltered, hfinished⟩
    refine ⟨⟨_, [], _, hwritten, hfiltered, ?_⟩, hfinished.trans hkept.2⟩
    rw [List.flatten_append, List.flatten_singleton, List.append_nil, List.append_assoc]
  · exact .inr ⟨⟨_, _, _, hadded, hkept.1, (List.append_assoc _ _ _).symm⟩, hkept.2⟩

theorem Building.addValid (h : Building s builder entries) (key value : Bytes) :
    (builder.addValid key value).Failed ∨
      Building s (builder.addValid key value) (entries ++ [(key, value)]) ∧
      (builder.addValid key value).finished = builder.finished := by
  obtain ⟨blocks, current, separators, hwritten, hfiltered, rfl⟩ := h
  rw [TableBuilder.addValid]
  rcases hfiltered.addFilterKey hwritten.wrote key value with hfailed | ⟨filterBlock, hadd, hfiltered⟩
  · rw [if_pos (show (builder.addFilterKey key).firstError.isSome = true from hfailed)]
    exact .inl hfailed
  · rw [hadd, if_neg hwritten.wrote.not_failed]
    exact hfiltered.appendEntry { hwritten with wrote := { hwritten.wrote with } }

theorem Failed.call (h : builder.Failed) (c : AddCall) : builder.call c = builder := by
  rw [TableBuilder.call, addTrusted, add]
  split
  all_goals
    split
    · rfl
    · rw [if_pos (show builder.firstError.isSome = true from h)]

theorem Building.call (h : Building s builder entries) (hfinished : builder.finished = false)
    (c : AddCall) :
    (builder.call c).Failed ∨ Building s (builder.call c) (entries ++ [(c.key, c.value)]) ∧
      (builder.call c).finished = false := by
  have hnot : ¬builder.firstError.isSome = true := by
    obtain ⟨_, _, _, hwritten, _⟩ := h
    exact hwritten.wrote.not_failed
  have hadded := h.addValid c.key c.value
  rw [hfinished] at hadded
  rw [TableBuilder.call, addTrusted, add, hfinished, if_neg Bool.false_ne_true,
    if_neg Bool.false_ne_true, if_neg hnot, if_neg hnot]
  split
  · exact hadded
  · dsimp only
    split
    · exact .inl failed_record
    · split
      · exact .inl failed_record
      · exact hadded

theorem Failed.addAll (h : builder.Failed) (calls : List AddCall) : (builder.addAll calls).Failed := by
  induction calls with
  | nil => exact h
  | cons c calls ih =>
    rw [TableBuilder.addAll, List.foldl_cons, h.call]
    exact ih

theorem Building.addAll (calls : List AddCall) : ∀ {builder : TableBuilder}
    {entries : List (Bytes × Bytes)}, Building s builder entries → builder.finished = false →
    (builder.addAll calls).Failed ∨
      Building s (builder.addAll calls) (entries ++ calls.map fun c => (c.key, c.value)) ∧
      (builder.addAll calls).finished = false := by
  induction calls with
  | nil =>
    intro builder entries h hfinished
    rw [List.map_nil, List.append_nil]
    exact .inr ⟨h, hfinished⟩
  | cons c calls ih =>
    intro builder entries h hfinished
    rw [TableBuilder.addAll, List.foldl_cons]
    rcases h.call hfinished c with hfailed | ⟨hadded, hfinished⟩
    · exact .inl (hfailed.addAll calls)
    · have hrest := ih hadded hfinished
      rw [List.append_assoc] at hrest
      exact hrest

theorem setFilter_blockBased {policy : BloomFilterPolicy}
    (hpolicy : builder.options.filterPolicy = some policy)
    (hlayout : builder.options.filterLayout = .blockBased) :
    builder.setFilter = { builder with
      filterBlock := some { policy }
      filterKey := filterMetaindexKey } := by
  rw [setFilter, hpolicy, hlayout]
  rfl

theorem building_create (platform : Platform) (outcome : Nat → Option (Error × Nat))
    (comparator : KeyComparator) {options : TableBuilderOptions} {policy : BloomFilterPolicy}
    (hpolicy : options.filterPolicy = some policy) (hlayout : options.filterLayout = .blockBased) :
    (create platform (some { outcome }) comparator options).Failed ∨
      Building ⟨platform, comparator, options, filterMetaindexKey⟩
        (create platform (some { outcome }) comparator options) [] ∧
      (create platform (some { outcome }) comparator options).finished = false := by
  rw [create]
  cases validateCompressionOptions options.compression options.zstdCompressionLevel with
  | error error =>
    rw [setFilter_blockBased hpolicy hlayout]
    exact .inl rfl
  | ok _ =>
    rw [record, setFilter_blockBased hpolicy hlayout]
    refine .inr ⟨⟨[], [], [], ⟨⟨rfl, rfl, ⟨_, rfl, rfl⟩, rfl⟩, rfl, rfl, rfl,
      fun hpending => absurd hpending Bool.false_ne_true⟩, ⟨rfl, _, [], [], rfl,
      FilterBlockBuilder.holds_create policy, (Nat.zero_shiftRight _).symm, ?_⟩, rfl⟩, rfl⟩
    intro p hp
    rw [keyOffsets_append] at hp
    cases hp

/-! ## Finishing -/

theorem Building.writeTail (h : Building s builder entries) :
    builder.writeTail.Failed ∨ ∃ flushed blocks separators, builder.writeTail = flushed.writeTail ∧
      Written s flushed blocks [] separators ∧ Filtered s flushed (blocks ++ [[]]) ∧
      blocks.flatten = entries := by
  obtain ⟨blocks, current, separators, hwritten, hfiltered, rfl⟩ := h
  by_cases hcurrent : current = []
  · subst hcurrent
    exact .inr ⟨builder, blocks, separators, rfl, hwritten, hfiltered, (List.append_nil _).symm⟩
  · have hpositive : ¬builder.dataBlock.entriesSinceRestart = 0 := by
      rw [hwritten.data, entriesSinceRestart_eq_zero]
      exact hcurrent
    rw [writeTail_eq hpositive]
    rcases hfiltered.writeDataBlock hwritten hcurrent with hfailed | ⟨hwritten, hfiltered, _⟩
    · exact .inl (hfailed.writeTail (congrArg _ (dataBlock_startFilterBlock _)))
    · refine .inr ⟨_, _, separators, rfl, hwritten, hfiltered, ?_⟩
      rw [List.flatten_append, List.flatten_singleton]

/-- The reader accepts the filter block, and finds every key under the offset of its block. -/
theorem Filtered.finishFilter (h : Filtered s builder (blocks ++ [[]])) :
    ∃ payload reader, builder.finishFilter = some payload ∧
      FilterBlockReader.create payload = .ok reader ∧
      ∀ p ∈ keyOffsets s.platform s.options blocks, reader.keyMayMatch p.1 p.2 = true := by
  obtain ⟨hfull, filterBlock, ranges, pending, hblock, hholds, _, hlocated⟩ := h
  obtain ⟨ranges', hfinish, hsmall, hfound⟩ := hholds.finish
  refine ⟨_, _, ?_, FilterBlockReader.create_ofRanges hsmall, fun p hp => ?_⟩
  · rw [TableBuilder.finishFilter, hfull, hblock, ← hfinish]
  · rw [keyOffsets_append, List.map_nil, List.append_nil] at hlocated
    obtain ⟨keys, hkeys, hkey⟩ := hfound (hlocated p hp)
    exact FilterBlockReader.keyMayMatch_ofRanges hsmall hkeys hkey

theorem Building.finish (h : Building s builder entries) (hok : builder.finish.1 = .ok ()) :
    ∃ blocks separators payload reader file, builder.finish.2.file = some file ∧
      file.contents =
        tableBytes s.platform s.options s.filterKey blocks (some payload) separators ∧
      separators.length = blocks.length ∧ blocks.flatten = entries ∧
      FilterBlockReader.create payload = .ok reader ∧
      ∀ p ∈ keyOffsets s.platform s.options blocks, reader.keyMayMatch p.1 p.2 = true := by
  obtain ⟨_, htail, hfile⟩ := finish_ok hok
  have hbuilding : Building s { builder with finished := true } entries := by
    obtain ⟨blocks, current, separators, hwritten, hfiltered, hentries⟩ := h
    exact ⟨blocks, current, separators, { hwritten with wrote := { hwritten.wrote with } },
      { hfiltered with }, hentries⟩
  obtain ⟨flushed, blocks, separators, heq, hwritten, hfiltered, hentries⟩ :=
    hbuilding.writeTail.resolve_left htail
  rw [heq] at htail hfile
  obtain ⟨separators', file, hlength, hflushed, hcontents⟩ := hwritten.writeTail.resolve_left htail
  obtain ⟨file', hfile', hcontents'⟩ := hfile file hflushed
  obtain ⟨payload, reader, hpayload, hreader, hmatches⟩ := hfiltered.finishFilter
  rw [hpayload] at hcontents
  exact ⟨blocks, separators', payload, reader, file', hfile', hcontents'.trans hcontents, hlength,
    hentries, hreader, hmatches⟩

/-- In a table that was finished without an error, the filter block accepts every user key under the
offset of the data block that holds it. -/
theorem blockFilter_matches (platform : Platform) (outcome : Nat → Option (Error × Nat))
    (comparator : KeyComparator) (options : TableBuilderOptions) (policy : BloomFilterPolicy)
    (hpolicy : options.filterPolicy = some policy) (hlayout : options.filterLayout = .blockBased)
    (calls : List AddCall)
    (hfinish : ((create platform (some { outcome }) comparator
      options).addAll calls).finish.1 = .ok ()) :
    ∃ blocks separators payload reader file,
      ((create platform (some { outcome }) comparator
        options).addAll calls).finish.2.file = some file ∧
      file.contents = tableBytes platform options filterMetaindexKey blocks (some payload) separators ∧
      separators.length = blocks.length ∧
      blocks.flatten = calls.map (fun c => (c.key, c.value)) ∧
      FilterBlockReader.create payload = .ok reader ∧
      ∀ block ∈ (dataHandles platform options blocks).zip blocks, ∀ entry ∈ block.2,
        reader.keyMayMatch block.1.offset (ByteKey.userPart entry.1) = true := by
  have hcreated := building_create platform outcome comparator hpolicy hlayout
  generalize create platform (some { outcome }) comparator options = builder at *
  have hnot := (finish_ok hfinish).1
  replace hcreated := hcreated.resolve_left fun hfailed => hnot (hfailed.addAll calls)
  have hbuilding := (hcreated.1.addAll calls hcreated.2).resolve_left hnot
  obtain ⟨blocks, separators, payload, reader, file, hfile, hcontents, hlength, hentries, hreader,
    hmatches⟩ := hbuilding.1.finish hfinish
  exact ⟨blocks, separators, payload, reader, file, hfile, hcontents, hlength, hentries, hreader,
    fun block hblock entry hentry => hmatches (block.1.offset, ByteKey.userPart entry.1)
      (List.mem_flatMap.mpr ⟨block, hblock, List.mem_map.mpr ⟨entry, hentry, rfl⟩⟩)⟩

/-- Blocks of one key each, with a filter of ten bits for every key. -/
def filteredOptions : TableBuilderOptions := { blockSize := 1, filterPolicy := some ⟨10⟩ }

def filteredCalls : List AddCall :=
  [⟨false, [97] ++ encodeFixed 8 257, [1]⟩, ⟨true, [98] ++ encodeFixed 8 513, [2]⟩]

def filteredTable : TableBuilder :=
  (create plainPlatform (some { outcome := fun _ => none })
    ⟨Bytewise.compareKeys, fun start _ => start, id⟩ filteredOptions).addAll filteredCalls

theorem blockFilter_matches_two :
    filteredTable.finish.1 = .ok () ∧ ∃ blocks separators payload reader file,
      filteredTable.finish.2.file = some file ∧
      file.contents = tableBytes plainPlatform filteredOptions filterMetaindexKey blocks (some payload)
        separators ∧
      blocks.flatten = [([97] ++ encodeFixed 8 257, [1]), ([98] ++ encodeFixed 8 513, [2])] ∧
      FilterBlockReader.create payload = .ok reader ∧
      ∀ block ∈ (dataHandles plainPlatform filteredOptions blocks).zip blocks, ∀ entry ∈ block.2,
        reader.keyMayMatch block.1.offset (ByteKey.userPart entry.1) = true := by
  have hfinish : filteredTable.finish.1 = .ok () := by decide +kernel
  obtain ⟨blocks, separators, payload, reader, file, hfile, hcontents, _, hentries, hreader, hmatches⟩ :=
    blockFilter_matches plainPlatform (fun _ => none) ⟨Bytewise.compareKeys, fun start _ => start, id⟩
      filteredOptions ⟨10⟩ rfl rfl filteredCalls hfinish
  exact ⟨hfinish, blocks, separators, payload, reader, file, hfile, hcontents, hentries, hreader,
    hmatches⟩

end TableBuilder

end ModernLevelDB
