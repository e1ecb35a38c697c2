import ModernLevelDB.Engine.CompactionPicker

/-! # What the picker guarantees about the inputs of a compaction

The inputs of the source level are closed under overlap (level 0) or form a segment of the level
whose right edge shares its user key with no file left behind (deeper levels); so do those of the next
level, which include every file there that overlaps a source input. All inputs together are connected
by overlaps, so that their ranges leave no gap. -/
namespace ModernLevelDB
set_option autoImplicit false

variable {K : Type*} [LinearOrder K]

/-- The user keys of the files leave no gap. -/
def Connected (files : Set (TableFile K)) : Prop :=
  Overlap.Connected (fun file : TableFile K => file.smallest.userKey)
    (fun file => file.largest.userKey) files

/-- Every file outside the selection is before all of it, or after all of it at a larger user key. -/
def SegmentClosed (levelFiles files : List (TableFile K)) : Prop :=
  ∀ g ∈ levelFiles, g ∉ files →
    (∀ f ∈ files, g.largest < f.smallest) ∨
      ∀ f ∈ files, f.largest.userKey < g.smallest.userKey

/-- Every other file of the level is before all of `files` or after all of them. -/
def Segment (levelFiles files : List (TableFile K)) : Prop :=
  ∀ g ∈ levelFiles, g ∉ files →
    (∀ f ∈ files, g.largest < f.smallest) ∨ ∀ f ∈ files, f.largest < g.smallest

/-- The inputs of the source level: at level 0 with every file that meets one, below it a segment.
-/
structure SourceClosed (version : Levels K) (level : SourceLevel) (inputs : List (TableFile K)) :
    Prop where
  inputs_mem : ∀ f ∈ inputs, f ∈ version.files level.level
  inputs_nodup : inputs.Nodup
  zero : level = 0 → ∀ f ∈ inputs, ∀ g ∈ version.files level.level, f.Meets g → g ∈ inputs
  segment : level ≠ 0 → SegmentClosed (version.files level.level) inputs

/-- The inputs of the next level: a segment with every file that meets an input. -/
structure NextClosed (version : Levels K) (level : SourceLevel)
    (inputs nextInputs : List (TableFile K)) : Prop where
  next_mem : ∀ f ∈ nextInputs, f ∈ version.files level.next
  next_nodup : nextInputs.Nodup
  next_segment : SegmentClosed (version.files level.next) nextInputs
  next_meets : ∀ f ∈ inputs, ∀ g ∈ version.files level.next, f.Meets g → g ∈ nextInputs

/-- Closed at both levels, and together without a gap. -/
structure InputsClosed (version : Levels K) (level : SourceLevel)
    (inputs nextInputs : List (TableFile K)) : Prop
    extends SourceClosed version level inputs, NextClosed version level inputs nextInputs where
  nonempty : inputs ≠ []
  connected : Connected {f | f ∈ inputs ∨ f ∈ nextInputs}

/-- The inputs of the compaction are closed in its version. -/
def Compaction.Closed (c : Compaction K) : Prop :=
  InputsClosed c.version c.level c.inputs c.nextInputs

/-! ## Ranges -/

/-- The range from the least first key to the greatest last key of the files. -/
structure KeyRange.IsHull (range : KeyRange K) (files : List (TableFile K)) : Prop where
  smallest_le : ∀ f ∈ files, range.smallest ≤ f.smallest
  le_largest : ∀ f ∈ files, f.largest ≤ range.largest
  smallest_mem : ∃ f ∈ files, f.smallest = range.smallest
  largest_mem : ∃ f ∈ files, f.largest = range.largest

theorem KeyRange.isHull_singleton (f : TableFile K) :
    KeyRange.IsHull ⟨f.smallest, f.largest⟩ [f] where
  smallest_le := by simp
  le_largest := by simp
  smallest_mem := by simp
  largest_mem := by simp

variable {files : List (TableFile K)}

theorem KeyRange.IsHull.widen {range : KeyRange K} (h : range.IsHull files)
    (more : List (TableFile K)) :
    (range.widen more).IsHull (files ++ more) := by
  induction more generalizing range files with
  | nil => simpa [KeyRange.widen] using h
  | cons f more ih =>
    have hstep : KeyRange.IsHull
        { smallest := if f.smallest < range.smallest then f.smallest else range.smallest
          largest := if range.largest < f.largest then f.largest else range.largest }
        (files ++ [f]) := by
      rw [← min_def_lt, ← max_def_lt]
      refine ⟨List.forall_mem_append.mpr ⟨fun g hg => ?_, by simp⟩,
        List.forall_mem_append.mpr ⟨fun g hg => ?_, by simp⟩, ?_, ?_⟩
      · exact (min_le_right _ _).trans (h.smallest_le g hg)
      · exact (h.le_largest g hg).trans (le_max_left _ _)
      · obtain ⟨g, hg, hgs⟩ := h.smallest_mem
        rcases min_choice f.smallest range.smallest with hmin | hmin
        · exact ⟨f, by simp, hmin.symm⟩
        · exact ⟨g, by simp [hg], hgs.trans hmin.symm⟩
      · obtain ⟨g, hg, hgl⟩ := h.largest_mem
        rcases max_choice range.largest f.largest with hmax | hmax
        · exact ⟨g, by simp [hg], hgl.trans hmax.symm⟩
        · exact ⟨f, by simp, hmax.symm⟩
    have hrest := ih hstep
    rw [List.append_assoc] at hrest
    exact hrest

theorem rangeOf_isHull {range : KeyRange K} (h : rangeOf files = some range) :
    range.IsHull files := by
  cases files with
  | nil => cases h
  | cons f files =>
    cases h
    exact (KeyRange.isHull_singleton f).widen files

theorem exists_rangeOf (h : files ≠ []) : ∃ range, rangeOf files = some range := by
  cases files with
  | nil => exact absurd rfl h
  | cons f files => exact ⟨_, rfl⟩

theorem KeyRange.IsHull.overlaps {range : KeyRange K} (h : range.IsHull files) {f g : TableFile K}
    (hf : f ∈ files) (hfg : f.Meets g) :
    range.userKeys.overlaps g = true := by
  refine UserKeyRange.overlaps_iff.mpr ⟨?_, ?_⟩
  · exact (InternalKey.userKey_mono (h.smallest_le f hf)).trans hfg.1
  · exact hfg.2.trans (InternalKey.userKey_mono (h.le_largest f hf))

/-! ## The closure of level 0 -/

variable {range : UserKeyRange K} {acc : List (TableFile K)}

theorem scanLevelZero_found {found : List (TableFile K)}
    (h : scanLevelZero range files acc = .inr found) :
    found = acc ++ files.filter range.overlaps ∧
      ∀ f ∈ files, range.overlaps f = true →
        range.smallest ≤ f.smallest.userKey ∧ f.largest.userKey ≤ range.largest := by
  fun_induction scanLevelZero range files acc with
  | case1 acc => cases h; simp
  | case2 f files acc hmiss ih =>
    obtain ⟨hfound, hinside⟩ := ih h
    have hmiss' : range.overlaps f = false := by simpa using hmiss
    refine ⟨by simpa [hmiss'] using hfound, ?_⟩
    intro g hg hover
    rcases List.mem_cons.mp hg with rfl | hg
    · rw [hmiss'] at hover
      cases hover
    · exact hinside g hg hover
  | case3 => cases h
  | case4 => cases h
  | case5 f files acc hmiss hleft hright ih =>
    obtain ⟨hfound, hinside⟩ := ih h
    have hover : range.overlaps f = true := by simpa using hmiss
    refine ⟨by simpa [hover] using hfound, ?_⟩
    intro g hg hg'
    rcases List.mem_cons.mp hg with rfl | hg
    · exact ⟨not_lt.mp hleft, not_lt.mp hright⟩
    · exact hinside g hg hg'

theorem scanLevelZero_restart {wider : UserKeyRange K}
    (h : scanLevelZero range files acc = .inl wider) :
    ∃ f ∈ files, range.overlaps f = true ∧
      (f.smallest.userKey < range.smallest ∧ wider = ⟨f.smallest.userKey, range.largest⟩ ∨
        range.largest < f.largest.userKey ∧ wider = ⟨range.smallest, f.largest.userKey⟩) := by
  fun_induction scanLevelZero range files acc with
  | case1 acc => cases h
  | case2 f files acc hmiss ih =>
    obtain ⟨g, hg, hrest⟩ := ih h
    exact ⟨g, by simp [hg], hrest⟩
  | case3 f files acc hmiss hleft =>
    cases h
    exact ⟨f, by simp, by simpa using hmiss, .inl ⟨hleft, rfl⟩⟩
  | case4 f files acc hmiss hleft hright =>
    cases h
    exact ⟨f, by simp, by simpa using hmiss, .inr ⟨hright, rfl⟩⟩
  | case5 f files acc hmiss hleft hright ih =>
    obtain ⟨g, hg, hrest⟩ := ih h
    exact ⟨g, by simp [hg], hrest⟩

/-- How many ends of files lie outside the range. A restart makes it smaller. -/
def outside (files : List (TableFile K)) (range : UserKeyRange K) : Nat :=
  files.countP (fun f => f.smallest.userKey < range.smallest) +
    files.countP (fun f => range.largest < f.largest.userKey)

theorem outside_le (files : List (TableFile K)) (range : UserKeyRange K) :
    outside files range ≤ 2 * files.length := by
  have hleft := List.countP_le_length (p := fun f : TableFile K =>
    decide (f.smallest.userKey < range.smallest)) (l := files)
  have hright := List.countP_le_length (p := fun f : TableFile K =>
    decide (range.largest < f.largest.userKey)) (l := files)
  unfold outside
  omega

theorem outside_restart {wider : UserKeyRange K}
    (h : scanLevelZero range files acc = .inl wider) :
    outside files wider < outside files range := by
  obtain ⟨f, hf, _, ⟨hlt, rfl⟩ | ⟨hlt, rfl⟩⟩ := scanLevelZero_restart h
  · refine Nat.add_lt_add_right (Partition.countP_lt_countP ?_ hf ?_ ?_) _
    · intro g _ hg
      simpa using (of_decide_eq_true hg).trans hlt
    · simp
    · simpa using hlt
  · refine Nat.add_lt_add_left (Partition.countP_lt_countP ?_ hf ?_ ?_) _
    · intro g _ hg
      simpa using hlt.trans (of_decide_eq_true hg)
    · simp
    · simpa using hlt

/-- What the loop over level 0 finds from `range`: the files that overlap a wider range, which they
do not leave; and nothing that does not hang together with the files the range came from. -/
structure ZeroClosure (files : List (TableFile K)) (range : UserKeyRange K)
    (found : List (TableFile K)) (wider : UserKeyRange K) : Prop where
  found_eq : found = files.filter wider.overlaps
  smallest_le : wider.smallest ≤ range.smallest
  le_largest : range.largest ≤ wider.largest
  inside : ∀ f ∈ files, wider.overlaps f = true →
    wider.smallest ≤ f.smallest.userKey ∧ f.largest.userKey ≤ wider.largest
  connected : ∀ I : Set (TableFile K), Connected I →
    (∃ a ∈ I, a.smallest.userKey = range.smallest) →
    (∃ a ∈ I, a.largest.userKey = range.largest) → Connected (I ∪ {f | f ∈ found})

theorem Connected.exists_meets {I : Set (TableFile K)} (h : Connected I) (range : UserKeyRange K)
    (hlo : ∃ a ∈ I, a.smallest.userKey = range.smallest)
    (hhi : ∃ a ∈ I, a.largest.userKey = range.largest) {f : TableFile K}
    (hf : f.smallest.userKey ≤ f.largest.userKey) (hover : range.overlaps f = true) :
    ∃ a ∈ I, a.Meets f := by
  obtain ⟨hsmallest, hlargest⟩ := UserKeyRange.overlaps_iff.mp hover
  obtain ⟨a, ha, hlo⟩ := hlo
  obtain ⟨b, hb, hhi⟩ := hhi
  exact Overlap.Connected.meets h hf ⟨a, ha, hlo ▸ hsmallest⟩ ⟨b, hb, hhi ▸ hlargest⟩

theorem closeLevelZero_ends (files : List (TableFile K)) (range : UserKeyRange K) :
    Loop.Ends (scanLevelZero · files []) range (closeLevelZero files range) := by
  refine Loop.ends_run (fun _ _ h => ?_) _ (Nat.lt_succ_of_le (outside_le files range))
  exact outside_restart h

/-- By induction over the restarts. -/
theorem exists_closure_of_ends (hfiles : ∀ f ∈ files, f.smallest.userKey ≤ f.largest.userKey)
    {found : List (TableFile K)} (h : Loop.Ends (scanLevelZero · files []) range found) :
    ∃ wider, ZeroClosure files range found wider := by
  induction h with
  | done hscan =>
    obtain ⟨rfl, hinside⟩ := scanLevelZero_found hscan
    refine ⟨_, rfl, le_rfl, le_rfl, hinside, fun I hI hlo hhi => ?_⟩
    refine Overlap.Connected.union hI (fun f hf => ?_)
    obtain ⟨hmem, hover⟩ := List.mem_filter.mp hf
    exact hI.exists_meets _ hlo hhi (hfiles f hmem) hover
  | @again range next found hscan _ ih =>
    obtain ⟨wider, hclosure⟩ := ih
    obtain ⟨f, hf, hover, hcase⟩ := scanLevelZero_restart hscan
    have hwiden : next.smallest ≤ range.smallest ∧ range.largest ≤ next.largest := by
      rcases hcase with ⟨hlt, rfl⟩ | ⟨hlt, rfl⟩
      · exact ⟨hlt.le, le_rfl⟩
      · exact ⟨le_rfl, hlt.le⟩
    have hfound : f ∈ found := by
      rw [hclosure.found_eq]
      obtain ⟨hlo, hhi⟩ := UserKeyRange.overlaps_iff.mp hover
      refine List.mem_filter.mpr ⟨hf, UserKeyRange.overlaps_iff.mpr ⟨?_, ?_⟩⟩
      · exact (hclosure.smallest_le.trans hwiden.1).trans hlo
      · exact hhi.trans (hwiden.2.trans hclosure.le_largest)
    refine ⟨wider, hclosure.found_eq, hclosure.smallest_le.trans hwiden.1,
      hwiden.2.trans hclosure.le_largest, hclosure.inside, fun I hI hlo hhi => ?_⟩
    obtain ⟨a, ha, hmeets⟩ := hI.exists_meets range hlo hhi (hfiles f hf) hover
    have hends : (∃ a ∈ insert f I, a.smallest.userKey = next.smallest) ∧
        ∃ a ∈ insert f I, a.largest.userKey = next.largest := by
      obtain ⟨b, hb, hlo⟩ := hlo
      obtain ⟨c, hc, hhi⟩ := hhi
      rcases hcase with ⟨_, rfl⟩ | ⟨_, rfl⟩
      · exact ⟨⟨f, .inl rfl, rfl⟩, c, .inr hc, hhi⟩
      · exact ⟨⟨b, .inr hb, hlo⟩, f, .inl rfl, rfl⟩
    have hconn := hclosure.connected (insert f I) (Overlap.Connected.insert hI ha hmeets)
      hends.1 hends.2
    rw [Set.insert_union, Set.insert_eq_of_mem (.inr hfound)] at hconn
    exact hconn

/-! ## Overlapping files -/

section Files

variable {version : Levels K} {level : Level} {range : KeyRange K}

variable {f : TableFile K}

section

variable (hv : version.Listed compare)

include hv

theorem Version.Listed.userKey_le (hf : f ∈ version.files level) :
    f.smallest.userKey ≤ f.largest.userKey :=
  InternalKey.userKey_mono (hv.le hf)

theorem Version.Listed.nodup (level : Level) :
    (version.files level).Nodup :=
  (hv.pairwise_number level).imp (fun hne he => hne (by rw [he]))

theorem exists_zeroClosure (range : KeyRange K) :
    ∃ wider, ZeroClosure (version.files 0) range.userKeys (overlappingFiles version 0 range)
      wider := by
  have hoverlapping : overlappingFiles version 0 range =
      closeLevelZero (version.files 0) range.userKeys := if_pos rfl
  rw [hoverlapping]
  exact exists_closure_of_ends (fun f hf => hv.userKey_le hf) (closeLevelZero_ends _ _)

/-- The result is always the files that overlap some range at least as wide. -/
theorem overlappingFiles_eq_filter (level : Level)
    (range : KeyRange K) :
    ∃ wider : UserKeyRange K, overlappingFiles version level range =
      (version.files level).filter wider.overlaps ∧ wider.smallest ≤ range.smallest.userKey ∧
        range.largest.userKey ≤ wider.largest := by
  by_cases hlevel : level = 0
  · subst hlevel
    obtain ⟨wider, hclosure⟩ := exists_zeroClosure hv range
    exact ⟨wider, hclosure.found_eq, hclosure.smallest_le, hclosure.le_largest⟩
  · exact ⟨range.userKeys, if_neg hlevel, le_rfl, le_rfl⟩

theorem overlappingFiles_subset
    (hf : f ∈ overlappingFiles version level range) : f ∈ version.files level := by
  obtain ⟨wider, heq, _⟩ := overlappingFiles_eq_filter hv level range
  rw [heq] at hf
  exact (List.mem_filter.mp hf).1

theorem mem_overlappingFiles (hf : f ∈ version.files level)
    (hover : range.userKeys.overlaps f = true) :
    f ∈ overlappingFiles version level range := by
  obtain ⟨wider, heq, hsmallest, hlargest⟩ := overlappingFiles_eq_filter hv level range
  obtain ⟨hlo, hhi⟩ := UserKeyRange.overlaps_iff.mp hover
  rw [heq]
  exact List.mem_filter.mpr ⟨hf,
    UserKeyRange.overlaps_iff.mpr ⟨hsmallest.trans hlo, hhi.trans hlargest⟩⟩

theorem overlappingFiles_nodup (level : Level) (range : KeyRange K) :
    (overlappingFiles version level range).Nodup := by
  obtain ⟨wider, heq, _⟩ := overlappingFiles_eq_filter hv level range
  rw [heq]
  exact (hv.nodup level).filter _

theorem overlappingFiles_connected (level : Level)
    (range : KeyRange K) {I : Set (TableFile K)} (hI : Connected I)
    (hlo : ∃ a ∈ I, a.smallest = range.smallest)
    (hhi : ∃ a ∈ I, a.largest = range.largest) :
    Connected (I ∪ {f | f ∈ overlappingFiles version level range}) := by
  have hlo' : ∃ a ∈ I, a.smallest.userKey = range.userKeys.smallest := by
    obtain ⟨a, ha, h⟩ := hlo
    exact ⟨a, ha, by rw [h]; rfl⟩
  have hhi' : ∃ a ∈ I, a.largest.userKey = range.userKeys.largest := by
    obtain ⟨a, ha, h⟩ := hhi
    exact ⟨a, ha, by rw [h]; rfl⟩
  by_cases hlevel : level = 0
  · subst hlevel
    obtain ⟨wider, hclosure⟩ := exists_zeroClosure hv range
    exact hclosure.connected I hI hlo' hhi'
  · refine Overlap.Connected.union hI (fun f hf => ?_)
    have heq : overlappingFiles version level range =
        (version.files level).filter range.userKeys.overlaps := if_neg hlevel
    have hf' : f ∈ overlappingFiles version level range := hf
    rw [heq] at hf'
    obtain ⟨hmem, hover⟩ := List.mem_filter.mp hf'
    exact hI.exists_meets range.userKeys hlo' hhi' (hv.userKey_le hmem) hover

/-- Level 0 is closed under overlap. -/
theorem overlappingFiles_zero {g : TableFile K}
    (hf : f ∈ overlappingFiles version 0 range) (hg : g ∈ version.files 0) (hfg : f.Meets g) :
    g ∈ overlappingFiles version 0 range := by
  obtain ⟨wider, hclosure⟩ := exists_zeroClosure hv range
  rw [hclosure.found_eq] at hf ⊢
  obtain ⟨hmem, hover⟩ := List.mem_filter.mp hf
  obtain ⟨hlo, hhi⟩ := hclosure.inside f hmem hover
  exact List.mem_filter.mpr ⟨hg,
    UserKeyRange.overlaps_iff.mpr ⟨hlo.trans hfg.1, hfg.2.trans hhi⟩⟩

end

theorem Version.Valid.before_or_after (hv : version.Valid compare) (hlevel : level ≠ 0)
    {g : TableFile K} (hf : f ∈ version.files level) (hg : g ∈ version.files level) (hne : g ≠ f) :
    g.largest < f.smallest ∨ f.largest < g.smallest := by
  have hpair : (version.files level).Pairwise
      (fun f g => g.largest < f.smallest ∨ f.largest < g.smallest) :=
    (hv.disjoint_lt hlevel).imp .inr
  have : Std.Symm (fun f g : TableFile K => g.largest < f.smallest ∨ f.largest < g.smallest) :=
    ⟨fun _ _ h => h.symm⟩
  exact hpair.forall hf hg hne.symm

theorem overlappingFiles_segment (hv : version.Valid compare) (hlevel : level ≠ 0) :
    Segment (version.files level) (overlappingFiles version level range) := by
  intro g hg hnot
  have heq : overlappingFiles version level range =
      (version.files level).filter range.userKeys.overlaps := if_neg hlevel
  have hmiss : ¬ (range.userKeys.smallest ≤ g.largest.userKey ∧
      g.smallest.userKey ≤ range.userKeys.largest) := by
    intro hover
    exact hnot (mem_overlappingFiles hv.toListed hg (UserKeyRange.overlaps_iff.mpr hover))
  have hother : ∀ f ∈ overlappingFiles version level range,
      range.userKeys.smallest ≤ f.largest.userKey ∧
        f.smallest.userKey ≤ range.userKeys.largest ∧
        (g.largest < f.smallest ∨ f.largest < g.smallest) := by
    intro f hf
    have hne : g ≠ f := fun h => hnot (h ▸ hf)
    have hmem := overlappingFiles_subset hv.toListed hf
    rw [heq] at hf
    obtain ⟨hlo, hhi⟩ := UserKeyRange.overlaps_iff.mp (List.mem_filter.mp hf).2
    exact ⟨hlo, hhi, hv.before_or_after hlevel hmem hg hne⟩
  rcases not_and_or.mp hmiss with hleft | hright
  · left
    intro f hf
    obtain ⟨hlo, _, hbefore | hafter⟩ := hother f hf
    · exact hbefore
    · have hle := InternalKey.userKey_mono (hafter.le.trans (hv.toListed.le hg))
      exact absurd (hlo.trans hle) hleft
  · right
    intro f hf
    obtain ⟨_, hhi, hbefore | hafter⟩ := hother f hf
    · have hle := InternalKey.userKey_mono ((hv.toListed.le hg).trans hbefore.le)
      exact absurd (hle.trans hhi) hright
    · exact hafter

end Files

/-! ## Boundary files -/

section Boundary

variable {levelFiles : List (TableFile K)}

/-- The right edge of a selection. -/
structure IsLargest (files : List (TableFile K)) (largest : InternalKey K) : Prop where
  le : ∀ f ∈ files, f.largest ≤ largest
  mem : ∃ f ∈ files, f.largest = largest

/-- The first file of the level behind the edge. -/
structure NextFile (levelFiles : List (TableFile K)) (largest : InternalKey K)
    (next : TableFile K) : Prop where
  mem : next ∈ levelFiles
  after : largest < next.smallest
  first : ∀ g ∈ levelFiles, largest < g.smallest → g = next ∨ next.smallest ≤ g.smallest

variable {largest : InternalKey K}

theorem nextFile_of_dropWhile (hsorted : levelFiles.Pairwise (fun f g => f.smallest ≤ g.smallest))
    {next : TableFile K} {rest : List (TableFile K)}
    (h : levelFiles.dropWhile (fun file => file.smallest ≤ largest) = next :: rest) :
    NextFile levelFiles largest next := by
  have hsub : (next :: rest).Sublist levelFiles := by
    rw [← h]
    exact List.dropWhile_sublist _
  refine ⟨hsub.subset (by simp), ?_, fun g hg hlt => ?_⟩
  · have hnot := List.head?_dropWhile_not
      (fun file : TableFile K => decide (file.smallest ≤ largest)) levelFiles
    rw [h] at hnot
    simpa using hnot
  · have hmem : g ∈ levelFiles.dropWhile (fun file => file.smallest ≤ largest) :=
      Partition.mem_dropWhile_of_not hg (by simpa using hlt)
    rw [h] at hmem
    rcases List.mem_cons.mp hmem with rfl | hlater
    · exact .inl rfl
    · exact .inr (List.rel_of_pairwise_cons (hsorted.sublist hsub) hlater)

theorem not_lt_of_dropWhile_nil
    (h : levelFiles.dropWhile (fun file => file.smallest ≤ largest) = []) {g : TableFile K}
    (hg : g ∈ levelFiles) : ¬ largest < g.smallest := by
  intro hlt
  have hmem : g ∈ levelFiles.dropWhile (fun file => file.smallest ≤ largest) :=
    Partition.mem_dropWhile_of_not hg (by simpa using hlt)
  rw [h] at hmem
  simp at hmem

section

variable (hsorted : levelFiles.Pairwise (fun f g => f.smallest ≤ g.smallest))
  (hranges : ∀ f ∈ levelFiles, f.smallest ≤ f.largest) {P : List (TableFile K) → Prop}
  (hstep : ∀ files largest next, P files → IsLargest files largest →
    NextFile levelFiles largest next → next.smallest.userKey = largest.userKey →
    P (files ++ [next])) {files : List (TableFile K)}

include hsorted hranges hstep

/-- `P` is kept by a boundary file, and at the end no file after the right edge has its user key. -/
theorem boundaryRound_keeps : Loop.Keeps (boundaryRound levelFiles)
    (fun s => levelFiles.countP (fun g => s.1 < g.smallest)) (fun s => IsLargest s.2 s.1 ∧ P s.2)
    (fun files => P files ∧ ∃ edge, IsLargest files edge ∧
      ∀ g ∈ levelFiles, edge < g.smallest → edge.userKey < g.smallest.userKey) := by
  rintro ⟨largest, files⟩ ⟨hlargest, hP⟩
  unfold boundaryRound
  dsimp only at hlargest hP ⊢
  cases hdrop : levelFiles.dropWhile (fun file => file.smallest ≤ largest) with
  | nil =>
    exact .inr ⟨files, rfl, hP, largest, hlargest,
      fun g hg hlt => absurd hlt (not_lt_of_dropWhile_nil hdrop hg)⟩
  | cons next rest =>
    have hnext := nextFile_of_dropWhile hsorted hdrop
    dsimp only
    split
    · next huser =>
      have hless : largest < next.largest := hnext.after.trans_le (hranges next hnext.mem)
      have hle : ∀ f ∈ files ++ [next], f.largest ≤ next.largest :=
        List.forall_mem_append.mpr
          ⟨fun f hf => (hlargest.le f hf).trans hless.le, List.forall_mem_singleton.mpr le_rfl⟩
      refine .inl ⟨_, rfl, ⟨⟨hle, next, by simp, rfl⟩,
        hstep files largest next hP hlargest hnext huser⟩, ?_⟩
      -- The file that was added no longer starts after the edge.
      refine Partition.countP_lt_countP (fun g _ hg => ?_) hnext.mem ?_ ?_
      · simpa using hless.trans (of_decide_eq_true hg)
      · simpa using hranges next hnext.mem
      · simpa using hnext.after
    · next huser =>
      refine .inr ⟨files, rfl, hP, largest, hlargest, fun g hg hlt => ?_⟩
      have hedge : largest.userKey < next.smallest.userKey :=
        lt_of_le_of_ne (InternalKey.userKey_mono hnext.after.le) (fun h => huser h.symm)
      rcases hnext.first g hg hlt with rfl | hle
      · exact hedge
      · exact hedge.trans_le (InternalKey.userKey_mono hle)

theorem addBoundaryInputs_run {range : KeyRange K} (hrange : rangeOf files = some range)
    (hP : P files) :
    Loop.Ends (boundaryRound levelFiles) (range.largest, files) (addBoundaryInputs levelFiles files) ∧
      P (addBoundaryInputs levelFiles files) ∧
      ∃ edge, IsLargest (addBoundaryInputs levelFiles files) edge ∧
        ∀ g ∈ levelFiles, edge < g.smallest → edge.userKey < g.smallest.userKey := by
  have hhull := rangeOf_isHull hrange
  unfold addBoundaryInputs
  rw [hrange]
  exact (boundaryRound_keeps hsorted hranges hstep).run _
    ⟨⟨hhull.le_largest, hhull.largest_mem⟩, hP⟩ (Nat.lt_succ_of_le List.countP_le_length)

theorem addBoundaryInputs_induct (hne : files ≠ []) (hP : P files) :
    P (addBoundaryInputs levelFiles files) ∧
      ∃ edge, IsLargest (addBoundaryInputs levelFiles files) edge ∧
        ∀ g ∈ levelFiles, edge < g.smallest → edge.userKey < g.smallest.userKey := by
  obtain ⟨range, hrange⟩ := exists_rangeOf hne
  exact (addBoundaryInputs_run hsorted hranges hstep hrange hP).2

end

theorem addBoundaryInputs_nil : addBoundaryInputs levelFiles [] = [] := rfl

/-- What boundary files add to a selection: it stays connected and is the least that is closed. -/
structure Extends (levelFiles files extended : List (TableFile K)) : Prop where
  subset : ∀ f ∈ files, f ∈ extended
  mem : ∀ f ∈ extended, f ∈ levelFiles
  nodup : extended.Nodup
  connected : ∀ I : Set (TableFile K), Connected I → (∀ f ∈ files, f ∈ I) →
    Connected (I ∪ {f | f ∈ extended})
  least : ∀ closed : List (TableFile K), SegmentClosed levelFiles closed →
    (∀ f ∈ files, f ∈ closed) → ∀ f ∈ extended, f ∈ closed

theorem Extends.refl {files : List (TableFile K)} (hmem : ∀ f ∈ files, f ∈ levelFiles)
    (hnodup : files.Nodup) : Extends levelFiles files files where
  subset _ hf := hf
  mem := hmem
  nodup := hnodup
  connected I hI hsub := by
    have : I ∪ {f | f ∈ files} = I := Set.union_eq_self_of_subset_right hsub
    rw [this]
    exact hI
  least _ _ hsub := hsub

theorem Extends.next (hranges : ∀ f ∈ levelFiles, f.smallest ≤ f.largest)
    {files extended : List (TableFile K)} (h : Extends levelFiles files extended)
    {next : TableFile K} (hlargest : IsLargest extended largest)
    (hnext : NextFile levelFiles largest next) (huser : next.smallest.userKey = largest.userKey) :
    Extends levelFiles files (extended ++ [next]) := by
  obtain ⟨edge, hedge, rfl⟩ := hlargest.mem
  have hrange := hranges next hnext.mem
  have hedgeRange := hranges edge (h.mem edge hedge)
  refine ⟨fun f hf => by simp [h.subset f hf], ?_, ?_, ?_, ?_⟩
  · exact List.forall_mem_append.mpr ⟨h.mem, List.forall_mem_singleton.mpr hnext.mem⟩
  · refine List.nodup_append.mpr ⟨h.nodup, by simp, fun f hf g hg hfg => ?_⟩
    rw [List.mem_singleton.mp hg] at hfg
    subst hfg
    exact absurd ((hrange.trans (hlargest.le f hf)).trans_lt hnext.after) (lt_irrefl _)
  · intro I hI hsub
    have hmeets : edge.Meets next :=
      ⟨(InternalKey.userKey_mono hedgeRange).trans (huser ▸ InternalKey.userKey_mono hrange), huser.le⟩
    have hconn := Overlap.Connected.insert (h.connected I hI hsub) (.inr hedge) hmeets
    have hsame : I ∪ {f | f ∈ extended ++ [next]} = insert next (I ∪ {f | f ∈ extended}) := by
      ext f
      simp only [Set.mem_union, Set.mem_insert_iff, List.mem_append, List.mem_singleton,
        Set.mem_ofPred_eq]
      tauto
    rw [hsame]
    exact hconn
  · intro closed hclosed hsub
    have hin := h.least closed hclosed hsub
    refine List.forall_mem_append.mpr ⟨hin, List.forall_mem_singleton.mpr ?_⟩
    by_contra hnot
    rcases hclosed next hnext.mem hnot with hbefore | hafter
    · have := (hbefore edge (hin edge hedge)).trans_le hedgeRange
      exact absurd ((hrange.trans_lt this).trans hnext.after) (lt_irrefl _)
    · exact absurd huser.symm (hafter edge (hin edge hedge)).ne

variable {version : Levels K} {level : Level} {files : List (TableFile K)}

theorem Version.Listed.smallest_sorted (hv : version.Listed compare) (level : Level) :
    (version.files level).Pairwise (fun f g => f.smallest ≤ g.smallest) := by
  refine (hv.sorted level).imp (fun {f g} hfg => ?_)
  rw [fileBefore_iff, fileCompare, Ordering.then_eq_lt] at hfg
  rcases hfg with hlt | ⟨heq, _⟩
  · exact (compare_lt_iff_lt.mp hlt).le
  · exact (compare_eq_iff_eq.mp heq).le

theorem addBoundaryInputs_extends (hv : version.Listed compare)
    (hmem : ∀ f ∈ files, f ∈ version.files level) (hnodup : files.Nodup) :
    Extends (version.files level) files (addBoundaryInputs (version.files level) files) := by
  have hranges : ∀ f ∈ version.files level, f.smallest ≤ f.largest := fun f hf => hv.le hf
  by_cases hne : files = []
  · subst hne
    exact .refl hmem hnodup
  · refine (addBoundaryInputs_induct (hv.smallest_sorted level) hranges ?_ hne
      (Extends.refl hmem hnodup)).1
    exact fun _ _ _ hP hlargest hnext huser => hP.next hranges hlargest hnext huser

theorem Segment.next (hv : version.Valid compare) (hlevel : level ≠ 0)
    (h : Segment (version.files level) files) (hmem : ∀ f ∈ files, f ∈ version.files level)
    {next : TableFile K} (hlargest : IsLargest files largest)
    (hnext : NextFile (version.files level) largest next) :
    Segment (version.files level) (files ++ [next]) := by
  obtain ⟨edge, hedge, rfl⟩ := hlargest.mem
  intro g hg hnot
  have hnot' : g ∉ files ∧ g ≠ next := by simpa [not_or] using hnot
  have hcases : ∀ f ∈ files ++ [next], f ∈ files ∨ f = next := by simp
  rcases h g hg hnot'.1 with hbefore | hafter
  · left
    intro f hf
    rcases hcases f hf with hf | rfl
    · exact hbefore f hf
    · exact (hbefore edge hedge).trans_le ((hv.toListed.le (hmem edge hedge)).trans hnext.after.le)
  · right
    intro f hf
    rcases hcases f hf with hf | rfl
    · exact hafter f hf
    · rcases hnext.first g hg (hafter edge hedge) with heq | hle
      · exact absurd heq hnot'.2
      · rcases hv.before_or_after hlevel hnext.mem hg hnot'.2 with hbefore | hlater
        · exact absurd (((hv.toListed.le hg).trans_lt hbefore).trans_le hle) (lt_irrefl _)
        · exact hlater

/-- A segment of a sorted level gets a right edge that shares its user key with no file after it. -/
theorem addBoundaryInputs_segmentClosed (hv : version.Valid compare) (hlevel : level ≠ 0)
    (hmem : ∀ f ∈ files, f ∈ version.files level) (h : Segment (version.files level) files) :
    SegmentClosed (version.files level) (addBoundaryInputs (version.files level) files) := by
  by_cases hne : files = []
  · subst hne
    rw [addBoundaryInputs_nil]
    exact fun g _ _ => .inl (by simp)
  have hstep : ∀ files largest next,
      (Segment (version.files level) files ∧ ∀ f ∈ files, f ∈ version.files level) →
      IsLargest files largest → NextFile (version.files level) largest next →
      next.smallest.userKey = largest.userKey →
      Segment (version.files level) (files ++ [next]) ∧
        ∀ f ∈ files ++ [next], f ∈ version.files level := by
    rintro files largest next ⟨hsegment, hmem⟩ hlargest hnext _
    exact ⟨hsegment.next hv hlevel hmem hlargest hnext,
      List.forall_mem_append.mpr ⟨hmem, List.forall_mem_singleton.mpr hnext.mem⟩⟩
  obtain ⟨⟨hsegment, _⟩, edge, hedge, hlast⟩ := addBoundaryInputs_induct
    (hv.toListed.smallest_sorted level) (fun f hf => hv.toListed.le hf) hstep hne ⟨h, hmem⟩
  intro g hg hnot
  rcases hsegment g hg hnot with hbefore | hafter
  · exact .inl hbefore
  · right
    intro f hf
    obtain ⟨last, hmemLast, rfl⟩ := hedge.mem
    exact (InternalKey.userKey_mono (hedge.le f hf)).trans_lt (hlast g hg (hafter last hmemLast))

theorem addBoundaryInputs_zero (hv : version.Listed compare) (hmem : ∀ f ∈ files, f ∈ version.files 0)
    (hclosed : ∀ f ∈ files, ∀ g ∈ version.files 0, f.Meets g → g ∈ files) :
    addBoundaryInputs (version.files 0) files = files := by
  by_cases hne : files = []
  · subst hne
    rfl
  refine (addBoundaryInputs_induct (P := fun out => out = files) (hv.smallest_sorted 0)
    (fun f hf => hv.le hf) ?_ hne rfl).1
  rintro _ largest next rfl hlargest hnext huser
  obtain ⟨edge, hedge, rfl⟩ := hlargest.mem
  have hrange := hv.le hnext.mem
  have hmeets : edge.Meets next := by
    refine ⟨?_, huser.le⟩
    exact (hv.userKey_le (hmem edge hedge)).trans (huser ▸ InternalKey.userKey_mono hrange)
  have hin := hclosed edge hedge next hnext.mem hmeets
  exact absurd ((hrange.trans (hlargest.le next hin)).trans_lt hnext.after) (lt_irrefl _)

end Boundary

/-! ## The chosen inputs -/

section Choice

variable {version : Levels K} {level : SourceLevel}

/-- The files of a level that overlap a range, with their boundary files. -/
def selectInputs (version : Levels K) (level : Level) (range : KeyRange K) : List (TableFile K) :=
  addBoundaryInputs (version.files level) (overlappingFiles version level range)

theorem selectInputs_extends (hv : version.Listed compare) (level : Level) (range : KeyRange K) :
    Extends (version.files level) (overlappingFiles version level range)
      (selectInputs version level range) :=
  addBoundaryInputs_extends hv (fun _ hf => overlappingFiles_subset hv hf)
    (overlappingFiles_nodup hv level range)

theorem SourceLevel.level_eq_zero_iff {level : SourceLevel} : level.level = 0 ↔ level = 0 := by
  revert level
  decide

theorem SourceLevel.next_ne_zero (level : SourceLevel) : level.next ≠ 0 := by
  revert level
  decide

/-- Boundary files close a selection of the source level that is closed under overlap in level 0 and
a segment below it. -/
theorem sourceClosed_addBoundaryInputs (hv : version.Valid compare) {files : List (TableFile K)}
    (hmem : ∀ f ∈ files, f ∈ version.files level.level) (hnodup : files.Nodup)
    (hzero : level = 0 → ∀ f ∈ files, ∀ g ∈ version.files level.level, f.Meets g → g ∈ files)
    (hsegment : level ≠ 0 → Segment (version.files level.level) files) :
    SourceClosed version level (addBoundaryInputs (version.files level.level) files) := by
  have hextends := addBoundaryInputs_extends hv.toListed hmem hnodup
  refine ⟨hextends.mem, hextends.nodup, fun hl => ?_, fun hl => ?_⟩
  · subst hl
    have hsame : addBoundaryInputs (version.files (SourceLevel.level 0)) files = files :=
      addBoundaryInputs_zero hv.toListed hmem (hzero rfl)
    rw [hsame]
    exact hzero rfl
  · exact addBoundaryInputs_segmentClosed hv (fun h => hl (SourceLevel.level_eq_zero_iff.mp h)) hmem
      (hsegment hl)

theorem sourceClosed_overlappingFiles (hv : version.Valid compare) (range : KeyRange K) :
    SourceClosed version level (selectInputs version level.level range) := by
  refine sourceClosed_addBoundaryInputs hv (fun f hf => overlappingFiles_subset hv.toListed hf)
    (overlappingFiles_nodup hv.toListed _ _) (fun hl => ?_) (fun hl => ?_)
  · subst hl
    exact fun f hf g hg hfg => overlappingFiles_zero hv.toListed hf hg hfg
  · exact overlappingFiles_segment hv (fun h => hl (SourceLevel.level_eq_zero_iff.mp h))

variable {file : TableFile K}

theorem mem_closeInput (hv : version.Valid compare) (hfile : file ∈ version.files level.level) :
    file ∈ closeInput version level file := by
  unfold closeInput
  split
  · next hl =>
    subst hl
    refine mem_overlappingFiles hv.toListed hfile (UserKeyRange.overlaps_iff.mpr ?_)
    exact ⟨hv.toListed.userKey_le hfile, hv.toListed.userKey_le hfile⟩
  · simp

theorem sourceClosed_closeInput (hv : version.Valid compare)
    (hfile : file ∈ version.files level.level) :
    SourceClosed version level
      (addBoundaryInputs (version.files level.level) (closeInput version level file)) := by
  by_cases hl : level = 0
  · subst hl
    exact sourceClosed_overlappingFiles hv ⟨file.smallest, file.largest⟩
  · have hsingle : closeInput version level file = [file] := if_neg hl
    rw [hsingle]
    refine sourceClosed_addBoundaryInputs hv (by simpa using hfile) (by simp)
      (fun h => absurd h hl) (fun _ g hg hnot => ?_)
    have hne : g ≠ file := by simpa using hnot
    simpa using hv.before_or_after (fun h => hl (SourceLevel.level_eq_zero_iff.mp h)) hfile hg hne

theorem connected_closeInput (hv : version.Valid compare) (hfile : file ∈ version.files level.level) :
    Connected {f | f ∈ closeInput version level file} := by
  have hsingle : Connected ({file} : Set (TableFile K)) := Overlap.connected_singleton file
  by_cases hl : level = 0
  · subst hl
    have hconn := overlappingFiles_connected hv.toListed 0 ⟨file.smallest, file.largest⟩ hsingle
      ⟨file, rfl, rfl⟩ ⟨file, rfl, rfl⟩
    have hmem := mem_closeInput hv hfile
    have hsame : ({file} : Set (TableFile K)) ∪
        {f | f ∈ overlappingFiles version 0 ⟨file.smallest, file.largest⟩} =
        {f | f ∈ closeInput version 0 file} := by
      rw [Set.singleton_union]
      exact Set.insert_eq_of_mem hmem
    rw [hsame] at hconn
    exact hconn
  · have : {f | f ∈ closeInput version level file} = ({file} : Set (TableFile K)) := by
      unfold closeInput
      rw [if_neg hl]
      ext f
      simp
    rw [this]
    exact hsingle

variable {inputs : List (TableFile K)} {range : KeyRange K}

theorem nextClosed_overlappingFiles (hv : version.Valid compare) (hrange : range.IsHull inputs) :
    NextClosed version level inputs (selectInputs version level.next range) := by
  have hextends := selectInputs_extends hv.toListed level.next range
  refine ⟨hextends.mem, hextends.nodup, ?_, fun f hf g hg hfg => ?_⟩
  · exact addBoundaryInputs_segmentClosed hv level.next_ne_zero
      (fun f hf => overlappingFiles_subset hv.toListed hf)
      (overlappingFiles_segment hv level.next_ne_zero)
  · exact hextends.subset g (mem_overlappingFiles hv.toListed hg (hrange.overlaps hf hfg))

theorem connected_select (hv : version.Valid compare) {I : Set (TableFile K)} (hI : Connected I)
    (hlo : ∃ a ∈ I, a.smallest = range.smallest) (hhi : ∃ a ∈ I, a.largest = range.largest)
    (level : Level) :
    Connected (I ∪ {f | f ∈ selectInputs version level range}) := by
  have hextends := selectInputs_extends hv.toListed level range
  have hconn := hextends.connected _ (overlappingFiles_connected hv.toListed level range hI hlo hhi)
    (fun f hf => .inr hf)
  have hsub : {f | f ∈ overlappingFiles version level range} ⊆
      {f | f ∈ selectInputs version level range} := hextends.subset
  rw [Set.union_assoc, Set.union_eq_self_of_subset_left hsub] at hconn
  exact hconn

theorem mem_select_of_mem (hv : version.Valid compare) {inputs' nextInputs : List (TableFile K)}
    (hrange : range.IsHull inputs) (hsub : ∀ f ∈ inputs, f ∈ inputs')
    (hnext : NextClosed version level inputs' nextInputs) {f : TableFile K}
    (hconnected : Connected {f | f ∈ inputs}) (hf : f ∈ selectInputs version level.next range) :
    f ∈ nextInputs := by
  have hextends := selectInputs_extends hv.toListed level.next range
  refine hextends.least nextInputs hnext.next_segment (fun g hg => ?_) f hf
  -- A file that overlaps the hull overlaps an input.
  have hfilter : overlappingFiles version level.next range =
      (version.files level.next).filter range.userKeys.overlaps := if_neg level.next_ne_zero
  have hmem := overlappingFiles_subset hv.toListed hg
  rw [hfilter] at hg
  obtain ⟨lo, hlo, hloEq⟩ := hrange.smallest_mem
  obtain ⟨hi, hhi, hhiEq⟩ := hrange.largest_mem
  obtain ⟨a, ha, hmeets⟩ := hconnected.exists_meets range.userKeys
    ⟨lo, hlo, by rw [hloEq]; rfl⟩ ⟨hi, hhi, by rw [hhiEq]; rfl⟩
    (hv.toListed.userKey_le hmem) (List.mem_filter.mp hg).2
  exact hnext.next_meets a (hsub a ha) g hmem hmeets

theorem closedInputs_closed (hv : version.Valid compare) (hfile : file ∈ version.files level.level) :
    ∃ closed, closedInputs version level (closeInput version level file) = some closed ∧
      InputsClosed version level closed.inputs closed.nextInputs ∧
      closed.range.IsHull closed.inputs ∧ Connected {f | f ∈ closed.inputs} ∧
      closed.nextInputs = selectInputs version level.next closed.range := by
  let inputs := addBoundaryInputs (version.files level.level) (closeInput version level file)
  have hsource : SourceClosed version level inputs := sourceClosed_closeInput hv hfile
  have hextends : Extends (version.files level.level) (closeInput version level file) inputs := by
    refine addBoundaryInputs_extends hv.toListed (fun f hf => ?_) ?_
    · unfold closeInput at hf
      split at hf
      · next hl =>
        subst hl
        exact overlappingFiles_subset hv.toListed hf
      · rw [List.mem_singleton.mp hf]
        exact hfile
    · unfold closeInput
      split
      · exact overlappingFiles_nodup hv.toListed _ _
      · simp
  have hne : inputs ≠ [] := List.ne_nil_of_mem (hextends.subset file (mem_closeInput hv hfile))
  obtain ⟨range, hrange⟩ := exists_rangeOf hne
  have hhull := rangeOf_isHull hrange
  have hconn : Connected {f | f ∈ inputs} := by
    have h := hextends.connected _ (connected_closeInput hv hfile) (fun f hf => hf)
    have hsub : {f | f ∈ closeInput version level file} ⊆ {f | f ∈ inputs} := hextends.subset
    rw [Set.union_eq_self_of_subset_left hsub] at h
    exact h
  refine ⟨⟨inputs, _, range⟩, ?_, ⟨hsource, nextClosed_overlappingFiles hv hhull, hne, ?_⟩, hhull,
    hconn, rfl⟩
  · unfold closedInputs
    show (rangeOf inputs).map _ = _
    rw [hrange]
    rfl
  · exact connected_select hv hconn hhull.smallest_mem hhull.largest_mem level.next

variable {expansion : InputExpansion K}

theorem tryExpandInputs_eq_some {nextInputs : List (TableFile K)} {all : KeyRange K} {target : Nat}
    (h : tryExpandInputs version level inputs nextInputs all target = some expansion) :
    expansion.inputs = selectInputs version level.level all ∧
      rangeOf expansion.inputs = some expansion.range ∧
      expansion.nextInputs = selectInputs version level.next expansion.range ∧
      expansion.nextInputs.length = nextInputs.length := by
  unfold tryExpandInputs at h
  dsimp only at h
  split at h
  · cases h
  · split at h
    · split at h
      · cases h
      · next range hrange =>
        split at h
        · next hlength =>
          cases h
          exact ⟨rfl, hrange, rfl, hlength⟩
        · cases h
    · cases h

section Expand

variable (hv : version.Valid compare) {closed : InputExpansion K}
  (h : InputsClosed version level closed.inputs closed.nextInputs)
  (hrange : closed.range.IsHull closed.inputs) (hconn : Connected {f | f ∈ closed.inputs})
  (hnext : closed.nextInputs = selectInputs version level.next closed.range)
  (hinputs : expansion.inputs = selectInputs version level.level (closed.range.widen closed.nextInputs))
  (hrange' : expansion.range.IsHull expansion.inputs)
  (hnext' : expansion.nextInputs = selectInputs version level.next expansion.range)

include hv h hrange hconn hnext hinputs hrange' hnext'

theorem InputsClosed.expand_subset :
    (∀ f ∈ closed.inputs, f ∈ expansion.inputs) ∧
      ∀ f ∈ closed.nextInputs, f ∈ expansion.nextInputs := by
  have hall : (closed.range.widen closed.nextInputs).IsHull (closed.inputs ++ closed.nextInputs) :=
    hrange.widen _
  have hclosed : NextClosed version level expansion.inputs expansion.nextInputs := by
    rw [hnext']
    exact nextClosed_overlappingFiles hv hrange'
  -- Every source input overlaps the hull of all inputs.
  have hsub : ∀ f ∈ closed.inputs, f ∈ expansion.inputs := by
    intro f hf
    have hmem := h.inputs_mem f hf
    have hextends := selectInputs_extends hv.toListed level.level
      (closed.range.widen closed.nextInputs)
    rw [hinputs]
    refine hextends.subset f (mem_overlappingFiles hv.toListed hmem ?_)
    exact hall.overlaps (List.mem_append.mpr (.inl hf))
      (Overlap.meets_self (hv.toListed.userKey_le hmem))
  refine ⟨hsub, fun f hf => ?_⟩
  rw [hnext] at hf
  exact mem_select_of_mem hv hrange hsub hclosed hconn hf

theorem InputsClosed.expand :
    InputsClosed version level expansion.inputs expansion.nextInputs := by
  have hall : (closed.range.widen closed.nextInputs).IsHull (closed.inputs ++ closed.nextInputs) :=
    hrange.widen _
  have hsource : SourceClosed version level expansion.inputs := by
    rw [hinputs]
    exact sourceClosed_overlappingFiles hv _
  have hclosed : NextClosed version level expansion.inputs expansion.nextInputs := by
    rw [hnext']
    exact nextClosed_overlappingFiles hv hrange'
  obtain ⟨hsub, hsubNext⟩ := h.expand_subset hv hrange hconn hnext hinputs hrange' hnext'
  refine ⟨hsource, hclosed, ?_, ?_⟩
  · obtain ⟨f, hf⟩ := List.exists_mem_of_ne_nil _ h.nonempty
    exact List.ne_nil_of_mem (hsub f hf)
  · have hsame : {f | f ∈ expansion.inputs ∨ f ∈ expansion.nextInputs} =
        {f | f ∈ closed.inputs ∨ f ∈ closed.nextInputs} ∪ {f | f ∈ expansion.inputs} ∪
          {f | f ∈ expansion.nextInputs} := by
      ext f
      constructor
      · exact Or.imp_left .inr
      · rintro (((hf | hf) | hf) | hf)
        · exact .inl (hsub f hf)
        · exact .inr (hsubNext f hf)
        · exact .inl hf
        · exact .inr hf
    have hexpanded : Connected ({f | f ∈ closed.inputs ∨ f ∈ closed.nextInputs} ∪
        {f | f ∈ expansion.inputs}) := by
      rw [hinputs]
      refine connected_select hv h.connected ?_ ?_ level.level
      · obtain ⟨a, ha, heq⟩ := hall.smallest_mem
        exact ⟨a, List.mem_append.mp ha, heq⟩
      · obtain ⟨a, ha, heq⟩ := hall.largest_mem
        exact ⟨a, List.mem_append.mp ha, heq⟩
    rw [hsame, hnext']
    refine connected_select hv hexpanded ?_ ?_ level.next
    · obtain ⟨a, ha, heq⟩ := hrange'.smallest_mem
      exact ⟨a, .inr ha, heq⟩
    · obtain ⟨a, ha, heq⟩ := hrange'.largest_mem
      exact ⟨a, .inr ha, heq⟩

end Expand

/-- From a live file of the level, the picker sets up closed inputs. -/
theorem setupInputs_closed (hv : version.Valid compare) (hfile : file ∈ version.files level.level)
    (target : Nat) :
    ∃ c, setupInputs version level (closeInput version level file) target = some c ∧
      c.level = level ∧ c.version = version ∧ c.Closed := by
  obtain ⟨closed, heq, hclosed, hrange, hconn, hnext⟩ := closedInputs_closed hv hfile
  refine ⟨_, by unfold setupInputs; rw [heq]; rfl, rfl, rfl, ?_⟩
  show InputsClosed version level (applyExpandedInputs version level closed target).inputs
    (applyExpandedInputs version level closed target).nextInputs
  unfold applyExpandedInputs
  cases hexpand : tryExpandInputs version level closed.inputs closed.nextInputs
      (closed.range.widen closed.nextInputs) target with
  | none => exact hclosed
  | some expansion =>
    obtain ⟨hinputs, hrange', hnext', _⟩ := tryExpandInputs_eq_some hexpand
    exact hclosed.expand hv hrange hconn hnext hinputs (rangeOf_isHull hrange') hnext'

/-! ## The choice -/

omit [LinearOrder K] in
theorem files_ne_nil_of_levelScore {rounding : Rounding} (h : 1 ≤ levelScore rounding version level) :
    version.files level.level ≠ [] := by
  intro hnil
  unfold levelScore at h
  split at h
  · next hl =>
    subst hl
    have hzero : version.files 0 = [] := hnil
    rw [hzero, List.length_nil, Nat.cast_zero, zero_div, rounding.zero] at h
    exact absurd h (by decide)
  · have hsize : totalFileSize (version.files level.level) = 0 := by rw [hnil]; rfl
    rw [hsize, Nat.cast_zero, rounding.zero, zero_div, rounding.zero] at h
    exact absurd h (by decide)

omit [LinearOrder K] in
theorem scoreCompaction_spec (rounding : Rounding) (version : Levels K) :
    ((scoreCompaction rounding version).score = -1 ∨ (scoreCompaction rounding version).score =
        levelScore rounding version (scoreCompaction rounding version).level) ∧
      ∀ level, levelScore rounding version level ≤ (scoreCompaction rounding version).score := by
  have hfold : ∀ (levels : List SourceLevel) (best : CompactionScore),
      (best.score = -1 ∨ best.score = levelScore rounding version best.level) →
      let result := levels.foldl (fun best level =>
        let score := levelScore rounding version level
        if best.score < score then (⟨level, score⟩ : CompactionScore) else best) best
      (result.score = -1 ∨ result.score = levelScore rounding version result.level) ∧
        best.score ≤ result.score ∧
        ∀ level ∈ levels, levelScore rounding version level ≤ result.score := by
    intro levels
    induction levels with
    | nil => exact fun best h => ⟨h, le_rfl, by simp⟩
    | cons level levels ih =>
      intro best h
      rw [List.foldl_cons]
      dsimp only
      split
      · next hlt =>
        obtain ⟨hresult, hle, hall⟩ := ih ⟨level, levelScore rounding version level⟩ (.inr rfl)
        refine ⟨hresult, hlt.le.trans hle, fun l hl => ?_⟩
        rcases List.mem_cons.mp hl with rfl | hl
        · exact hle
        · exact hall l hl
      · next hlt =>
        obtain ⟨hresult, hle, hall⟩ := ih best h
        refine ⟨hresult, hle, fun l hl => ?_⟩
        rcases List.mem_cons.mp hl with rfl | hl
        · exact (not_lt.mp hlt).trans hle
        · exact hall l hl
  obtain ⟨hresult, _, hall⟩ := hfold (List.finRange 6) ⟨0, -1⟩ (.inl rfl)
  exact ⟨hresult, fun level => hall level (List.mem_finRange level)⟩

/-- When a level is full or a file is recorded, `PickCompaction` returns a closed compaction. -/
theorem pickCompaction_closed (hv : version.Valid compare) (rounding : Rounding)
    (pointers : Level → Option (InternalKey K)) {seek : Option (Candidate K)} (target : Nat)
    (hseek : ∀ c, seek = some c → c.file ∈ version.files c.level ∧ c.level.val < 6)
    (hneed : 1 ≤ (scoreCompaction rounding version).score ∨ seek ≠ none) :
    ∃ c, pickCompaction rounding version pointers seek target = .compaction c ∧
      c.version = version ∧ c.Closed := by
  have hfrom : ∀ (level : SourceLevel) (file : TableFile K), file ∈ version.files level.level →
      ∃ c, pickFrom version target (some (level, file)) = .compaction c ∧ c.version = version ∧
        c.Closed := by
    intro level file hfile
    obtain ⟨c, heq, _, hversion, hclosed⟩ := setupInputs_closed hv hfile target
    refine ⟨c, ?_, hversion, hclosed⟩
    unfold pickFrom
    dsimp only
    rw [heq]
  unfold pickCompaction selectInitialCompaction
  dsimp only
  by_cases hscore : 1 ≤ (scoreCompaction rounding version).score
  · rw [if_pos hscore]
    let score := scoreCompaction rounding version
    have hlevel : 1 ≤ levelScore rounding version score.level := by
      rcases (scoreCompaction_spec rounding version).1 with h | h
      · rw [h] at hscore
        exact absurd hscore (by decide)
      · exact h ▸ hscore
    have hinput : ∃ file ∈ version.files score.level.level,
        sizeInput version score.level (pointers score.level.level) = some file := by
      unfold sizeInput
      dsimp only
      split
      · next file hfind => exact ⟨file, List.mem_of_find?_eq_some hfind, rfl⟩
      · obtain ⟨file, hfile⟩ := List.exists_mem_of_ne_nil _ (files_ne_nil_of_levelScore hlevel)
        cases hfiles : version.files score.level.level with
        | nil => rw [hfiles] at hfile; simp at hfile
        | cons first rest => exact ⟨first, by simp, rfl⟩
    obtain ⟨file, hfile, hsize⟩ := hinput
    rw [hsize]
    exact hfrom score.level file hfile
  · rw [if_neg hscore]
    cases hs : seek with
    | none => exact absurd hs (hneed.resolve_left hscore)
    | some candidate =>
      obtain ⟨hfile, hlevel⟩ := hseek candidate hs
      have hsource : candidate.level.source? = some ⟨candidate.level.val, hlevel⟩ := dif_pos hlevel
      rw [Option.map_some, hsource]
      exact hfrom ⟨candidate.level.val, hlevel⟩ candidate.file hfile

end Choice

end ModernLevelDB
