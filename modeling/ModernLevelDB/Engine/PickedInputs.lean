import ModernLevelDB.Engine.RunCompaction

/-! # What `PickCompaction` picks

The loops of the picker end, and the inputs they leave are sorted, closed in both levels and without a
gap in their user keys. No entry of another file at the two levels is older than an input entry of its
user key, and widening the inputs leaves those of the next level as they are. -/
namespace ModernLevelDB
set_option autoImplicit false

variable {K V : Type*} [LinearOrder K]

/-! ## The inputs are in order -/

variable {files : List (TableFile K)}

theorem fileBefore_of_lt {f g : TableFile K} (h : f.smallest < g.smallest) :
    fileBefore compare f g = true := by
  rw [fileBefore_iff, fileCompare, Ordering.then_eq_lt]
  exact .inl (compare_lt_iff_lt.mpr h)

variable {version : Levels K}

theorem addBoundaryInputs_sorted (hv : version.Listed compare) {level : Level}
    (hmem : ∀ f ∈ files, f ∈ version.files level)
    (hsorted : files.Pairwise (fileBefore compare · ·)) :
    (addBoundaryInputs (version.files level) files).Pairwise (fileBefore compare · ·) := by
  by_cases hne : files = []
  · subst hne
    exact hsorted
  refine (addBoundaryInputs_induct (P := fun files => files.Pairwise (fileBefore compare · ·) ∧
    ∀ f ∈ files, f ∈ version.files level) (hv.smallest_sorted level) (fun f hf => hv.le hf) ?_ hne
    ⟨hsorted, hmem⟩).1.1
  rintro files largest next ⟨hsorted, hmem⟩ hlargest hnext _
  refine ⟨List.pairwise_append.mpr ⟨hsorted, List.pairwise_singleton _ _, fun f hf g hg => ?_⟩,
    List.forall_mem_append.mpr ⟨hmem, List.forall_mem_singleton.mpr hnext.mem⟩⟩
  rw [List.mem_singleton.mp hg]
  have hle := (hv.le (hmem f hf)).trans (hlargest.le f hf)
  exact fileBefore_of_lt (hle.trans_lt hnext.after)

theorem overlappingFiles_hull (hv : version.Listed compare) {range hull : KeyRange K}
    (hhull : hull.IsHull (overlappingFiles version 0 range)) {g : TableFile K}
    (hg : g ∈ version.files 0) (hover : hull.userKeys.overlaps g = true) :
    g ∈ overlappingFiles version 0 range := by
  obtain ⟨wider, hclosure⟩ := exists_zeroClosure hv range
  obtain ⟨first, hfirst, hsmallest⟩ := hhull.smallest_mem
  obtain ⟨final, hfinal, hlargest⟩ := hhull.largest_mem
  rw [hclosure.found_eq] at hfirst hfinal ⊢
  obtain ⟨hfirst, hfirstOver⟩ := List.mem_filter.mp hfirst
  obtain ⟨hfinal, hfinalOver⟩ := List.mem_filter.mp hfinal
  obtain ⟨hlo, hhi⟩ := UserKeyRange.overlaps_iff.mp hover
  refine List.mem_filter.mpr ⟨hg, UserKeyRange.overlaps_iff.mpr ⟨?_, ?_⟩⟩
  · refine (hclosure.inside first hfirst hfirstOver).1.trans (le_trans ?_ hlo)
    rw [hsmallest]
    exact le_rfl
  · refine hhi.trans (le_trans ?_ (hclosure.inside final hfinal hfinalOver).2)
    rw [hlargest]
    exact le_rfl

/-! ## The inputs of a setup -/

section Setup

variable {version : Levels K} {level : SourceLevel} {file : TableFile K} {target : Nat} {c : Compaction K}

theorem setupInputs_eq_some {files : List (TableFile K)}
    (h : setupInputs version level files target = some c) :
    ∃ closed, closedInputs version level files = some closed ∧ c.level = level ∧
      c.version = version ∧
      (c.inputs = closed.inputs ∧ c.nextInputs = closed.nextInputs ∨
        ∃ expansion, tryExpandInputs version level closed.inputs closed.nextInputs
            (closed.range.widen closed.nextInputs) target = some expansion ∧
          c.inputs = expansion.inputs ∧ c.nextInputs = expansion.nextInputs) := by
  obtain ⟨closed, hclosed, rfl⟩ := Option.map_eq_some_iff.mp h
  refine ⟨closed, hclosed, rfl, rfl, ?_⟩
  dsimp only
  unfold applyExpandedInputs
  cases hexpand : tryExpandInputs version level closed.inputs closed.nextInputs
      (closed.range.widen closed.nextInputs) target with
  | none => exact .inl ⟨rfl, rfl⟩
  | some expansion => exact .inr ⟨expansion, rfl, rfl, rfl⟩

/-- What a setup starts from: files of the level, in order; at level 0 those of some range. -/
structure Selected (version : Levels K) (level : SourceLevel) (files : List (TableFile K)) : Prop where
  mem : ∀ f ∈ files, f ∈ version.files level.level
  sorted : files.Pairwise (fileBefore compare · ·)
  zero : level = 0 → ∃ range, files = overlappingFiles version 0 range

theorem selected_overlappingFiles (hv : version.Listed compare) (level : SourceLevel) (range : KeyRange K) :
    Selected version level (overlappingFiles version level.level range) := by
  refine ⟨fun f hf => overlappingFiles_subset hv hf, ?_, ?_⟩
  · obtain ⟨wider, heq, _⟩ := overlappingFiles_eq_filter hv level.level range
    rw [heq]
    exact (hv.sorted level.level).filter _
  · rintro rfl
    exact ⟨range, rfl⟩

theorem selected_closeInput (hv : version.Listed compare) (hfile : file ∈ version.files level.level) :
    Selected version level (closeInput version level file) := by
  by_cases hzero : level = 0
  · subst hzero
    exact selected_overlappingFiles hv 0 ⟨file.smallest, file.largest⟩
  · have hsingle : closeInput version level file = [file] := if_neg hzero
    rw [hsingle]
    exact ⟨by simpa using hfile, List.pairwise_singleton _ _, fun h => absurd h hzero⟩

theorem exists_selected (hv : version.Valid compare) (hfile : file ∈ version.files level.level)
    (h : setupInputs version level (closeInput version level file) target = some c) :
    ∃ files, Selected version level files ∧
      c.inputs = addBoundaryInputs (version.files level.level) files := by
  obtain ⟨closed, hclosed, _, _, hchosen⟩ := setupInputs_eq_some h
  rcases hchosen with ⟨hinputs, _⟩ | ⟨expansion, hexpand, hinputs, _⟩
  · refine ⟨_, selected_closeInput hv.toListed hfile, hinputs.trans ?_⟩
    obtain ⟨range, _, rfl⟩ := Option.map_eq_some_iff.mp hclosed
    rfl
  · exact ⟨_, selected_overlappingFiles hv.toListed level _,
      hinputs.trans (tryExpandInputs_eq_some hexpand).1⟩

theorem setupInputs_widened (hv : version.Valid compare) (hfile : file ∈ version.files level.level)
    (h : setupInputs version level (closeInput version level file) target = some c) :
    ∃ closed, closedInputs version level (closeInput version level file) = some closed ∧
      (∀ f ∈ closed.inputs, f ∈ c.inputs) ∧ ∀ f, f ∈ c.nextInputs ↔ f ∈ closed.nextInputs := by
  obtain ⟨closed, heq, hclosed, hrange, hconn, hnext⟩ := closedInputs_closed hv hfile
  obtain ⟨closed', heq', _, _, hchosen⟩ := setupInputs_eq_some h
  rw [heq] at heq'
  cases heq'
  refine ⟨closed, heq, ?_⟩
  rcases hchosen with ⟨hinputs, hnextInputs⟩ | ⟨expansion, hexpand, hinputs, hnextInputs⟩
  · rw [hinputs, hnextInputs]
    exact ⟨fun _ hf => hf, fun _ => Iff.rfl⟩
  · obtain ⟨hselect, hrange', hnext', hlength⟩ := tryExpandInputs_eq_some hexpand
    obtain ⟨hsub, hsubNext⟩ :=
      hclosed.expand_subset hv hrange hconn hnext hselect (rangeOf_isHull hrange') hnext'
    rw [hinputs, hnextInputs]
    refine ⟨hsub, fun f => ?_⟩
    -- As many files as before, and all of those before.
    have hperm := (List.subperm_of_subset hclosed.next_nodup hsubNext).perm_of_length_le hlength.le
    exact hperm.mem_iff.symm

theorem setupInputs_sorted (hv : version.Valid compare) (hfile : file ∈ version.files level.level)
    (h : setupInputs version level (closeInput version level file) target = some c) :
    c.inputs.Pairwise (fileBefore compare · ·) := by
  obtain ⟨files, hselected, hinputs⟩ := exists_selected hv hfile h
  rw [hinputs]
  exact addBoundaryInputs_sorted hv.toListed hselected.mem hselected.sorted

theorem setupInputs_hull (hv : version.Valid compare) (hfile : file ∈ version.files level.level)
    (h : setupInputs version level (closeInput version level file) target = some c) (hzero : level = 0)
    {hull : KeyRange K} (hhull : hull.IsHull c.inputs) {g : TableFile K}
    (hg : g ∈ version.files level.level) (hover : hull.userKeys.overlaps g = true) : g ∈ c.inputs := by
  obtain ⟨files, hselected, hinputs⟩ := exists_selected hv hfile h
  obtain ⟨range, hfiles⟩ := hselected.zero hzero
  subst hzero
  have hsame : addBoundaryInputs (version.files (SourceLevel.level 0)) files = files := by
    refine addBoundaryInputs_zero hv.toListed hselected.mem ?_
    rw [hfiles]
    exact fun f hf g hg hfg => overlappingFiles_zero hv.toListed hf hg hfg
  rw [hinputs, hsame, hfiles] at hhull ⊢
  exact overlappingFiles_hull hv.toListed hhull hg hover

end Setup

/-! ## What the closure means for entries -/

section Closed

variable {c : Compaction K} {tables : Nat → Run K V}

theorem Compaction.Closed.covers (h : c.Closed) {hull : KeyRange K}
    (hhull : hull.IsHull (c.inputs ++ c.nextInputs)) {user : K} (hlo : hull.smallest.userKey ≤ user)
    (hhi : user ≤ hull.largest.userKey) :
    ∃ f, (f ∈ c.inputs ∨ f ∈ c.nextInputs) ∧ f.smallest.userKey ≤ user ∧ user ≤ f.largest.userKey := by
  obtain ⟨first, hfirst, hsmallest⟩ := hhull.smallest_mem
  obtain ⟨final, hfinal, hlargest⟩ := hhull.largest_mem
  -- The user key alone, as a file.
  let point : TableFile K :=
    { number := 0, fileSize := 0, smallest := ⟨user, 0, .value⟩, largest := ⟨user, 0, .value⟩ }
  obtain ⟨f, hf, hmeets⟩ := Overlap.Connected.meets h.connected (b := point) le_rfl
    ⟨first, List.mem_append.mp hfirst, by rw [hsmallest]; exact hlo⟩
    ⟨final, List.mem_append.mp hfinal, by rw [hlargest]; exact hhi⟩
  exact ⟨f, hf, hmeets.1, hmeets.2⟩

/-- In one sorted level, what lies before a selection is not older, and what lies after it has other
user keys. -/
theorem SegmentClosed.not_older {levelFiles files : List (TableFile K)} (h : SegmentClosed levelFiles files)
    (hcovers : ∀ f ∈ levelFiles, f.Covers (tables f.number)) (hmem : ∀ f ∈ files, f ∈ levelFiles)
    {f g : TableFile K} (hg : g ∈ levelFiles) (hnot : g ∉ files) (hf : f ∈ files) {a b : Entry K V}
    (ha : a ∈ tables f.number) (hb : b ∈ tables g.number) (huser : a.key.userKey = b.key.userKey) :
    ¬ b.sequence < a.sequence := by
  have hfirst := (hcovers f (hmem f hf)).lower a ha
  have hlast := (hcovers f (hmem f hf)).upper a ha
  rcases h g hg hnot with hbefore | hafter
  · have hkey := ((hcovers g hg).upper b hb).trans ((hbefore f hf).le.trans hfirst)
    exact not_lt.mpr (InternalKey.sequence_le_of_le hkey huser.symm)
  · have hlt := (InternalKey.userKey_mono hlast).trans_lt ((hafter f hf).trans_le
      (InternalKey.userKey_mono ((hcovers g hg).lower b hb)))
    exact absurd huser hlt.ne

theorem Compaction.Closed.not_older (h : c.Closed)
    (hcovers : ∀ level, ∀ f ∈ c.version.files level, f.Covers (tables f.number))
    (hnewer : ∀ f ∈ c.version.files c.level.level, ∀ g ∈ c.version.files c.level.next,
      (tables f.number).Newer (tables g.number)) {level level' : Level} {f g : TableFile K}
    (hlevel : level = c.level.level ∨ level = c.level.next) (hg : g ∈ c.version.files level)
    (hnot : ¬ c.IsInput level g) (hf : c.IsInput level' f) {a b : Entry K V}
    (ha : a ∈ tables f.number) (hb : b ∈ tables g.number) (huser : a.key.userKey = b.key.userKey) :
    ¬ b.sequence < a.sequence := by
  rcases hlevel with rfl | rfl
  · have hout : g ∉ c.inputs := fun hin => hnot (.inl ⟨rfl, hin⟩)
    rcases hf with ⟨rfl, hf⟩ | ⟨rfl, hf⟩
    · by_cases hzero : c.level = 0
      · have hmeets := (hcovers _ f (h.inputs_mem f hf)).meets (hcovers _ g hg) ha hb huser
        exact absurd (h.zero hzero f hf g hg hmeets) hout
      · exact (h.segment hzero).not_older (hcovers _) h.inputs_mem hg hout hf ha hb huser
    · have hlt := hnewer g hg f (h.next_mem f hf) b hb a ha huser.symm
      exact not_lt.mpr hlt.le
  · have hout : g ∉ c.nextInputs := fun hin => hnot (.inr ⟨rfl, hin⟩)
    rcases hf with ⟨rfl, hf⟩ | ⟨rfl, hf⟩
    · have hmeets := (hcovers _ f (h.inputs_mem f hf)).meets (hcovers _ g hg) ha hb huser
      exact absurd (h.next_meets f hf g hg hmeets) hout
    · exact h.next_segment.not_older (hcovers _) h.next_mem hg hout hf ha hb huser

end Closed

/-! ## The choice -/

/-- A compaction whose inputs grow from `file`. -/
structure Picks (V : Type*) (version : Levels K) (file : TableFile K) (c : Compaction K) : Prop where
  zeroLoop : ∀ range : KeyRange K, Loop.Ends (scanLevelZero · (version.files 0) []) range.userKeys
    (overlappingFiles version 0 range)
  boundaryLoop : ∀ level files range, rangeOf files = some range →
    Loop.Ends (boundaryRound (version.files level)) (range.largest, files)
      (addBoundaryInputs (version.files level) files)
  nonempty : c.inputs ≠ []
  sorted : c.inputs.Pairwise (fileBefore compare · ·)
  inputs_mem : ∀ f ∈ c.inputs, f ∈ version.files c.level.level
  /-- In level 0 no other file overlaps the common range. -/
  zero : c.level = 0 → ∀ hull : KeyRange K, hull.IsHull c.inputs →
    ∀ g ∈ version.files c.level.level, hull.userKeys.overlaps g = true → g ∈ c.inputs
  /-- Below it no later file has the last user key. -/
  deeper : c.level ≠ 0 → SegmentClosed (version.files c.level.level) c.inputs
  next_mem : ∀ f ∈ c.nextInputs, f ∈ version.files c.level.next
  next_meets : ∀ f ∈ c.inputs, ∀ g ∈ version.files c.level.next, f.Meets g → g ∈ c.nextInputs
  next_deeper : SegmentClosed (version.files c.level.next) c.nextInputs
  /-- No other file of the two levels holds an entry older than an input entry of its user key. -/
  not_older : ∀ tables : Nat → Run K V,
    (∀ level, ∀ f ∈ version.files level, f.Covers (tables f.number)) →
    (∀ f ∈ version.files c.level.level, ∀ g ∈ version.files c.level.next,
      (tables f.number).Newer (tables g.number)) →
    ∀ level, level = c.level.level ∨ level = c.level.next → ∀ g ∈ version.files level,
      ¬ c.IsInput level g → ∀ level' f, c.IsInput level' f → ∀ a ∈ tables f.number,
      ∀ b ∈ tables g.number, a.key.userKey = b.key.userKey → ¬ b.sequence < a.sequence
  /-- The inputs leave no gap. -/
  covers : ∀ hull : KeyRange K, hull.IsHull (c.inputs ++ c.nextInputs) → ∀ user : K,
    hull.smallest.userKey ≤ user → user ≤ hull.largest.userKey →
    ∃ f, (f ∈ c.inputs ∨ f ∈ c.nextInputs) ∧ f.smallest.userKey ≤ user ∧ user ≤ f.largest.userKey
  /-- The inputs before the expansion: it adds files of the source level only. -/
  widened : ∃ closed, closedInputs version c.level (closeInput version c.level file) = some closed ∧
    (∀ f ∈ closed.inputs, f ∈ c.inputs) ∧ ∀ f, f ∈ c.nextInputs ↔ f ∈ closed.nextInputs

section Pick

variable {version : Levels K} {c : Compaction K}

omit [LinearOrder K] in
theorem level_of_source? {level : Level} {source : SourceLevel} (h : level.source? = some source) :
    source.level = level := by
  unfold Level.source? at h
  split at h
  · cases h
    rfl
  · cases h

theorem pickFrom_eq_compaction {target : Nat} {initial : Option (SourceLevel × TableFile K)}
    (h : pickFrom version target initial = .compaction c) : ∃ level file, initial = some (level, file) ∧
      setupInputs version level (closeInput version level file) target = some c := by
  unfold pickFrom at h
  split at h
  · cases h
  · next level file =>
    split at h
    · cases h
    · next setup hsetup =>
      cases h
      exact ⟨level, file, rfl, hsetup⟩

theorem sizeInput_mem {level : SourceLevel} {pointer : Option (InternalKey K)} {file : TableFile K}
    (h : sizeInput version level pointer = some file) : file ∈ version.files level.level := by
  unfold sizeInput at h
  dsimp only at h
  split at h
  · next found hfound =>
    cases h
    exact List.mem_of_find?_eq_some hfound
  · exact List.mem_of_head? h

theorem pickCompaction_eq_compaction {rounding : Rounding} {pointers : Level → Option (InternalKey K)}
    {seek : Option (Candidate K)} {target : Nat}
    (hseek : ∀ candidate, seek = some candidate → candidate.file ∈ version.files candidate.level)
    (h : pickCompaction rounding version pointers seek target = .compaction c) :
    ∃ level file, selectInitialCompaction rounding version pointers seek = some (some (level, file)) ∧
      file ∈ version.files (SourceLevel.level level) ∧
      setupInputs version level (closeInput version level file) target = some c := by
  unfold pickCompaction at h
  split at h
  · cases h
  · next hselect =>
    obtain ⟨level, file, rfl, hsetup⟩ := pickFrom_eq_compaction h
    refine ⟨level, file, hselect, ?_, hsetup⟩
    unfold selectInitialCompaction at hselect
    dsimp only at hselect
    split at hselect
    · obtain ⟨input, hinput, heq⟩ := Option.map_eq_some_iff.mp (Option.some.inj hselect)
      obtain ⟨rfl, rfl⟩ := Prod.mk.inj heq
      exact sizeInput_mem hinput
    · obtain ⟨candidate, hcandidate, hlevel⟩ := Option.map_eq_some_iff.mp hselect
      obtain ⟨source, hsource, heq⟩ := Option.map_eq_some_iff.mp hlevel
      obtain ⟨rfl, rfl⟩ := Prod.mk.inj heq
      rw [level_of_source? hsource]
      exact hseek candidate hcandidate

/-- Whatever `PickCompaction` returns is closed over both levels. -/
theorem pickCompaction_picks (V : Type*) (hv : version.Valid compare) (rounding : Rounding)
    (pointers : Level → Option (InternalKey K)) (seek : Option (Candidate K)) (target : Nat)
    (hseek : ∀ candidate, seek = some candidate →
      candidate.file ∈ version.files candidate.level ∧ candidate.level.val < 6)
    (hpick : pickCompaction rounding version pointers seek target = .compaction c) :
    ∃ file, selectInitialCompaction rounding version pointers seek = some (some (c.level, file)) ∧
      Picks V version file c := by
  obtain ⟨level, file, hselect, hfile, hsetup⟩ :=
    pickCompaction_eq_compaction (fun candidate h => (hseek candidate h).1) hpick
  obtain ⟨c', hc', hlevel, hversion, hclosed⟩ := setupInputs_closed hv hfile target
  rw [hsetup] at hc'
  cases hc'
  subst hlevel hversion
  refine ⟨file, hselect, {
    zeroLoop := fun range => closeLevelZero_ends (c.version.files 0) range.userKeys
    boundaryLoop := fun l files range hrange =>
      (addBoundaryInputs_run (P := fun _ => True) (hv.toListed.smallest_sorted l)
        (fun f hf => hv.toListed.le hf) (fun _ _ _ _ _ _ _ => trivial) hrange trivial).1
    nonempty := hclosed.nonempty
    sorted := setupInputs_sorted hv hfile hsetup
    inputs_mem := hclosed.inputs_mem
    zero := fun hzero hull hhull g hg hover => setupInputs_hull hv hfile hsetup hzero hhull hg hover
    deeper := hclosed.segment
    next_mem := hclosed.next_mem
    next_meets := hclosed.next_meets
    next_deeper := hclosed.next_segment
    not_older := fun tables hcovers hnewer l hl g hg hnot l' f hf a ha b hb huser =>
      hclosed.not_older hcovers hnewer hl hg hnot hf ha hb huser
    covers := fun hull hhull user hlo hhi => hclosed.covers hhull hlo hhi
    widened := setupInputs_widened hv hfile hsetup }⟩

end Pick

/-! ## A choice with a restart, a boundary file and an expansion -/

def spanFile (number first sequence last : Nat) : TableFile Nat :=
  { number, fileSize := 2, smallest := ⟨first, sequence, .value⟩, largest := ⟨last, sequence, .value⟩ }

/-- Level 0 is full. File 7 meets file 8, which meets file 5; file 4 goes on with the last user key of
file 5 and meets file 9. -/
def spanVersion : Levels Nat where
  files level :=
    if level = 0 then [spanFile 7 1 30 3, spanFile 8 3 31 5, spanFile 9 7 32 8, spanFile 10 20 33 21]
    else if level = 1 then [spanFile 5 4 12 6, spanFile 4 6 11 8]
    else []

theorem spanVersion_valid : spanVersion.Valid compare where
  sorted := by decide
  ordered := by decide
  unique l l' f g hf hg := by
    revert l' g
    revert l f
    decide
  disjoint := by decide

/-- The file numbers of the inputs. -/
def Pick.numbers : Pick Nat → List Nat × List Nat
  | .compaction c => (c.inputs.map (·.number), c.nextInputs.map (·.number))
  | _ => ([], [])

/-- The scan over level 0 starts over, file 4 is a boundary file, and file 9 is added in the end. -/
theorem pickCompaction_picks_span : ∃ c,
    pickCompaction Rounding.exact spanVersion (fun _ => none) none 100 = .compaction c ∧
      scanLevelZero ⟨1, 3⟩ (spanVersion.files 0) [] = .inl ⟨1, 5⟩ ∧
      (overlappingFiles spanVersion 1 ⟨⟨1, 30, .value⟩, ⟨5, 31, .value⟩⟩).map (·.number) = [5] ∧
      c.inputs.map (·.number) = [7, 8, 9] ∧ c.nextInputs.map (·.number) = [5, 4] ∧
      Picks Nat spanVersion (spanFile 7 1 30 3) c := by
  have hseek : ∀ candidate, (none : Option (Candidate Nat)) = some candidate →
      candidate.file ∈ spanVersion.files candidate.level ∧ candidate.level.val < 6 := by simp
  obtain ⟨c, hpick, _⟩ := pickCompaction_closed spanVersion_valid Rounding.exact (fun _ => none) 100 hseek
    (.inl (by decide +kernel))
  obtain ⟨file, hselect, hpicks⟩ := pickCompaction_picks Nat spanVersion_valid Rounding.exact
    (fun _ => none) none 100 hseek hpick
  have hnumbers : (pickCompaction Rounding.exact spanVersion (fun _ => none) none 100).numbers =
      ([7, 8, 9], [5, 4]) := by decide +kernel
  have hfile : (selectInitialCompaction Rounding.exact spanVersion (fun _ => none) none).map
      (Option.map Prod.snd) = some (some (spanFile 7 1 30 3)) := by decide +kernel
  rw [hpick] at hnumbers
  rw [hselect] at hfile
  cases hfile
  exact ⟨c, hpick, rfl, by decide, congrArg Prod.fst hnumbers, congrArg Prod.snd hnumbers, hpicks⟩

end ModernLevelDB
