import ModernLevelDB.Engine.RunCompaction

/-! # Flushes during a compaction (`engine/database_background.cc`)

`BeforeCompactionEntry` flushes the immutable memtable while a compaction runs. The compaction is then
installed into a version with more files than the one it was picked from. -/
namespace ModernLevelDB
set_option autoImplicit false

variable {K V : Type*} [LinearOrder K]

/-- The arguments of `FlushMemTable`. The memtable becomes the table `number`. -/
structure Flush (K V : Type*) [LinearOrder K] where
  tableSize : Run K V → Nat
  targetFileSize : Nat
  number : Nat
  logNumber : Nat

namespace Flush

def flushMemTable (flush : Flush K V) (tables : Nat → Run K V) (base : Levels K) :
    VersionEdit (InternalKey K) :=
  flushEdit flush.targetFileSize base flush.logNumber
    (tableMetadata flush.tableSize flush.number (tables flush.number))

def flushImmutable (flush : Flush K V) (tables : Nat → Run K V) (current : Levels K) : Levels K :=
  VersionBuilder.buildTrusted compare current (flush.flushMemTable tables current)

/-- The table has its own number and newer entries than every file. -/
structure Fresh (flush : Flush K V) (tables : Nat → Run K V) (current : Levels K) : Prop where
  nonzero : flush.number ≠ 0
  strict : (tables flush.number).entries.Pairwise (fun a b => a.key < b.key)
  determined : ∀ a ∈ tables flush.number, ∀ b ∈ tables flush.number,
    a.key.userKey = b.key.userKey → a.sequence = b.sequence → a = b
  newer : ∀ level, ∀ g ∈ current.files level,
    g.number ≠ flush.number ∧ (tables flush.number).Newer (tables g.number)

variable {flush : Flush K V} {tables : Nat → Run K V} {base current : Levels K}
  (h : flush.Fresh tables current)

include h

theorem Fresh.edit_files : (flush.flushMemTable tables current).deletedFiles = [] ∧
    (flush.flushMemTable tables current).newFiles.Pairwise (fun a b => a.2.number ≠ b.2.number) ∧
    ∀ level file, (level, file) ∈ (flush.flushMemTable tables current).newFiles →
      file.number = flush.number ∧ file.Covers (tables flush.number) ∧
        level = pickLevelForMemTableOutput current (.ofFile file) flush.targetFileSize := by
  unfold flushMemTable
  cases htable : tableMetadata flush.tableSize flush.number (tables flush.number) with
  | none => exact ⟨rfl, .nil, fun _ _ hadded => absurd hadded List.not_mem_nil⟩
  | some file =>
    obtain ⟨hnumber, hcovers⟩ := tableMetadata_eq_some htable
    have hne : file.number ≠ 0 := hnumber ▸ h.nonzero
    unfold flushEdit VersionEdit.addFile
    simp only [if_neg hne]
    refine ⟨rfl, List.pairwise_singleton _ _, fun level added hadded => ?_⟩
    cases List.mem_singleton.mp hadded
    exact ⟨hnumber, hcovers, rfl⟩

variable {level : Level} {f : TableFile K} (hv : current.Valid compare)

include hv

/-- A file after a flush was there or is the new table, which below level 0 meets nothing at its
level or above. -/
theorem Fresh.cases (hf : f ∈ (flush.flushImmutable tables current).files level) :
    f ∈ current.files level ∨ f.number = flush.number ∧ f.Covers (tables flush.number) ∧
      (level ≠ 0 → ∀ l ≤ level, ∀ g ∈ current.files l, ¬ f.Meets g) := by
  refine (VersionBuilder.mem_buildTrusted.mp hf).imp And.left ?_
  rintro ⟨file, hfile, rfl⟩
  obtain ⟨hnumber, hcovers, rfl⟩ := h.edit_files.2.2 level file hfile
  exact ⟨hnumber, { hcovers with },
    fun hlevel l hl g hg => pickLevelForMemTableOutput_avoids hv hlevel l hl g hg⟩

theorem Fresh.trusted : VersionBuilder.Trusted compare current (flush.flushMemTable tables current) := by
  obtain ⟨hdeleted, hdistinct, hnew⟩ := h.edit_files
  have hfiles : VersionBuilder.TrustedFiles compare current (flush.flushMemTable tables current) := by
    refine ⟨by simp [hdeleted], fun added hadded level f hf hn => ?_, hdistinct,
      fun added hadded => ?_⟩
    · exact absurd (hn.trans (hnew _ _ hadded).1) (h.newer level f hf).1
    · obtain ⟨_, hcovers, _⟩ := hnew _ _ hadded
      obtain ⟨entry, hmem, hlast⟩ := hcovers.last
      exact compare_le_iff_le.mpr (hlast ▸ hcovers.lower entry hmem)
  have hlisted := VersionBuilder.buildTrusted_listed hv.toListed hfiles
  have hlt : ∀ a b : InternalKey K, ¬ b.userKey ≤ a.userKey → a < b := fun a b hab =>
    InternalKey.lt_iff.mpr (.inl (not_le.mp hab))
  refine ⟨hfiles, fun level hlevel => ?_⟩
  -- The files are in the order of their smallest keys and on one side of each other.
  refine ((hlisted.smallest_sorted level).and (hlisted.nodup level)).imp_of_mem ?_
  rintro f g hf hg ⟨hle, hne⟩
  refine compare_lt_iff_lt.mpr (Or.resolve_left ?_ (hle.trans (hlisted.le hg)).not_gt)
  have hapart : ¬ f.Meets g → g.largest < f.smallest ∨ f.largest < g.smallest := fun hmeets =>
    (not_and_or.mp hmeets).imp (hlt _ _) (hlt _ _)
  rcases h.cases hv hf with hfold | ⟨hfn, _, havoids⟩
  · rcases h.cases hv hg with hgold | ⟨_, _, havoids⟩
    · exact hv.before_or_after hlevel hfold hgold hne.symm
    · exact hapart (fun hmeets => havoids hlevel level le_rfl f hfold hmeets.symm)
  · rcases h.cases hv hg with hgold | ⟨hgn, _⟩
    · exact hapart (havoids hlevel level le_rfl g hgold)
    · exact absurd (hlisted.unique level level f g hf hg (hfn.trans hgn.symm)).2 hne

theorem Fresh.grown (hgrown : Grown tables base current) :
    Grown tables base (flush.flushImmutable tables current) where
  kept level f hf := VersionBuilder.mem_buildTrusted.mpr
    (.inl ⟨hgrown.kept level f hf, by simp [h.edit_files.1]⟩)
  newer level f hf hnot level' g hg := by
    rcases h.cases hv hf with hf | ⟨hn, _⟩
    · exact hgrown.newer level f hf hnot level' g hg
    · exact hn ▸ (h.newer level' g (hgrown.kept level' g hg)).2
  avoids level hlevel f hf hnot level' hle g hg := by
    rcases h.cases hv hf with hf | ⟨_, _, havoids⟩
    · exact hgrown.avoids level hlevel f hf hnot level' hle g hg
    · exact havoids hlevel level' hle g (hgrown.kept level' g hg)

omit hv in
theorem Fresh.layered (hcurrent : current.Layered tables) :
    (flush.flushImmutable tables current).Layered tables := by
  have hv := hcurrent.valid
  have hvalid := VersionBuilder.buildTrusted_valid hv.toListed (h.trusted hv)
  refine ⟨hvalid, fun level f hf => ?_, fun level f hf => ?_, fun i j hij f hf g hg => ?_,
    fun i f hf j g hg a ha b hb huser hsequence => ?_⟩
  · rcases h.cases hv hf with hf | ⟨hn, hcovers, _⟩
    · exact hcurrent.covers level f hf
    · exact hn ▸ hcovers
  · rcases h.cases hv hf with hf | ⟨hn, _⟩
    · exact hcurrent.strict level f hf
    · exact hn ▸ h.strict
  · rcases h.cases hv hf with hfold | ⟨hfn, _⟩
    · rcases h.cases hv hg with hgold | ⟨hgn, hcovers, havoids⟩
      · exact hcurrent.newer i j hij f hfold g hgold
      · -- Nothing above the new table shares a user key with it.
        have hmeets := havoids (Fin.ne_zero_of_lt hij) i hij.le f hfold
        exact hgn ▸ Run.newer_of_not_meets (hcurrent.covers i f hfold) hcovers
          (fun hm => hmeets hm.symm)
    · rcases h.cases hv hg with hgold | ⟨hgn, _⟩
      · exact hfn ▸ (h.newer j g hgold).2
      · exact absurd (hvalid.unique i j f g hf hg (hfn.trans hgn.symm)).1 hij.ne
  · rcases h.cases hv hf with hfold | ⟨hfn, _⟩
    · rcases h.cases hv hg with hgold | ⟨hgn, _⟩
      · exact hcurrent.determined i f hfold j g hgold a ha b hb huser hsequence
      · exact absurd hsequence ((h.newer i f hfold).2 b (hgn ▸ hb) a ha huser.symm).ne
    · rcases h.cases hv hg with hgold | ⟨hgn, _⟩
      · exact absurd hsequence ((h.newer j g hgold).2 a (hfn ▸ ha) b hb huser).ne'
      · exact ⟨hfn.trans hgn.symm, h.determined a (hfn ▸ ha) b (hgn ▸ hb) huser hsequence⟩

end Flush

/-! ## Any number of flushes -/

/-- A flush of a fresh immutable table. -/
def FlushStep (tables : Nat → Run K V) (current next : Levels K) : Prop :=
  ∃ flush : Flush K V, flush.Fresh tables current ∧ next = flush.flushImmutable tables current

variable {tables : Nat → Run K V} {base current : Levels K} (hbase : base.Layered tables)
  (hrun : Relation.ReflTransGen (FlushStep tables) base current)

include hbase hrun

theorem FlushStep.run : current.Layered tables ∧ Grown tables base current := by
  induction hrun with
  | refl => exact ⟨hbase, Grown.refl tables base⟩
  | tail _ hstep ih =>
    obtain ⟨flush, h, rfl⟩ := hstep
    exact ⟨h.layered ih.1, h.grown ih.1.valid ih.2⟩

/-- After any flushes, the next one meets the preconditions of `BuildTrusted` and keeps the
layers. -/
theorem flushes_keep_layers {flush : Flush K V} (h : flush.Fresh tables current) :
    VersionBuilder.Trusted compare current (flush.flushMemTable tables current) ∧
      (flush.flushImmutable tables current).Layered tables := by
  have hlayered := (FlushStep.run hbase hrun).1
  exact ⟨h.trusted hlayered.valid, h.layered hlayered⟩

omit hbase hrun

def smallFlush (number : Nat) : Flush Nat Nat := ⟨fun run => run.entries.length, 100, number, 0⟩

/-- The deleted key is written again in level 0. -/
def rewrittenVersion : Levels Nat := (smallFlush 4).flushImmutable rewrittenTables deletedVersion

theorem flushStep_rewritten : FlushStep rewrittenTables deletedVersion rewrittenVersion := by
  refine ⟨smallFlush 4, ⟨by decide, by decide, by decide, ?_⟩, rfl⟩
  unfold Run.Newer
  decide

/-- A second flush behind a first one, over live files in two levels. -/
theorem flushes_keep_layers_rewritten :
    (List.finRange 3).map (fun level => (rewrittenVersion.files (level.castLE (by decide))).map (·.number)) =
      [[4], [3], [2]] ∧
    VersionBuilder.Trusted compare rewrittenVersion
      ((smallFlush 5).flushMemTable rewrittenTables rewrittenVersion) ∧
    ((smallFlush 5).flushImmutable rewrittenTables rewrittenVersion).Layered rewrittenTables := by
  refine ⟨by decide +kernel, flushes_keep_layers deletedVersion_layered (.single flushStep_rewritten)
    ⟨by decide, by decide, by decide, ?_⟩⟩
  unfold Run.Newer
  decide +kernel

include hbase hrun

/-- Reads of `user` at `limit` find the same when outputs replace the inputs. -/
def Compaction.Keeps (tables : Nat → Run K V) (c : Compaction K) (current : Levels K)
    (outputs : List (Output K V)) (user : K) (limit : Nat) : Prop :=
  ∃ before after, Newest.IsNewest Entry.sequence (Entry.Visible user limit)
      (current.contents tables) before ∧
    Newest.IsNewest Entry.sequence (Entry.Visible user limit)
      (c.stays tables current ∪ {e | e ∈ outputs.flatMap (·.run.entries)}) after ∧
    after.bind Entry.view = before.bind Entry.view

/-- A compaction that is installed after any flushes changes no answer at or above its snapshot. -/
theorem compaction_after_flushes {level : SourceLevel} {file : TableFile K}
    (hfile : file ∈ base.files level.level) {target : Nat} {c : Compaction K}
    (hpick : setupInputs base level (closeInput base level file) target = some c)
    (options : CompactionOptions K V) (numbers : Nat → Nat) {snapshot limit : Nat}
    (hlimit : snapshot ≤ limit) (user : K) :
    c.Keeps tables current (runCompaction options numbers tables c snapshot) user limit := by
  obtain ⟨c', hc', _, rfl, hc⟩ := setupInputs_closed hbase.valid hfile target
  cases hpick.symm.trans hc'
  obtain ⟨hlayered, hgrown⟩ := FlushStep.run hbase hrun
  have hcontents := Version.contents_finite tables current
  have hstays : (c.stays tables current).Finite :=
    hcontents.subset (fun e ⟨l, f, hf, _, he⟩ => ⟨l, f, hf, he⟩)
  obtain ⟨before, hbefore⟩ := Newest.exists_isNewest Entry.sequence (Entry.Visible user limit) hcontents
  obtain ⟨after, hafter⟩ := Newest.exists_isNewest Entry.sequence (Entry.Visible user limit)
    (hstays.union (List.finite_toSet _))
  exact ⟨before, after, hbefore, hafter, agree_compacted hc hlayered hgrown
    (runCompaction_compacted hc hbase options numbers snapshot) user hlimit after before hafter hbefore⟩

omit hbase hrun in
/-- The compaction drops both older entries of the key that the flush wrote. -/
theorem compaction_after_flushes_rewritten : ∃ c : Compaction Nat,
    setupInputs deletedVersion 1 (closeInput deletedVersion 1 deletingFile) 100 = some c ∧
    ∀ user limit, 6 ≤ limit → c.Keeps rewrittenTables rewrittenVersion
      (runCompaction smallTables (· + 10) rewrittenTables c 6) user limit := by
  have hfile : deletingFile ∈ deletedVersion.files (SourceLevel.level 1) := by decide
  obtain ⟨c, hc, _⟩ := setupInputs_closed deletedVersion_layered.valid hfile 100
  exact ⟨c, hc, fun user limit hlimit => compaction_after_flushes deletedVersion_layered
    (.single flushStep_rewritten) hfile hc smallTables (· + 10) hlimit user⟩

end ModernLevelDB
