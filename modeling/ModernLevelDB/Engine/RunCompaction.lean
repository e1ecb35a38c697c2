import ModernLevelDB.Engine.Levels

/-! # A whole compaction (`RunCompaction`)

`runCompaction` is the loop over the merged entries with hooks that succeed: every entry is judged,
the kept ones go to outputs, and the last output is finished at the end. What it leaves out is hidden
from every reader at or above the snapshot. -/
namespace ModernLevelDB
set_option autoImplicit false

variable {K V : Type*} [LinearOrder K]

/-- `CompactionOptions`, with the sizes that tables have while they are built and at the end. -/
structure CompactionOptions (K V : Type*) [LinearOrder K] where
  targetFileSize : Nat
  builderSize : List (Entry K V) → Nat
  tableSize : Run K V → Nat

namespace CompactionRun

/-! ## The loop -/

def finishOutput (options : CompactionOptions K V) (run : CompactionRun K V) : CompactionRun K V :=
  match run.number.bind (fun number => tableMetadata options.tableSize number run.openTable) with
  | some file => run.finish file
  | none => run

/-- `Outputs::Add` of the next entry; an output that it opens gets `number`. -/
def addEntry (options : CompactionOptions K V) (number : Nat) (run : CompactionRun K V) :
    CompactionRun K V :=
  let run := if run.number.isNone then { run with number := some number } else run
  let run := run.append
  if options.targetFileSize ≤ options.builderSize run.entries then run.finishOutput options else run

/-- The output that was open before the entry is finished if it passed too much. -/
def stopped (options : CompactionOptions K V) (run : CompactionRun K V) (entry : Entry K V) :
    CompactionRun K V :=
  let (stop, run) := run.stopBefore (wrap64 (grandparentOverlapFactor * options.targetFileSize)) entry
  if stop && run.number.isSome then run.finishOutput options else run

def processEntry (options : CompactionOptions K V) (number : Nat) (run : CompactionRun K V) :
    CompactionRun K V :=
  match run.remaining with
  | [] => run
  | entry :: _ =>
      let (drop, run) := (run.stopped options entry).judge entry
      if drop then run.skip else run.addEntry options number

/-- `RunInputEntries`; `numbers` are the file numbers that the hook would give. -/
def runEntries (options : CompactionOptions K V) (numbers : Nat → Nat) :
    Nat → CompactionRun K V → CompactionRun K V
  | 0, run => run
  | count + 1, run => runEntries options numbers count (run.processEntry options (numbers count))

/-- The loop and `Outputs::Finish` behind it. -/
def complete (options : CompactionOptions K V) (numbers : Nat → Nat) (run : CompactionRun K V) :
    CompactionRun K V :=
  let run := run.runEntries options numbers run.remaining.length
  if run.number.isSome then run.finishOutput options else run

/-- The edit that `RunCompaction` returns, with the outputs it wrote, for any input. -/
def compactInput (options : CompactionOptions K V) (numbers : Nat → Nat) (compaction : Compaction K)
    (smallestSnapshot : Nat) (input : Run K V) : List (Output K V) × VersionEdit (InternalKey K) :=
  let run := (start input compaction smallestSnapshot).complete options numbers
  (run.finished, run.edit)

end CompactionRun

def runCompaction (options : CompactionOptions K V) (numbers : Nat → Nat) (tables : Nat → Run K V)
    (compaction : Compaction K) (smallestSnapshot : Nat) : List (Output K V) :=
  (CompactionRun.compactInput options numbers compaction smallestSnapshot
    (mergedInput tables compaction)).1

namespace CompactionRun

/-! ## What one entry does -/

variable (options : CompactionOptions K V) {input : List (Entry K V)} {run : CompactionRun K V}

/-- An output has a number from its first entry on. -/
def OpenHasEntries (run : CompactionRun K V) : Prop := run.number = none ↔ run.entries = []

/-- A run of this compaction between two entries. -/
structure Running (c : Compaction K) (smallestSnapshot : Nat) (input : List (Entry K V))
    (run : CompactionRun K V) : Prop where
  inv : run.Inv input
  output : run.OpenHasEntries
  compaction : run.compaction = c
  snapshot : run.smallestSnapshot = smallestSnapshot

variable {c : Compaction K} {smallestSnapshot : Nat}

theorem Running.finishOutput (h : run.Running c smallestSnapshot input) (hopen : run.number.isSome) :
    (run.finishOutput options).Running c smallestSnapshot input ∧
      (run.finishOutput options).entries = [] ∧
      (run.finishOutput options).remaining = run.remaining := by
  obtain ⟨number, hnumber⟩ := Option.isSome_iff_exists.mp hopen
  have hentries : run.openTable.entries ≠ [] := by
    intro hnil
    have := h.output.mpr hnil
    rw [hnumber] at this
    cases this
  unfold CompactionRun.finishOutput
  rw [hnumber]
  cases hfile : tableMetadata options.tableSize number run.openTable with
  | none => exact absurd (tableMetadata_eq_none.mp hfile) hentries
  | some file =>
    have hcovers := (tableMetadata_eq_some hfile).2
    simp only [Option.bind_some, hfile]
    exact ⟨⟨h.inv.finish hcovers, by simp [OpenHasEntries, CompactionRun.finish], h.compaction,
      h.snapshot⟩, rfl, rfl⟩

theorem append_setNumber (run : CompactionRun K V) (number : Option Nat) :
    ({ run with number } : CompactionRun K V).append = { run.append with number } := by
  obtain ⟨compaction, snapshot, remaining, grandparents, baseLevel, history, n, entries, finished,
    sorted⟩ := run
  cases remaining <;> rfl

theorem append_opened (run : CompactionRun K V) (number : Nat) :
    (if run.number.isNone then { run with number := some number } else run).append =
      { run.append with number := some (run.number.getD number) } := by
  cases h : run.number with
  | none => exact append_setNumber run (some number)
  | some n =>
    have hsame : run = { run with number := some n } := by rw [← h]
    show run.append = _
    conv_lhs => rw [hsame]
    exact append_setNumber run (some n)

theorem addEntry_running {number : Nat} {entry : Entry K V} {rest : List (Entry K V)}
    (hremaining : run.remaining = entry :: rest) (hinv : run.append.Inv input)
    (hcompaction : run.compaction = c) (hsnapshot : run.smallestSnapshot = smallestSnapshot) :
    (run.addEntry options number).Running c smallestSnapshot input ∧
      (run.addEntry options number).remaining = rest := by
  obtain ⟨hrest, hentries, _, hcomp, hsnap, _, _, _⟩ := append_eq hremaining
  have hrunning : ({ run.append with number := some (run.number.getD number) } :
      CompactionRun K V).Running c smallestSnapshot input := by
    refine ⟨hinv.setNumber _, ?_, hcomp.trans hcompaction, hsnap.trans hsnapshot⟩
    show some _ = none ↔ run.append.entries = []
    simp [hentries]
  unfold addEntry
  dsimp only
  rw [append_opened]
  split
  · obtain ⟨hfinished, _, hrem⟩ := Running.finishOutput options hrunning rfl
    exact ⟨hfinished, hrem.trans hrest⟩
  · exact ⟨hrunning, hrest⟩

variable {entry : Entry K V} {rest : List (Entry K V)}

theorem processEntry_eq (hremaining : run.remaining = entry :: rest) (number : Nat) :
    run.processEntry options number =
      if ((run.stopped options entry).judge entry).1 then ((run.stopped options entry).judge entry).2.skip
      else ((run.stopped options entry).judge entry).2.addEntry options number := by
  unfold CompactionRun.processEntry
  rw [hremaining]

theorem Running.stopped (h : run.Running c smallestSnapshot input) (entry : Entry K V) :
    (run.stopped options entry).Running c smallestSnapshot input ∧
      (run.stopped options entry).remaining = run.remaining := by
  let limit := wrap64 (grandparentOverlapFactor * options.targetFileSize)
  have hstop : (run.stopBefore limit entry).2.Running c smallestSnapshot input :=
    ⟨h.inv.stopBefore limit entry, h.output, h.compaction, h.snapshot⟩
  unfold CompactionRun.stopped
  dsimp only
  split
  · next hclose =>
    obtain ⟨hfinished, _, hrem⟩ := Running.finishOutput options hstop (Bool.and_eq_true_iff.mp hclose).2
    exact ⟨hfinished, hrem⟩
  · exact ⟨hstop, rfl⟩

theorem Running.processEntry (hv : c.version.Listed compare)
    (hstrict : input.Pairwise (fun a b => a.key < b.key)) (h : run.Running c smallestSnapshot input)
    (number : Nat) : (run.processEntry options number).Running c smallestSnapshot input ∧
      (run.processEntry options number).remaining = run.remaining.tail := by
  cases hremaining : run.remaining with
  | nil =>
    have hsame : run.processEntry options number = run := by
      unfold CompactionRun.processEntry
      rw [hremaining]
    rw [hsame]
    exact ⟨h, hremaining⟩
  | cons entry rest =>
    obtain ⟨hrunning, hrem⟩ := Running.stopped options h entry
    rw [processEntry_eq options hremaining]
    generalize run.stopped options entry = before at hrunning hrem
    rw [hremaining] at hrem
    have hlisted : before.compaction.version.Listed compare := by
      rw [hrunning.compaction]
      exact hv
    split
    · next hdrop =>
      refine ⟨{ hrunning with inv := hrunning.inv.drop hlisted hstrict hrem hdrop }, ?_⟩
      show before.remaining.tail = rest
      rw [hrem]
      rfl
    · next hkeep =>
      have hinv := hrunning.inv.keep hlisted hstrict hrem (by simpa using hkeep)
      exact addEntry_running options hrem hinv hrunning.compaction hrunning.snapshot

theorem Running.runEntries (hv : c.version.Listed compare)
    (hstrict : input.Pairwise (fun a b => a.key < b.key)) (numbers : Nat → Nat) (count : Nat)
    (h : run.Running c smallestSnapshot input) :
    (run.runEntries options numbers count).Running c smallestSnapshot input ∧
      (run.runEntries options numbers count).remaining = run.remaining.drop count := by
  induction count generalizing run with
  | zero => exact ⟨h, rfl⟩
  | succ count ih =>
    obtain ⟨hnext, htail⟩ := Running.processEntry options hv hstrict h (numbers count)
    obtain ⟨hrest, hdrop⟩ := ih hnext
    refine ⟨hrest, hdrop.trans ?_⟩
    rw [htail, List.drop_tail]

end CompactionRun

/-! ## The whole run -/

section Whole

variable {tables : Nat → Run K V} {c : Compaction K}

/-- An input is listed once, so that the merged entries have distinct keys. -/
theorem mergedInput_strict (hc : c.Closed) (hversion : c.version.Layered tables) :
    (mergedInput tables c).entries.Pairwise (fun a b => a.key < b.key) := by
  have hmem : ∀ f ∈ c.inputs ++ c.nextInputs, ∃ level, f ∈ c.version.files level := by
    intro f hf
    rcases List.mem_append.mp hf with hf | hf
    · exact ⟨_, hc.inputs_mem f hf⟩
    · exact ⟨_, hc.next_mem f hf⟩
  have hfiles : (c.inputs ++ c.nextInputs).Nodup := by
    refine List.nodup_append.mpr ⟨hc.inputs_nodup, hc.next_nodup, fun f hf g hg heq => ?_⟩
    subst heq
    have hlevel := (hversion.valid.unique _ _ f f (hc.inputs_mem f hf) (hc.next_mem f hg) rfl).1
    exact c.level.level_ne_next hlevel
  have hdistinct : ((c.inputs ++ c.nextInputs).flatMap
      (fun file => (tables file.number).entries)).Pairwise (fun a b => a.key ≠ b.key) := by
    refine List.pairwise_flatMap.mpr ⟨fun f hf => ?_, hfiles.imp_of_mem ?_⟩
    · obtain ⟨level, hlevel⟩ := hmem f hf
      exact (hversion.strict level f hlevel).imp (fun h => h.ne)
    · intro f g hf hg hne a ha b hb hkey
      obtain ⟨i, hi⟩ := hmem f hf
      obtain ⟨j, hj⟩ := hmem g hg
      have hnumber := (hversion.determined i f hi j g hj a ha b hb (by rw [hkey])
        (congrArg InternalKey.sequence hkey)).1
      exact hne (hversion.valid.unique i j f g hi hj hnumber).2
  have hsymm : Std.Symm (fun a b : Entry K V => a.key ≠ b.key) := ⟨fun _ _ h => h.symm⟩
  have hsorted := (mergedInput tables c).sorted
  have hne : (mergedInput tables c).entries.Pairwise (fun a b => a.key ≠ b.key) :=
    (List.perm_insertionSort _ _).pairwise_iff (fun h => h.symm) |>.mpr hdistinct
  exact (hsorted.and hne).imp (fun h => lt_of_le_of_ne h.1 h.2)

/-- The outputs hold what a compaction of the merged entries keeps. -/
theorem runCompaction_compacted (hc : c.Closed) (hversion : c.version.Layered tables)
    (options : CompactionOptions K V) (numbers : Nat → Nat) (smallestSnapshot : Nat) :
    Compacted c smallestSnapshot (mergedInput tables c).entries
      ((runCompaction options numbers tables c smallestSnapshot).flatMap (·.run.entries)) := by
  have hstart : (CompactionRun.start (mergedInput tables c) c smallestSnapshot).Running c
      smallestSnapshot (mergedInput tables c).entries :=
    ⟨CompactionRun.inv_start _ c smallestSnapshot, ⟨fun _ => rfl, fun _ => rfl⟩, rfl, rfl⟩
  obtain ⟨hrunning, hrest⟩ := CompactionRun.Running.runEntries options hversion.valid.toListed
    (mergedInput_strict hc hversion) numbers
    (CompactionRun.start (mergedInput tables c) c smallestSnapshot).remaining.length hstart
  rw [List.drop_length] at hrest
  -- The last output is finished, so that nothing stays in an open one.
  obtain ⟨last, hlast, hdone, hentries, hremaining⟩ : ∃ last : CompactionRun K V,
      runCompaction options numbers tables c smallestSnapshot = last.finished ∧
        last.Running c smallestSnapshot (mergedInput tables c).entries ∧ last.entries = [] ∧
        last.remaining = [] := by
    refine ⟨_, rfl, ?_⟩
    unfold CompactionRun.complete
    dsimp only
    split
    · next hopen =>
      obtain ⟨hfinished, hnil, hrem⟩ := CompactionRun.Running.finishOutput options hrunning hopen
      exact ⟨hfinished, hnil, hrem.trans hrest⟩
    · next hopen => exact ⟨hrunning, hrunning.output.mp (by simpa using hopen), hrest⟩
  obtain ⟨seen, hinput, hcompacted, _⟩ := hdone.inv.progress
  rw [hremaining, List.append_nil] at hinput
  rw [hlast, hinput]
  have hkept : last.kept = last.finished.flatMap (·.run.entries) := by
    unfold CompactionRun.kept
    rw [hentries, List.append_nil]
  rw [← hkept, ← hdone.compaction, ← hdone.snapshot]
  exact hcompacted

theorem Version.contents_finite (tables : Nat → Run K V) (version : Levels K) :
    (version.contents tables).Finite := by
  have hlist : (version.contents tables) = {e | e ∈ (List.finRange numLevels).flatMap (fun level =>
      (version.files level).flatMap (fun f => (tables f.number).entries))} := by
    ext e
    simp [Version.contents, filesContents, Run.mem_def]
  rw [hlist]
  exact List.finite_toSet _

/-- The entries that a compaction leaves in the database: those of the files that stay and of its
outputs. -/
def Compaction.leaves (tables : Nat → Run K V) (c : Compaction K) (outputs : List (Output K V)) :
    Set (Entry K V) :=
  c.stays tables c.version ∪ {e | e ∈ outputs.flatMap (·.run.entries)}

/-- A compaction that the picker sets up from any live file changes no answer at or above its
snapshot, and drops only what is hidden there. -/
theorem runCompaction_preserves_reads {version : Levels K} (hversion : version.Layered tables)
    {level : SourceLevel} {file : TableFile K} (hfile : file ∈ version.files level.level)
    {target : Nat}
    (hpick : setupInputs version level (closeInput version level file) target = some c)
    (options : CompactionOptions K V) (numbers : Nat → Nat) (smallestSnapshot : Nat) :
    (∀ (user : K) (limit : Nat), smallestSnapshot ≤ limit →
      ∃ before after, Newest.IsNewest Entry.sequence (Entry.Visible user limit)
          (version.contents tables) before ∧
        Newest.IsNewest Entry.sequence (Entry.Visible user limit)
          (c.leaves tables (runCompaction options numbers tables c smallestSnapshot)) after ∧
        after.bind Entry.view = before.bind Entry.view) ∧
    ∀ e ∈ mergedInput tables c,
      e ∉ (runCompaction options numbers tables c smallestSnapshot).flatMap (·.run.entries) →
      (∃ n ∈ mergedInput tables c, n.key.userKey = e.key.userKey ∧ e.sequence < n.sequence ∧
        n.sequence ≤ smallestSnapshot) ∨
      (e.key.kind = .deletion ∧ e.sequence ≤ smallestSnapshot ∧
        ∀ l : Level, c.level.next < l → ∀ f ∈ version.files l,
          ¬ (f.smallest.userKey ≤ e.key.userKey ∧ e.key.userKey ≤ f.largest.userKey)) := by
  obtain ⟨c', hc', _, hsame, hc⟩ := setupInputs_closed hversion.valid hfile target
  rw [hpick] at hc'
  cases hc'
  subst hsame
  have hcompacted := runCompaction_compacted hc hversion options numbers smallestSnapshot
  have hgrown := Grown.refl tables c.version
  refine ⟨fun user limit hlimit => ?_, fun e he hdropped => ?_⟩
  · have hagree := agree_compacted hc hversion hgrown hcompacted user hlimit
    have hfinite : (c.leaves tables
        (runCompaction options numbers tables c smallestSnapshot)).Finite := by
      refine (Version.contents_finite tables c.version).subset ?_
      rintro e (⟨l, f, hf, _, he⟩ | he)
      · exact ⟨l, f, hf, he⟩
      · obtain ⟨l, f, _, hf, hef⟩ := (hc.mem_input hgrown).mp (hcompacted.sublist.subset he)
        exact ⟨l, f, hf, hef⟩
    obtain ⟨before, hbefore⟩ := Newest.exists_isNewest Entry.sequence (Entry.Visible user limit)
      (Version.contents_finite tables c.version)
    obtain ⟨after, hafter⟩ := Newest.exists_isNewest Entry.sequence (Entry.Visible user limit) hfinite
    exact ⟨before, after, hbefore, hafter, hagree after before hafter hbefore⟩
  · refine (hcompacted.dropped e he hdropped).imp ?_ (fun ⟨hkind, hle, hbase⟩ => ⟨hkind, hle, ?_⟩)
    · rintro ⟨n, hn, huser, hlt, hle⟩
      refine ⟨n, hn, huser, lt_of_le_of_ne (InternalKey.sequence_le_of_le hlt.le huser) ?_, hle⟩
      intro heq
      obtain ⟨i, f, _, hf, hnf⟩ := (hc.mem_input hgrown).mp hn
      obtain ⟨j, g, _, hg, heg⟩ := (hc.mem_input hgrown).mp he
      have hne := (hversion.determined i f hf j g hg n hnf e heg huser heq.symm).2
      rw [hne] at hlt
      exact lt_irrefl _ hlt
    · intro l hl f hf
      refine hbase l (List.mem_filter.mpr ⟨List.mem_finRange _, decide_eq_true ?_⟩) f hf
      have := Fin.lt_def.mp hl
      show c.level.val + 2 ≤ l.val
      exact this

end Whole

/-! ## A deletion over the entry that it deletes -/

/-- Table 3 deletes the entry of user key 1 in table 2, and every later table writes that key again. -/
def rewrittenTables : Nat → Run Nat Nat
  | 2 => ⟨[⟨⟨1, 1, .value⟩, 10⟩, ⟨⟨3, 2, .value⟩, 30⟩], by decide⟩
  | 3 => ⟨[⟨⟨1, 5, .deletion⟩, 0⟩, ⟨⟨2, 6, .value⟩, 20⟩], by decide⟩
  | n => ⟨[⟨⟨1, n + 3, .value⟩, n⟩], by simp⟩

def deletingFile : TableFile Nat :=
  { number := 3, fileSize := 2, smallest := ⟨1, 5, .deletion⟩, largest := ⟨2, 6, .value⟩ }

/-- Table 3 in level 1 over table 2 in level 2. -/
def deletedVersion : Levels Nat where
  files level :=
    if level = 1 then [deletingFile]
    else if level = 2 then
      [{ number := 2, fileSize := 2, smallest := ⟨1, 1, .value⟩, largest := ⟨3, 2, .value⟩ }]
    else []

theorem deletedVersion_layered : deletedVersion.Layered rewrittenTables where
  valid :=
    { sorted := by decide
      ordered := by decide
      unique l l' f g hf hg := by
        revert l' g
        revert l f
        decide
      disjoint := by decide }
  covers level f hf := by refine ⟨?_, ?_, ?_, ?_⟩ <;> revert level f <;> decide
  strict := by decide
  newer := by
    unfold Run.Newer
    decide
  determined := by decide

def smallTables : CompactionOptions Nat Nat := ⟨100, List.length, fun run => run.entries.length⟩

/-- Both entries of user key 1 are dropped, and the two others are kept in one output. -/
theorem runCompaction_preserves_reads_deleted :
    ∃ c, setupInputs deletedVersion 1 (closeInput deletedVersion 1 deletingFile) 100 = some c ∧
      (runCompaction smallTables (· + 10) rewrittenTables c 6).map (·.run.entries.map (·.value)) =
        [[20, 30]] ∧
      ∀ user limit, 6 ≤ limit → ∃ before after,
        Newest.IsNewest Entry.sequence (Entry.Visible user limit)
          (deletedVersion.contents rewrittenTables) before ∧
        Newest.IsNewest Entry.sequence (Entry.Visible user limit)
          (c.leaves rewrittenTables (runCompaction smallTables (· + 10) rewrittenTables c 6)) after ∧
        after.bind Entry.view = before.bind Entry.view := by
  have hfile : deletingFile ∈ deletedVersion.files (SourceLevel.level 1) := by decide
  obtain ⟨c, hc, _⟩ := setupInputs_closed deletedVersion_layered.valid hfile 100
  have houtputs : (setupInputs deletedVersion 1 (closeInput deletedVersion 1 deletingFile) 100).map
      (fun c => (runCompaction smallTables (· + 10) rewrittenTables c 6).map
        (·.run.entries.map (·.value))) = some [[20, 30]] := by decide +kernel
  rw [hc] at houtputs
  exact ⟨c, hc, Option.some.inj houtputs,
    (runCompaction_preserves_reads deletedVersion_layered hfile hc smallTables (· + 10) 6).1⟩

end ModernLevelDB
