import ModernLevelDB.Engine.RecoveryReplay

/-! # Recovering a database

The logs of a listing that a recovered version set selects are replayed in ascending order, and the
tables and a new log are recorded in one edit. -/
namespace ModernLevelDB
set_option autoImplicit false

/-! ## Version sets that recovery works with -/

namespace VersionSet

variable {extend : CrcExtend} {comparator : Comparator}

/-- A version set that `Recover` or `Create` has made. -/
inductive Recovered (extend : CrcExtend) (comparator : Comparator) : VersionSet ByteKey → Prop where
  | recovered {policy : ReadPolicy} {disk : Disk} {set : VersionSet ByteKey}
      (h : recover extend comparator policy disk = .ok set) : Recovered extend comparator set
  | created {world world' : World} {set : VersionSet ByteKey}
      (h : create extend comparator world = (.returned set, world')) : Recovered extend comparator set

variable {set : VersionSet ByteKey}

theorem recover_failure {policy : ReadPolicy} {disk : Disk}
    (h : recover extend comparator policy disk = .ok set) : set.failure = none := by
  obtain ⟨selected, _, h⟩ := Result.bind_eq_ok.mp h
  obtain ⟨recovery, _, h⟩ := Result.bind_eq_ok.mp h
  obtain ⟨⟨next, logNumber, lastSequence⟩, _, h⟩ := Result.bind_eq_ok.mp h
  dsimp only at h
  split at h
  · cases h
  · cases h
    rfl

theorem Recovered.sound [Std.TransCmp comparator.internal] (h : Recovered extend comparator set) :
    Sound comparator set ∧ set.failure = none := by
  cases h with
  | recovered h => exact ⟨(recover_sound h).1, recover_failure h⟩
  | created h =>
    obtain ⟨prepared, writer, next, last, haccept, _, hnext, hlast, rfl⟩ := logAndApply_returned
      (fun _ hc => (by cases hc)) (Nat.zero_le _) (create_returned h)
    rw [accept_empty] at haccept
    obtain rfl := Except.ok.inj haccept
    have hsound := (sound_empty comparator).counters hnext hlast
    exact ⟨{ hsound with }, rfl⟩

theorem returns_installCurrent (number : Nat) : (installCurrent number).Returns :=
  (FileM.returns_perform _).bind fun _ =>
    ((FileM.returns_perform _).bind fun _ => (FileM.returns_perform _).bind fun _ =>
      FileM.returns_perform _).bind fun _ =>
    (FileM.returns_perform _).bind fun _ => FileM.returns_perform _

theorem returns_write (manifest : Option WalWriter) (number : Nat) (snapshot edit : Bytes) :
    (write extend manifest number snapshot edit).Returns := by
  cases manifest with
  | some manifest =>
    exact (manifest.returns_addRecord extend edit).bind fun _ =>
      (FileM.returns_perform _).bind fun _ => FileM.returns_pure _
  | none =>
    have hcreate : (createManifest extend number snapshot).Returns :=
      (FileM.returns_perform _).bind fun _ => WalWriter.returns_addRecord extend _ snapshot
    exact hcreate.bind fun created => (created.returns_addRecord extend edit).bind fun _ =>
      (FileM.returns_perform _).bind fun _ => (FileM.returns_perform _).bind fun _ =>
        (returns_installCurrent number).bind fun _ => FileM.returns_pure _

theorem logAndApply_reliable (extend : CrcExtend) {edit : VersionEdit ByteKey}
    {prepared : Prepared ByteKey} {world : World} (hworld : world.Reliable)
    (h : accept comparator .checked set edit = .ok prepared) :
    ∃ set' world', logAndApply extend comparator .checked set edit world =
        (.returned (), set', world') ∧
      set'.lastSequence = set.lastSequence ∧ set'.current = prepared.version := by
  obtain ⟨manifest, world', hwrite, _⟩ := returns_write set.manifest set.manifestFileNumber
    ((prepared.snapshot.map VersionEdit.encode).getD []) prepared.edit.encode world hworld
  rw [logAndApply, h]
  dsimp only
  rw [hwrite]
  exact ⟨_, _, rfl, rfl, rfl⟩

/-- The edit only adds files to level 0, with numbers that are not in use. -/
structure AddsLevel0 (comparator : Comparator) (set : VersionSet ByteKey) (edit : VersionEdit ByteKey) :
    Prop where
  deleted : edit.deletedFiles = []
  level : ∀ added ∈ edit.newFiles, added.1 = 0
  fresh : ∀ added ∈ edit.newFiles, ∀ level, ∀ file ∈ set.current.files level,
    file.number ≠ added.2.number
  distinct : edit.newFiles.Pairwise (fun a b => a.2.number ≠ b.2.number)
  ordered : ∀ added ∈ edit.newFiles, comparator.internal added.2.smallest added.2.largest ≠ .gt

section Level0

variable {set : VersionSet ByteKey} {edit : VersionEdit ByteKey} (h : AddsLevel0 comparator set edit)
include h

theorem AddsLevel0.trustedFiles :
    VersionBuilder.TrustedFiles comparator.internal set.current edit := by
  refine ⟨fun d hd => ?_, fun added hadded level file hfile heq => ?_, h.distinct, h.ordered⟩
  · rw [h.deleted] at hd
    cases hd
  · exact absurd heq (h.fresh added hadded level file hfile)

theorem AddsLevel0.levelDeletions (level : Level) : VersionBuilder.levelDeletions edit level = [] := by
  rw [VersionBuilder.levelDeletions, h.deleted]
  rfl

theorem AddsLevel0.lower (level : Level) (hne : level ≠ 0) :
    (VersionBuilder.buildTrusted comparator.internal set.current edit).files level =
      set.current.files level := by
  have hadditions : VersionBuilder.levelAdditions edit level = [] := by
    rw [VersionBuilder.levelAdditions, List.map_eq_nil_iff, List.filter_eq_nil_iff]
    intro added hadded hl
    exact hne ((of_decide_eq_true hl).symm.trans (h.level added hadded))
  show VersionBuilder.mergeLevelFiles _ _ _ _ = _
  rw [h.levelDeletions, hadditions, VersionBuilder.mergeLevelFiles]
  simp [VersionBuilder.sortFiles, VersionBuilder.mergeAdditions, VersionBuilder.retained]

theorem AddsLevel0.perm :
    ((VersionBuilder.buildTrusted comparator.internal set.current edit).files 0).Perm
      (set.current.files 0 ++ edit.newFiles.map (fun added => makeVersionFile added.2)) := by
  have hadditions : VersionBuilder.levelAdditions edit 0 =
      edit.newFiles.map (fun added => makeVersionFile added.2) := by
    rw [VersionBuilder.levelAdditions, List.filter_eq_self.mpr]
    exact fun added hadded => decide_eq_true (h.level added hadded)
  have hperm := @VersionBuilder.buildTrusted_perm _ comparator.internal set.current edit 0
  rw [h.levelDeletions, hadditions] at hperm
  simpa [VersionBuilder.retained] using hperm

theorem AddsLevel0.accept [Std.TransCmp comparator.internal]
    (hvalid : set.current.Valid comparator.internal) (hfailure : set.failure = none)
    (hchecked : Checked comparator set edit) :
    accept comparator .checked set edit = .ok (set.prepare comparator.name edit
      (VersionBuilder.buildTrusted comparator.internal set.current edit)) := by
  refine accept_of_checked hfailure (validate_of_checked hchecked) ?_
  have htrusted : VersionBuilder.Trusted comparator.internal set.current edit := by
    refine ⟨h.trustedFiles, fun level hne => ?_⟩
    rw [h.lower level hne]
    exact hvalid.disjoint level hne
  obtain ⟨builder, happly, hrepresents⟩ := VersionBuilder.apply_of_trusted
    (VersionBuilder.ofVersion_represents hvalid.toListed) h.trustedFiles
  refine Result.bind_eq_ok.mpr ⟨builder, happly, ?_⟩
  exact VersionBuilder.build_of_represents
    (VersionBuilder.buildTrusted_valid hvalid.toListed htrusted) hrepresents

end Level0

end VersionSet

/-! ## The selected logs -/

/-- The directory has this file. -/
def Listed (names : List Bytes) (file : FileName) : Prop :=
  ∃ name ∈ names, parseFileName name = some file

/-- The logs that recovery has to replay. -/
def VersionSet.Selects (set : VersionSet ByteKey) (number : Nat) : Prop :=
  set.logNumber ≤ number ∨ number = set.prevLogNumber

def selectedLog (currentLog previousLog : Nat) (name : Bytes) : Option Nat :=
  match parseFileName name with
  | some (.log number) => if currentLog ≤ number ∨ number = previousLog then some number else none
  | _ => none

theorem listed_concat {name : Bytes} {names : List Bytes} {file : FileName} :
    Listed (names ++ [name]) file ↔ Listed names file ∨ parseFileName name = some file := by
  simp [Listed, or_and_right, exists_or]

theorem selectedLog_eq {currentLog previousLog number : Nat} {name : Bytes} :
    selectedLog currentLog previousLog name = some number ↔
      parseFileName name = some (.log number) ∧ (currentLog ≤ number ∨ number = previousLog) := by
  unfold selectedLog
  split
  · next found hparse =>
    rw [hparse]
    constructor
    · intro h
      obtain ⟨hselected, hfound⟩ := Option.ite_none_right_eq_some.mp h
      obtain rfl := Option.some.inj hfound
      exact ⟨rfl, hselected⟩
    · rintro ⟨hfound, hselected⟩
      cases hfound
      exact if_pos hselected
  · next hnot =>
    constructor
    · exact fun h => nomatch h
    · exact fun h => absurd h.1 (hnot number)

theorem collectReplayInputs_eq (names : List Bytes) (currentLog previousLog : Nat) :
    (∀ number, number ∈ (collectReplayInputs names currentLog previousLog).tables ↔
        Listed names (.table number)) ∧
      (collectReplayInputs names currentLog previousLog).logs =
        names.filterMap (selectedLog currentLog previousLog) := by
  induction names using List.reverseRecOn with
  | nil => exact ⟨fun number => by simp [collectReplayInputs, Listed], rfl⟩
  | append_singleton names name ih =>
    obtain ⟨htables, hlogs⟩ := ih
    rw [collectReplayInputs] at htables hlogs
    rw [collectReplayInputs, List.foldl_append, List.filterMap_append, ← hlogs]
    simp only [List.foldl_cons, List.foldl_nil, listed_concat, ← htables, List.filterMap_cons,
      List.filterMap_nil, selectedLog]
    cases parseFileName name with
    | none => simp
    | some file =>
      cases file with
      | table number => simp [or_comm, eq_comm]
      | log number =>
        dsimp only
        split
        · simp
        · simp
      | descriptor number => simp
      | temp number => simp
      | current => simp
      | lock => simp

namespace RecoveryContext

variable {context : RecoveryContext} {names : List Bytes} {set : VersionSet ByteKey}

theorem validateReferencedTableFiles_eq {existing : List Nat}
    (h : ∀ level, ∀ file ∈ set.current.files level, file.number ∈ existing) :
    context.validateReferencedTableFiles set.current existing = .ok () := by
  refine Result.forM_eq_ok.mpr (fun level _ => Result.forM_eq_ok.mpr (fun file hfile => ?_))
  exact if_pos (List.contains_iff_mem.mpr (h level file hfile))

theorem markReplayLogNumbersUsed_eq (logs : List Nat) : ∀ {set : VersionSet ByteKey},
    (∀ number ∈ logs, number < fileNumberLimit) →
      ∃ next, markReplayLogNumbersUsed set logs = .ok { set with nextFileNumber := next } ∧
        set.nextFileNumber ≤ next ∧ ∀ number ∈ logs, number < next := by
  induction logs with
  | nil => exact fun {set} _ => ⟨set.nextFileNumber, rfl, Nat.le_refl _, fun _ h => nomatch h⟩
  | cons number logs ih =>
    intro set hlimit
    obtain ⟨hnumber, hlogs⟩ := List.forall_mem_cons.mp hlimit
    obtain ⟨next, hmark, hle, hlt⟩ :=
      @ih { set with nextFileNumber := max set.nextFileNumber (number + 1) } hlogs
    dsimp only at hle
    refine ⟨next, ?_, by omega, List.forall_mem_cons.mpr ⟨by omega, hlt⟩⟩
    rw [markReplayLogNumbersUsed, List.foldlM_cons, VersionSet.markFileNumberUsed,
      if_neg (Nat.not_le.mpr hnumber)]
    exact hmark

theorem prepareLogsForReplay_eq (context : RecoveryContext) (hnames : names.Nodup)
    (htables : ∀ level, ∀ file ∈ set.current.files level, Listed names (.table file.number))
    (hlimit : ∀ number, Listed names (.log number) → set.Selects number → number < fileNumberLimit) :
    ∃ logs next, context.prepareLogsForReplay names set =
        .ok (logs, { set with nextFileNumber := next }) ∧
      logs.Pairwise (· < ·) ∧
      (∀ number, number ∈ logs ↔ Listed names (.log number) ∧ set.Selects number) ∧
      set.nextFileNumber ≤ next ∧ ∀ number ∈ logs, number < next := by
  obtain ⟨hcollected, hlogs⟩ := collectReplayInputs_eq names set.logNumber set.prevLogNumber
  have hperm := List.mergeSort_perm (names.filterMap (selectedLog set.logNumber set.prevLogNumber))
    (fun a b => a ≤ b)
  have hmem : ∀ number, number ∈ (names.filterMap (selectedLog set.logNumber set.prevLogNumber)).mergeSort
      (fun a b => a ≤ b) ↔ Listed names (.log number) ∧ set.Selects number := by
    intro number
    rw [hperm.mem_iff, List.mem_filterMap]
    simp only [selectedLog_eq]
    constructor
    · rintro ⟨name, hname, hparse, hselected⟩
      exact ⟨⟨name, hname, hparse⟩, hselected⟩
    · rintro ⟨⟨name, hname, hparse⟩, hselected⟩
      exact ⟨name, hname, hparse, hselected⟩
  -- A log has one name, so a listing without duplicates names it once.
  have hnodup : (names.filterMap (selectedLog set.logNumber set.prevLogNumber)).Nodup := by
    refine hnames.filterMap (fun name name' number h h' => ?_)
    rw [← (text_of_parseFileName (selectedLog_eq.mp h).1).1,
      ← (text_of_parseFileName (selectedLog_eq.mp h').1).1]
  have hsorted : ((names.filterMap (selectedLog set.logNumber set.prevLogNumber)).mergeSort
      (fun a b => a ≤ b)).Pairwise (· < ·) := by
    have hle : ((names.filterMap (selectedLog set.logNumber set.prevLogNumber)).mergeSort
        (fun a b => a ≤ b)).Pairwise (fun a b => decide (a ≤ b) = true) :=
      List.pairwise_mergeSort
        (fun a b c hab hbc => decide_eq_true ((of_decide_eq_true hab).trans (of_decide_eq_true hbc)))
        (fun a b => by simpa using Nat.le_total a b) _
    exact (hle.and (hperm.nodup_iff.mpr hnodup)).imp
      (fun h => Nat.lt_of_le_of_ne (of_decide_eq_true h.1) h.2)
  obtain ⟨next, hmark, hnext, hbelow⟩ := markReplayLogNumbersUsed_eq _
    (fun number hnumber => hlimit number ((hmem number).mp hnumber).1 ((hmem number).mp hnumber).2)
  refine ⟨_, next, ?_, hsorted, hmem, hnext, hbelow⟩
  rw [prepareLogsForReplay, hlogs, validateReferencedTableFiles_eq
    (fun level file hfile => (hcollected _).mpr (htables level file hfile))]
  show (markReplayLogNumbersUsed set _).bind _ = _
  rw [hmark]
  rfl

/-! ## The new log -/

theorem returns_createRecoveryLog (context : RecoveryContext) (number : Nat) :
    (context.createRecoveryLog number).Returns := by
  refine (FileM.returns_perform _).bind (fun _ => ?_)
  cases context.syncWalCreation with
  | true =>
    exact (FileM.returns_perform _).bind fun _ => (FileM.returns_perform _).bind fun _ =>
      FileM.returns_pure _
  | false => exact FileM.returns_pure _

section Install

variable {start : VersionSet ByteKey} {logs : List Nat} {batches : List Batch} {replay : LogReplay}

theorem Replays.number_bounds (h : context.Replays start logs batches replay) {table : RecoveryTable}
    (htable : table ∈ replay.tables) : start.nextFileNumber ≤ table.metadata.number ∧
      table.metadata.number < start.nextFileNumber + replay.tables.length := by
  have hmem : table.metadata.number ∈ replay.tables.map (fun table => table.metadata.number) :=
    List.mem_map_of_mem htable
  rw [h.numbers, List.mem_range'_1] at hmem
  exact hmem

theorem Replays.ordered (h : context.Replays start logs batches replay) {table : RecoveryTable}
    (htable : table ∈ replay.tables) :
    context.comparator.internal table.metadata.smallest table.metadata.largest ≠ .gt := by
  obtain ⟨parts, _, _, htables, hparts, _⟩ := h.parts
  rw [htables] at htable
  obtain ⟨part, hpart, rfl⟩ := List.mem_map.mp htable
  exact (hparts part hpart).ordered

def recoveryEdit (replay : LogReplay) (number : Nat) : VersionEdit ByteKey where
  logNumber := some number
  prevLogNumber := some 0
  newFiles := replay.tables.map (fun table => (0, table.metadata))

def recoveryVersions (start : VersionSet ByteKey) (replay : LogReplay) (last : Nat) :
    VersionSet ByteKey :=
  { start with
    nextFileNumber := start.nextFileNumber + replay.tables.length + 1
    lastSequence := last }

section

variable (h : context.Replays start logs batches replay)

include h

theorem Replays.checked (hsound : VersionSet.Sound context.comparator start)
    (hlimit : start.nextFileNumber + replay.tables.length < fileNumberLimit) (last : Nat) :
    VersionSet.Checked context.comparator (recoveryVersions start replay last)
      (recoveryEdit replay (start.nextFileNumber + replay.tables.length)) := by
  have hlog := hsound.log
  refine ⟨hlimit, (fun _ hname => nomatch hname), ?_, Nat.lt_succ_self _, ?_, ?_⟩
  · show start.logNumber ≤ start.nextFileNumber + replay.tables.length
    omega
  · intro number hnumber
    cases hnumber
    exact Nat.succ_pos _
  · intro added hadded
    obtain ⟨table, htable, rfl⟩ := List.mem_map.mp hadded
    exact (h.number_bounds htable).2.trans (Nat.lt_succ_self _)

theorem Replays.addsLevel0
    (hsound : VersionSet.Sound context.comparator start) (number last : Nat) :
    VersionSet.AddsLevel0 context.comparator (recoveryVersions start replay last)
      (recoveryEdit replay number) where
  deleted := rfl
  level := by
    intro added hadded
    obtain ⟨table, _, rfl⟩ := List.mem_map.mp hadded
    rfl
  fresh := by
    intro added hadded level file hfile
    obtain ⟨table, htable, rfl⟩ := List.mem_map.mp hadded
    exact ((hsound.files level file hfile).number_lt.trans_le (h.number_bounds htable).1).ne
  distinct := by
    refine List.pairwise_map.mpr (h.tables_pairwise.imp (fun hab => ?_))
    exact hab.1.ne
  ordered := by
    intro added hadded
    obtain ⟨table, htable, rfl⟩ := List.mem_map.mp hadded
    exact h.ordered htable

/-- The tables and the new log are recorded. -/
theorem installRecoveryLog_eq [Std.TransCmp context.comparator.internal]
    (hsound : VersionSet.Sound context.comparator start) (hfailure : start.failure = none)
    (hlimit : start.nextFileNumber + replay.tables.length < fileNumberLimit) (last : Nat)
    {world : World} (hworld : world.Reliable) :
    ∃ writer versions world', context.installRecoveryLog (replay.versions.setLastSequence last)
        replay.edit world =
          (.returned (⟨writer, start.nextFileNumber + replay.tables.length⟩, versions), world') ∧
      versions.lastSequence = last ∧
      (versions.current.files 0).Perm (start.current.files 0 ++
        replay.tables.map (fun table => makeVersionFile table.metadata)) ∧
      ∀ level : Level, level ≠ 0 → versions.current.files level = start.current.files level := by
  obtain ⟨writer, world₁, hcreate, hworld₁⟩ := context.returns_createRecoveryLog
    (start.nextFileNumber + replay.tables.length) world hworld
  have hadds := h.addsLevel0 hsound (start.nextFileNumber + replay.tables.length) last
  have haccept := hadds.accept hsound.valid hfailure (h.checked hsound hlimit last)
  obtain ⟨versions, world', hlogged, hlast, hcurrent⟩ :=
    VersionSet.logAndApply_reliable context.extend hworld₁ haccept
  refine ⟨writer, versions, world', ?_, hlast, ?_, fun level hne => ?_⟩
  · have hnumber : (replay.versions.setLastSequence last).newFileNumber =
        (start.nextFileNumber + replay.tables.length, recoveryVersions start replay last) := by
      rw [h.versions]
      rfl
    have hedit : (replay.edit.setLogNumber (start.nextFileNumber + replay.tables.length)
        ).setPrevLogNumber 0 = recoveryEdit replay (start.nextFileNumber + replay.tables.length) := by
      rw [h.edit]
      rfl
    rw [installRecoveryLog, hnumber]
    dsimp only
    rw [hcreate]
    dsimp only
    rw [hedit, hlogged]
  · have hperm := hadds.perm
    simp only [recoveryEdit, List.map_map] at hperm
    rw [hcurrent]
    exact hperm
  · rw [hcurrent]
    exact hadds.lower level hne

end

end Install

/-! ## Recoveries -/

/-- Live tables exist, numbers are below the limit, the files can be read and written, and sequences
have 56 bits. -/
structure Replayable (context : RecoveryContext) (names : List Bytes) (set : VersionSet ByteKey)
    (world : World) : Prop where
  nodup : names.Nodup
  tables : ∀ level, ∀ file ∈ set.current.files level, Listed names (.table file.number)
  numbers : ∀ number, Listed names (.log number) → set.Selects number → number < fileNumberLimit
  newNumber : ∀ logs versions replay, context.prepareLogsForReplay names set = .ok (logs, versions) →
    context.replayLogs world.disk logs { versions } = .ok replay →
    replay.versions.nextFileNumber < fileNumberLimit
  opens : ∀ number, Listed names (.log number) → set.Selects number →
    ∃ file, openSequential context.policy world.disk (.log number) = .ok file
  builds : ∀ number entries, ∃ size, context.writeTable number entries = .ok size
  reliable : world.Reliable
  sequences : ∀ number, Listed names (.log number) → set.Selects number →
    Bounded (context.logRecords world.disk number)

/-- The batches of the logs are in new tables of level 0, later ones in tables with larger numbers. -/
structure RecoversExactly (set : VersionSet ByteKey) (logs : List Nat) (batches : List Batch)
    (recovered : RecoveredDatabase) : Prop where
  opened : recovered.replay.opened = logs
  level0 : (recovered.versions.current.files 0).Perm (set.current.files 0 ++
    recovered.replay.tables.map (fun table => makeVersionFile table.metadata))
  lower : ∀ level : Level, level ≠ 0 →
    recovered.versions.current.files level = set.current.files level
  entries : (recovered.replay.tables.flatMap RecoveryTable.entries).Perm (batchEntries batches)
  inside : ∀ batch ∈ batches, batch.writes ≠ [] → ∃ table ∈ recovered.replay.tables,
    ∀ entry ∈ batch.entries.map entryOf, entry ∈ table.entries
  ordered : recovered.replay.tables.Pairwise (fun a b => a.metadata.number < b.metadata.number ∧
    ∀ x ∈ a.entries, ∀ y ∈ b.entries, x.sequence < y.sequence)
  lastSequence : recovered.versions.lastSequence = max set.lastSequence (lastUsed batches)
  tableNumbers : ∀ table ∈ recovered.replay.tables, table.metadata.number ∉ logs
  logNumber : recovered.log.number ∉ logs

theorem replayAndInstallLogs_eq [Std.TransCmp context.comparator.internal] {world : World}
    (hset : VersionSet.Recovered context.extend context.comparator set)
    (h : context.Replayable names set world) :
    ∃ logs : List Nat, logs.Pairwise (· < ·) ∧
      (∀ number, number ∈ logs ↔ Listed names (.log number) ∧ set.Selects number) ∧
      ((∃ batches recovered world', context.replayAndInstallLogs names set world =
            (.returned recovered, world') ∧
          List.Forall₂ IsBatch (logs.flatMap (context.logRecords world.disk)) batches ∧
          Follow batches ∧ RecoversExactly set logs batches recovered) ∨
        ∃ error, context.replayAndInstallLogs names set world = (.failed error, world) ∧
          ¬∃ batches, List.Forall₂ IsBatch (logs.flatMap (context.logRecords world.disk)) batches ∧
            Follow batches) := by
  obtain ⟨hsound, hfailure⟩ := hset.sound
  obtain ⟨logs, next, hprepare, hsorted, hmem, hnext, hbelow⟩ :=
    context.prepareLogsForReplay_eq h.nodup h.tables h.numbers
  have hselected : ∀ number ∈ logs, Listed names (.log number) ∧ set.Selects number :=
    fun number hnumber => (hmem number).mp hnumber
  have hstart : VersionSet.Sound context.comparator { set with nextFileNumber := next } :=
    hsound.counters hnext hsound.last
  refine ⟨logs, hsorted, hmem, ?_⟩
  rw [replayAndInstallLogs, hprepare]
  dsimp only
  rcases replayLogs_spec h.builds
    (show 0 < ({ set with nextFileNumber := next } : VersionSet _).nextFileNumber from
      Nat.zero_lt_of_lt hstart.log)
    (fun number hnumber => h.opens number (hselected number hnumber).1 (hselected number hnumber).2)
    (fun number hnumber =>
      h.sequences number (hselected number hnumber).1 (hselected number hnumber).2) with
    ⟨replay, batches, hreplay, hbatches, hreplays, hmemtable⟩ | ⟨error, herror, hnot⟩
  · left
    have hlimit := h.newNumber _ _ _ hprepare hreplay
    rw [hreplays.versions] at hlimit
    obtain ⟨writer, versions, world', hinstall, hlast, hlevel0, hlower⟩ := installRecoveryLog_eq
      hreplays hstart hfailure hlimit (max replay.versions.lastSequence replay.lastSequence) h.reliable
    rw [hreplay]
    dsimp only
    rw [hinstall]
    refine ⟨batches, _, world', rfl, hbatches, hreplays.follow, hreplays.opened, hlevel0, hlower,
      hreplays.entries_perm hmemtable, fun batch hbatch => hreplays.inside hmemtable hbatch,
      hreplays.tables_pairwise, ?_, fun table htable hlog => ?_, fun hlog => ?_⟩
    · rw [hlast, hreplays.last, hreplays.versions]
    · have hbounds := (hreplays.number_bounds htable).1
      have hlt := hbelow _ hlog
      exact absurd hbounds (Nat.not_le.mpr hlt)
    · exact absurd (hbelow _ hlog) (Nat.not_lt.mpr (Nat.le_add_right _ _))
  · right
    rw [herror]
    exact ⟨error, rfl, hnot⟩

def smallContext : RecoveryContext where
  extend := fun crc _ => crc
  comparator := VersionSet.bytewise
  policy := ⟨fun _ _ => 8, fun _ => ""⟩
  path := fun _ => ""
  memtableSizeThreshold := 0
  syncWalCreation := true
  memoryUsage := List.length
  writeTable := fun _ entries => .ok entries.length

/-- A put at sequence 1 and a deletion at sequence 2. -/
def twoBatches : List Batch := [⟨1, [⟨.value, [97], [98]⟩]⟩, ⟨2, [⟨.deletion, [97], []⟩]⟩]

def twoRecords : List Bytes :=
  [[1, 0, 0, 0, 0, 0, 0, 0, 1, 0, 0, 0, 1, 1, 97, 1, 98],
    [2, 0, 0, 0, 0, 0, 0, 0, 1, 0, 0, 0, 0, 1, 97]]

theorem twoRecords_isBatch : List.Forall₂ IsBatch twoRecords twoBatches :=
  .cons ⟨by decide, by decide, by decide, .put rfl rfl rfl .nil⟩
    (.cons ⟨by decide, by decide, by decide, .delete rfl rfl .nil⟩ .nil)

theorem twoBatches_follow : Follow twoBatches :=
  follow_concat.mpr ⟨follow_concat.mpr ⟨follow_nil, by decide⟩, by decide⟩

def smallWorld : World where
  disk := fun file => if file = .log 7 then some (WalReader.recordsBytes (fun crc _ => crc) 0 twoRecords)
    else none

instance : Std.TransCmp smallContext.comparator.internal :=
  inferInstanceAs (Std.TransCmp VersionSet.bytewise.internal)

theorem logRecords_small : smallContext.logRecords smallWorld.disk 7 = twoRecords :=
  logRecords_written rfl

theorem parse_small : parseFileName (FileName.log 7).text = some (.log 7) := by decide

theorem listed_small {file : FileName} (h : Listed [(FileName.log 7).text] file) : file = .log 7 := by
  obtain ⟨name, hname, hparse⟩ := h
  rw [List.mem_singleton.mp hname, parse_small] at hparse
  exact (Option.some.inj hparse).symm

theorem bounded_small : Bounded twoRecords := by
  intro record hrecord batch hbatch
  rw [← hbatch.sequence, ← hbatch.count]
  rcases List.mem_pair.mp hrecord with rfl | rfl <;> decide

theorem created_small : ∃ set, VersionSet.Recovered smallContext.extend smallContext.comparator set ∧
    set.nextFileNumber = 2 ∧ set.current = {} ∧ set.logNumber = 0 ∧ set.lastSequence = 0 := by
  have hcreate : ∃ set world, VersionSet.create smallContext.extend VersionSet.bytewise
      { disk := fun _ => none } = (.returned set, world) ∧ set.nextFileNumber = 2 ∧
        set.current = {} ∧ set.logNumber = 0 ∧ set.lastSequence = 0 := by
    unfold VersionSet.create VersionSet.logAndApply
    rw [VersionSet.accept_empty]
    exact ⟨_, _, rfl, rfl, rfl, rfl, rfl⟩
  obtain ⟨set, world, hcreate, hset⟩ := hcreate
  exact ⟨set, .created hcreate, hset⟩

theorem prepare_small {set : VersionSet ByteKey} (hnext : set.nextFileNumber = 2)
    (hcurrent : set.current = {}) (hlog : set.logNumber = 0) :
    smallContext.prepareLogsForReplay [(FileName.log 7).text] set =
      .ok ([7], { set with nextFileNumber := 8 }) := by
  have hcollect : collectReplayInputs [(FileName.log 7).text] set.logNumber set.prevLogNumber =
      ⟨[], [7]⟩ := by
    rw [hlog, collectReplayInputs, List.foldl_cons, parse_small]
    rfl
  have hvalidate : smallContext.validateReferencedTableFiles set.current [] = .ok () := by
    refine validateReferencedTableFiles_eq (fun level file hfile => ?_)
    rw [hcurrent] at hfile
    cases hfile
  rw [prepareLogsForReplay, hcollect, hvalidate]
  dsimp only
  rw [List.mergeSort_singleton, markReplayLogNumbersUsed, List.foldlM_cons, VersionSet.markFileNumberUsed,
    if_neg (by decide), hnext]
  rfl

theorem replayable_small {set : VersionSet ByteKey} (hnext : set.nextFileNumber = 2)
    (hcurrent : set.current = {}) (hlog : set.logNumber = 0) :
    smallContext.Replayable [(FileName.log 7).text] set smallWorld := by
  have hopen : ∃ file, openSequential smallContext.policy smallWorld.disk (.log 7) = .ok file :=
    ⟨_, rfl⟩
  have hbounded : Bounded (smallContext.logRecords smallWorld.disk 7) := by
    rw [logRecords_small]
    exact bounded_small
  refine ⟨List.nodup_singleton _, ?_, ?_, ?_, ?_, fun _ entries => ⟨entries.length, rfl⟩,
    fun _ => rfl, ?_⟩
  · intro level file hfile
    rw [hcurrent] at hfile
    cases hfile
  · intro number hlisted _
    cases listed_small hlisted
    decide
  · intro logs versions replay hprepare hreplay
    rw [prepare_small hnext hcurrent hlog] at hprepare
    obtain ⟨rfl, rfl⟩ := Prod.mk.inj (Except.ok.inj hprepare)
    have hbuilds : ∀ number entries, ∃ size, smallContext.writeTable number entries = .ok size :=
      fun _ entries => ⟨entries.length, rfl⟩
    rcases replayLogs_spec hbuilds
      (show 0 < ({ set with nextFileNumber := 8 } : VersionSet ByteKey).nextFileNumber from
        Nat.succ_pos 7)
      (List.forall_mem_singleton.mpr hopen) (List.forall_mem_singleton.mpr hbounded) with
      ⟨replay', batches, hreplay', hbatches, hreplays, _⟩ | ⟨error, herror, _⟩
    · rw [hreplay] at hreplay'
      obtain rfl := Except.ok.inj hreplay'
      have hlength := hbatches.length_eq
      rw [List.flatMap_singleton, logRecords_small] at hlength
      have htables : replay.tables.length ≤ 2 :=
        hreplays.length_tables_le.trans (Nat.le_of_eq hlength.symm)
      rw [hreplays.versions]
      show 8 + replay.tables.length < 2 ^ 63
      omega
    · rw [hreplay] at herror
      cases herror
  · intro number hlisted _
    cases listed_small hlisted
    exact hopen
  · intro number hlisted _
    cases listed_small hlisted
    exact hbounded

end RecoveryContext

end ModernLevelDB
