import ModernLevelDB.Metadata.LogAndApplyRuns
import ModernLevelDB.Metadata.Recover
import ModernLevelDB.Wal.WalRoundTrip

/-! # Recovery as a simulation of the edits

A recovery that has replayed a MANIFEST mirrors a core: its builder holds the files of the current
version, and its pointers and counters are those of the core. The snapshot record establishes that, and
every edit record keeps it, whichever overload wrote the edit. -/
namespace ModernLevelDB.VersionSet
set_option autoImplicit false

variable {extend : CrcExtend} {comparator : Comparator}

/-! ## From the files to the records -/

theorem readCurrentContents_eq (fuel : Nat) : ∀ (file : SequentialFile) (contents : Bytes),
    file.rest.length < fuel → readCurrentContents fuel file contents = contents ++ file.rest := by
  induction fuel with
  | zero => intro _ _ h; omega
  | succ fuel ih =>
    intro file contents hfuel
    obtain ⟨chunk, file', hread, hrest, _, hend⟩ := file.read_eq (show 0 < 64 by decide)
    rw [hrest, List.length_append] at hfuel
    rw [readCurrentContents, hread, hrest]
    dsimp only
    split
    · next hnil => rw [hnil, hend hnil, List.append_nil, List.append_nil]
    · next hne =>
      have hpos := List.length_pos_iff.mpr hne
      rw [ih _ _ (by omega), List.append_assoc]

theorem openSelectedManifest_eq (policy : ReadPolicy) {disk : Disk} {number : Nat} {contents : Bytes}
    (h0 : number ≠ 0) (hlimit : number < fileNumberLimit)
    (hcurrent : disk .current = some (currentFileContents number))
    (hmanifest : disk (.descriptor number) = some contents) :
    openSelectedManifest policy disk =
      .ok ⟨number, { rest := contents, sizes := policy.sizes (.descriptor number) }⟩ := by
  have hread : readCurrent policy disk = .ok (currentFileContents number) := by
    unfold readCurrent openSequential
    rw [hcurrent]
    show Except.ok _ = Except.ok _
    rw [readCurrentContents_eq _ _ _ (Nat.lt_succ_self _)]
    rfl
  have hparse := parseCurrentFileContents_currentFileContents
    (show number < 2 ^ 64 by unfold fileNumberLimit at hlimit; omega) h0
  unfold openSelectedManifest
  rw [hread]
  simp only [bind, Except.bind, hparse]
  rw [if_neg (by omega)]
  unfold openSequential
  rw [hmanifest]

namespace ManifestRecovery

/-- Replaying these records gives this recovery, at whatever offsets they are. -/
inductive Replays (comparator : Comparator) :
    ManifestRecovery → List Bytes → ManifestRecovery → Prop where
  | nil (recovery : ManifestRecovery) : Replays comparator recovery [] recovery
  | cons {recovery next result : ManifestRecovery} {data : Bytes} {rest : List Bytes}
      (h : ∀ offset, recovery.applyRecord comparator data offset = .ok next)
      (hrest : Replays comparator next rest result) :
      Replays comparator recovery (data :: rest) result

variable {recovery : ManifestRecovery} {records : List Bytes}

theorem Replays.replay {result : ManifestRecovery} (h : Replays comparator recovery records result)
    {events : List WalReadEvent}
    (hevents : List.Forall₂ (fun event data => ∃ offset, event = .record data offset) events records) :
    recovery.replay comparator events = .ok result := by
  induction h generalizing events with
  | nil =>
    cases hevents
    rfl
  | cons h _ ih =>
    cases hevents with
    | cons hevent hrest =>
      obtain ⟨offset, rfl⟩ := hevent
      rw [ManifestRecovery.replay, h offset]
      exact ih hrest

theorem Replays.concat {middle result : ManifestRecovery} {data : Bytes}
    (h : Replays comparator recovery records middle)
    (hlast : ∀ offset, middle.applyRecord comparator data offset = .ok result) :
    Replays comparator recovery (records ++ [data]) result := by
  induction h with
  | nil => exact .cons hlast (.nil _)
  | cons h _ ih => exact .cons h (ih hlast)

/-- The records of a MANIFEST that replay decide what recovery returns. -/
theorem recover_eq (comparator : Comparator) (policy : ReadPolicy) {disk : Disk} {number cut : Nat}
    (h0 : number ≠ 0) (hlimit : number < fileNumberLimit)
    (hcurrent : disk .current = some (currentFileContents number))
    (hmanifest : disk (.descriptor number) =
      some ((WalReader.recordsBytes extend 0 records).take cut)) :
    ∃ count, count ≤ records.length ∧
      (count = records.length ∨
        cut < (WalReader.recordsBytes extend 0 (records.take (count + 1))).length) ∧
      ∀ result, Replays comparator {} (records.take count) result →
        recover extend comparator policy disk = result.finish comparator number := by
  let file : SequentialFile :=
    ⟨(WalReader.recordsBytes extend 0 records).take cut, policy.sizes (.descriptor number), 0⟩
  obtain ⟨count, hcount, hevents, hcut⟩ := WalReader.events_take extend records
    (show file.rest = _ from rfl) (Nat.lt_succ_self (2 * file.rest.length))
  refine ⟨count, hcount, hcut, fun result hresult => ?_⟩
  unfold recover
  rw [openSelectedManifest_eq policy h0 hlimit hcurrent hmanifest]
  have hreplay : ManifestRecovery.replay comparator {} (manifestEvents extend file) = .ok result :=
    hresult.replay hevents
  show (ManifestRecovery.replay comparator {} (manifestEvents extend file)).bind _ = _
  rw [hreplay]
  rfl

/-! ## One record -/

def after (recovery : ManifestRecovery) (edit : VersionEdit ByteKey) (builder : VersionBuilder ByteKey) :
    ManifestRecovery where
  builder := builder
  compactPointers := applyCompactPointerEdits edit recovery.compactPointers
  nextFile := edit.nextFileNumber.or recovery.nextFile
  logNumber := edit.logNumber.or recovery.logNumber
  lastSequence := edit.lastSequence.or recovery.lastSequence
  prevLogNumber := edit.prevLogNumber.getD recovery.prevLogNumber
  largestNumber := max (max (edit.newFiles.foldl (fun largest added => max largest added.2.number)
    recovery.largestNumber) ((edit.logNumber.or recovery.logNumber).getD 0))
      (edit.prevLogNumber.getD recovery.prevLogNumber)

theorem accumulateCounters_eq (recovery : ManifestRecovery) (edit : VersionEdit ByteKey)
    (h : ∀ number ∈ edit.logNumber, ∀ current ∈ recovery.logNumber, current ≤ number) (offset : Nat) :
    recovery.accumulateCounters edit offset =
      .ok { recovery.after edit recovery.builder with compactPointers := recovery.compactPointers } := by
  have hlog : (recovery.includeAddedFileNumbers edit).accumulateLogNumber edit offset =
      .ok { recovery.includeAddedFileNumbers edit with
        logNumber := edit.logNumber.or recovery.logNumber } := by
    unfold accumulateLogNumber
    cases hl : edit.logNumber with
    | none => rfl
    | some number =>
      have hany : recovery.logNumber.any (fun current => decide (number < current)) = false := by
        cases hr : recovery.logNumber with
        | none => rfl
        | some current =>
          have := h number hl current hr
          simp only [Option.any_some, decide_eq_false_iff_not]
          omega
      show (if recovery.logNumber.any (fun current => decide (number < current)) then _ else _) = _
      rw [hany]
      rfl
  unfold accumulateCounters
  rw [hlog]
  rfl

theorem apply_persistedEdit (cmp : ByteKey → ByteKey → Ordering) (builder : VersionBuilder ByteKey)
    (edit : VersionEdit ByteKey) :
    builder.apply cmp edit.persistedEdit = builder.apply cmp edit := by
  have hadds : ∀ (adds : List (Level × FileMetadata ByteKey)) (b : VersionBuilder ByteKey),
      (adds.map VersionEdit.persisted).foldlM (VersionBuilder.add cmp) b =
        adds.foldlM (VersionBuilder.add cmp) b := by
    intro adds
    induction adds with
    | nil => exact fun _ => rfl
    | cons added adds ih =>
      intro b
      rw [List.map_cons, List.foldlM_cons, List.foldlM_cons]
      have hadd : VersionBuilder.add cmp b (VersionEdit.persisted added) =
          VersionBuilder.add cmp b added := rfl
      rw [hadd]
      congr 1
      funext c
      exact ih c
  unfold VersionBuilder.apply
  simp only [VersionEdit.persistedEdit, hadds]

theorem applyRecord_encode {edit : VersionEdit ByteKey} {builder : VersionBuilder ByteKey}
    (hs : edit.Storable) (hname : ∀ name ∈ edit.comparatorName, name = comparator.name)
    (happly : recovery.builder.apply comparator.internal edit = .ok builder)
    (hlog : ∀ number ∈ edit.logNumber, ∀ current ∈ recovery.logNumber, current ≤ number)
    (offset : Nat) :
    recovery.applyRecord comparator edit.encode offset = .ok (recovery.after edit builder) := by
  have hcheck : checkComparator edit.persistedEdit comparator.name = .ok () := by
    unfold checkComparator VersionEdit.persistedEdit
    dsimp only
    cases hn : edit.comparatorName with
    | none => rfl
    | some name => simp [hname name hn]
  have hcounters := accumulateCounters_eq { recovery with
    builder, compactPointers := applyCompactPointerEdits edit recovery.compactPointers }
    edit.persistedEdit hlog offset
  unfold applyRecord
  rw [VersionEdit.decode_encode hs]
  simp only [atRecord, bind, Except.bind, hcheck, apply_persistedEdit, happly]
  refine hcounters.trans ?_
  simp only [after, VersionEdit.persistedEdit, List.foldl_map, VersionEdit.persisted]

/-! ## What a recovery mirrors -/

/-- The recovery holds what the MANIFEST recorded up to this core; every number in it is below
`bound`. -/
structure Mirrors (recovery : ManifestRecovery) (core : Core) (bound : Nat) : Prop where
  builder : VersionBuilder.Represents recovery.builder core.current
  pointers : recovery.compactPointers = core.compactPointers
  log : ∀ number ∈ recovery.logNumber, number ≤ core.logNumber
  largest : recovery.largestNumber < bound

/-- It also holds the counters, as every edit behind the snapshot records them. -/
structure Complete (recovery : ManifestRecovery) (core : Core) (next lastSequence : Nat) : Prop
    extends Mirrors recovery core next where
  nextFile : recovery.nextFile = some next
  logNumber : recovery.logNumber = some core.logNumber
  lastSequence : recovery.lastSequence = some lastSequence
  prevLogNumber : recovery.prevLogNumber = core.prevLogNumber

def recovered (core : Core) (next lastSequence selectedNumber : Nat) : VersionSet ByteKey where
  current := core.current
  compactPointers := core.compactPointers
  manifestFileNumber := max next (selectedNumber + 1)
  nextFileNumber := max next (selectedNumber + 1) + 1
  lastSequence := lastSequence
  logNumber := core.logNumber
  prevLogNumber := core.prevLogNumber

theorem Complete.finish [Std.TransCmp comparator.internal] {core : Core} {next lastSequence : Nat}
    (h : Complete recovery core next lastSequence) (hvalid : core.current.Valid comparator.internal)
    (hlimit : next ≤ fileNumberLimit) (selectedNumber : Nat) :
    recovery.finish comparator selectedNumber =
      .ok (recovered core next lastSequence selectedNumber) := by
  have hcounters : recovery.validateCounters = .ok (next, core.logNumber, lastSequence) := by
    have hlargest := h.largest
    unfold validateCounters
    rw [h.nextFile, h.logNumber, h.lastSequence]
    dsimp only
    rw [if_neg (by omega), if_neg (by omega)]
  unfold ManifestRecovery.finish
  rw [hcounters]
  simp only [bind, Except.bind, VersionBuilder.build_of_represents hvalid h.builder]
  rw [h.pointers, h.prevLogNumber]
  rfl

end ManifestRecovery

/-! ## Version sets in good order -/

/-- A file as a snapshot can write it and a recovery reads it back. -/
structure StoredFile (file : FileMetadata ByteKey) (next : Nat) : Prop where
  number_ne : file.number ≠ 0
  number_lt : file.number < next
  fileSize : file.fileSize < 2 ^ 64
  smallest : file.smallest.Storable
  largest : file.largest.Storable
  seeks : makeVersionFile file = file

/-- What a version set needs so that its snapshot can be recovered. -/
structure Sound (comparator : Comparator) (set : VersionSet ByteKey) : Prop where
  valid : set.current.Valid comparator.internal
  files : ∀ level, ∀ file ∈ set.current.files level, StoredFile file set.nextFileNumber
  pointers : ∀ level, ∀ key ∈ set.compactPointers level, key.Storable
  log : set.logNumber < set.nextFileNumber
  prev : set.prevLogNumber < set.nextFileNumber
  last : set.lastSequence ≤ maxSequenceNumber
  manifest_pos : 0 < set.manifestFileNumber
  manifest_lt : set.manifestFileNumber < set.nextFileNumber

/-- What the types of the source and the mutators of an edit guarantee. -/
structure Buildable (edit : VersionEdit ByteKey) : Prop where
  pointers : ∀ pointer ∈ edit.compactPointers, pointer.2.Storable
  files : ∀ added ∈ edit.newFiles, added.2.number ≠ 0 ∧ added.2.fileSize < 2 ^ 64 ∧
    added.2.smallest.Storable ∧ added.2.largest.Storable

theorem StoredFile.mono {file : FileMetadata ByteKey} {next next' : Nat} (h : StoredFile file next)
    (hle : next ≤ next') : StoredFile file next' :=
  { h with number_lt := lt_of_lt_of_le h.number_lt hle }

variable {set : VersionSet ByteKey}

theorem Sound.counters (h : Sound comparator set) {next last : Nat}
    (hnext : set.nextFileNumber ≤ next) (hlast : last ≤ maxSequenceNumber) :
    Sound comparator { set with nextFileNumber := next, lastSequence := last } :=
  { h with
    files := fun level file hf => (h.files level file hf).mono hnext
    log := lt_of_lt_of_le h.log hnext
    prev := lt_of_lt_of_le h.prev hnext
    last := hlast
    manifest_lt := lt_of_lt_of_le h.manifest_lt hnext }

/-- What `LogAndApply` has checked of an edit. -/
structure Checked (comparator : Comparator) (set : VersionSet ByteKey) (edit : VersionEdit ByteKey) :
    Prop where
  capacity : set.nextFileNumber ≤ fileNumberLimit
  name : ∀ name ∈ edit.comparatorName, name = comparator.name
  log_mono : set.logNumber ≤ edit.logNumber.getD set.logNumber
  log_lt : edit.logNumber.getD set.logNumber < set.nextFileNumber
  prev_lt : ∀ number ∈ edit.prevLogNumber, number < set.nextFileNumber
  files_lt : ∀ added ∈ edit.newFiles, added.2.number < set.nextFileNumber

variable {edit : VersionEdit ByteKey}

theorem validate_eq_ok (h : set.validate comparator.name edit = .ok ()) :
    Checked comparator set edit := by
  obtain ⟨_, hcapacity, h⟩ := Result.bind_eq_ok.mp h
  obtain ⟨_, hname, h⟩ := Result.bind_eq_ok.mp h
  obtain ⟨_, hlog, h⟩ := Result.bind_eq_ok.mp h
  obtain ⟨_, hprev, h⟩ := Result.bind_eq_ok.mp h
  have hlog' : ¬(edit.logNumber.getD set.logNumber < set.logNumber ∨
      set.nextFileNumber ≤ edit.logNumber.getD set.logNumber) := by
    intro hbad
    unfold checkCurrentLogNumber at hlog
    dsimp only at hlog
    rw [if_pos hbad] at hlog
    cases hlog
  refine ⟨?_, ?_, by omega, by omega, ?_, ?_⟩
  · by_contra hbad
    unfold checkFileNumberCapacity at hcapacity
    rw [if_pos (by omega)] at hcapacity
    cases hcapacity
  · intro name hn
    by_contra hbad
    unfold checkComparatorName at hname
    rw [show edit.comparatorName = some name from hn] at hname
    dsimp only at hname
    rw [if_pos hbad] at hname
    cases hname
  · intro number hn
    by_contra hbad
    unfold checkPreviousLogNumber at hprev
    rw [show edit.prevLogNumber = some number from hn, Option.getD_some, if_pos (by omega)] at hprev
    cases hprev
  · intro added ha
    have hadded := Result.forM_eq_ok.mp h added ha
    by_contra hbad
    rw [if_pos (by omega)] at hadded
    cases hadded

theorem validate_of_checked (h : Checked comparator set edit) :
    set.validate comparator.name edit = .ok () := by
  have hcapacity : checkFileNumberCapacity set.nextFileNumber = .ok () :=
    if_neg (Nat.not_lt.mpr h.capacity)
  have hname : checkComparatorName edit.comparatorName comparator.name = .ok () := by
    unfold checkComparatorName
    cases hedit : edit.comparatorName with
    | none => rfl
    | some name => exact if_neg (not_not.mpr (h.name name hedit))
  have hlog : checkCurrentLogNumber edit.logNumber set.logNumber set.nextFileNumber = .ok () :=
    if_neg (not_or.mpr ⟨Nat.not_lt.mpr h.log_mono, Nat.not_le.mpr h.log_lt⟩)
  have hprev : checkPreviousLogNumber edit.prevLogNumber set.nextFileNumber = .ok () := by
    refine if_neg (Nat.not_le.mpr ?_)
    cases hedit : edit.prevLogNumber with
    | none => exact Nat.zero_lt_of_lt h.log_lt
    | some number => exact h.prev_lt number hedit
  have hfiles : checkAddedFileNumbers edit set.nextFileNumber = .ok () :=
    Result.forM_eq_ok.mpr fun added ha => if_neg (Nat.not_le.mpr (h.files_lt added ha))
  rw [validate, hcapacity, hname, hlog, hprev, hfiles]
  rfl

/-! ## An accepted edit -/

theorem accept_eq_ok {overload : Overload} {prepared : Prepared ByteKey}
    (h : accept comparator overload set edit = .ok prepared) :
    Checked comparator set edit ∧ ∃ version,
      buildVersion comparator overload set.current edit = .ok version ∧
        prepared = set.prepare comparator.name edit version := by
  unfold accept acceptEdit at h
  split at h
  · cases h
  · obtain ⟨_, hvalid, h⟩ := Result.bind_eq_ok.mp h
    obtain ⟨version, hversion, h⟩ := Result.bind_eq_ok.mp h
    cases h
    exact ⟨validate_eq_ok hvalid, version, hversion, rfl⟩

theorem buildVersion_trusted [Std.TransCmp comparator.internal] {overload : Overload}
    {base version : Version ByteKey} (hbase : base.Listed comparator.internal)
    (h : buildVersion comparator overload base edit = .ok version)
    (htrusted : ∀ during, overload = .trusted during →
      VersionBuilder.Trusted comparator.internal base edit) :
    VersionBuilder.Trusted comparator.internal base edit ∧
      version = VersionBuilder.buildTrusted comparator.internal base edit := by
  cases overload with
  | checked =>
    obtain ⟨builder, happly, hbuild⟩ := Result.bind_eq_ok.mp h
    exact VersionBuilder.trusted_of_build hbase (VersionBuilder.ofVersion_represents hbase) happly hbuild
  | trusted during =>
    cases h
    exact ⟨htrusted during rfl, rfl⟩

theorem prepare_edit (edit : VersionEdit ByteKey) (version : Version ByteKey)
    (hnext : set.nextFileNumber ≠ 0) (hlast : set.lastSequence ≤ maxSequenceNumber) :
    (set.prepare comparator.name edit version).edit =
      { edit with
        logNumber := some (edit.logNumber.getD set.logNumber)
        prevLogNumber := some (edit.prevLogNumber.getD set.prevLogNumber)
        nextFileNumber := some set.nextFileNumber
        lastSequence := some set.lastSequence } := by
  simp only [prepare, VersionEdit.setNextFileNumber, VersionEdit.setLastSequence, if_neg hnext,
    if_neg (not_lt.mpr hlast), orKeep]
  rfl

theorem foldl_max_lt {adds : List (Level × FileMetadata ByteKey)} {start bound : Nat}
    (hstart : start < bound) (h : ∀ added ∈ adds, added.2.number < bound) :
    adds.foldl (fun largest added => max largest added.2.number) start < bound := by
  induction adds generalizing start with
  | nil => exact hstart
  | cons added adds ih =>
    exact ih (max_lt hstart (h added List.mem_cons_self))
      fun a ha => h a (List.mem_cons_of_mem _ ha)

theorem mem_applyCompactPointerEdits {pointers : Level → Option ByteKey} {level : Level}
    {key : ByteKey} (h : key ∈ applyCompactPointerEdits edit pointers level) :
    (level, key) ∈ edit.compactPointers ∨ key ∈ pointers level := by
  unfold applyCompactPointerEdits at h
  generalize edit.compactPointers = edits at h ⊢
  induction edits generalizing pointers with
  | nil => exact .inr h
  | cons pointer edits ih =>
    rcases ih h with hmem | hmem
    · exact .inl (List.mem_cons_of_mem _ hmem)
    · dsimp only at hmem
      by_cases hl : level = pointer.1
      · rw [if_pos hl] at hmem
        cases hmem
        subst hl
        exact .inl List.mem_cons_self
      · rw [if_neg hl] at hmem
        exact .inr hmem

section Edit

variable {set : VersionSet ByteKey} {edit : VersionEdit ByteKey}

theorem prepared_storable (version : Version ByteKey) (hname : comparator.name.length < 2 ^ 32)
    (hs : Sound comparator set) (hb : Buildable edit) (hc : Checked comparator set edit)
    (ht : VersionBuilder.TrustedFiles comparator.internal set.current edit) :
    (set.prepare comparator.name edit version).edit.Storable := by
  have hlog := hs.log
  have hnext : set.nextFileNumber < 2 ^ 64 := by
    have := hc.capacity
    unfold fileNumberLimit at this
    omega
  rw [prepare_edit edit version (by omega) hs.last]
  constructor
  · intro name hn
    rw [hc.name name hn]
    exact hname
  · rintro number ⟨⟩
    exact lt_trans hc.log_lt hnext
  · rintro number ⟨⟩
    cases hp : edit.prevLogNumber with
    | none => exact lt_trans hs.prev hnext
    | some prev => exact lt_trans (hc.prev_lt prev hp) hnext
  · rintro number ⟨⟩
    exact ⟨by omega, hnext⟩
  · rintro sequence ⟨⟩
    exact hs.last
  · exact hb.pointers
  · intro file hf
    obtain ⟨live, hlive, hnumber⟩ := ht.deleted_live file hf
    have hstored := hs.files _ live hlive
    rw [← hnumber]
    exact ⟨hstored.number_ne, lt_trans hstored.number_lt hnext⟩
  · intro added ha
    obtain ⟨h0, hsize, hsmallest, hlargest⟩ := hb.files added ha
    exact ⟨h0, lt_trans (hc.files_lt added ha) hnext, hsize, hsmallest, hlargest⟩

/-- Replaying the record of an edit turns a recovery of the core before it into one of the core after
it. -/
theorem replay_edit [Std.TransCmp comparator.internal] (hname : comparator.name.length < 2 ^ 32)
    (hs : Sound comparator set) (hb : Buildable edit) (hc : Checked comparator set edit)
    (ht : VersionBuilder.Trusted comparator.internal set.current edit)
    {recovery : ManifestRecovery} {bound : Nat} (hm : recovery.Mirrors (core set) bound)
    (hbound : bound ≤ set.nextFileNumber) {prepared : Prepared ByteKey}
    (hp : prepared = set.prepare comparator.name edit
      (VersionBuilder.buildTrusted comparator.internal set.current edit)) :
    ∃ recovery', (∀ offset, recovery.applyRecord comparator prepared.edit.encode offset =
        .ok recovery') ∧
      recovery'.Complete ⟨prepared.version, prepared.compactPointers, prepared.logNumber,
        prepared.prevLogNumber⟩ set.nextFileNumber set.lastSequence := by
  subst hp
  have hlog := hs.log
  have hstorable := prepared_storable (VersionBuilder.buildTrusted comparator.internal
    set.current edit) hname hs hb hc ht.toTrustedFiles
  rw [prepare_edit edit _ (by omega) hs.last] at hstorable ⊢
  obtain ⟨builder, happly, hrep⟩ := VersionBuilder.apply_of_trusted hm.builder ht.toTrustedFiles
  refine ⟨recovery.after _ builder, ManifestRecovery.applyRecord_encode hstorable hc.name happly ?_, ?_⟩
  · rintro number ⟨⟩ current hcurrent
    exact le_trans (hm.log current hcurrent) hc.log_mono
  · have hprev : edit.prevLogNumber.getD set.prevLogNumber < set.nextFileNumber := by
      cases hp : edit.prevLogNumber with
      | none => exact hs.prev
      | some prev => exact hc.prev_lt prev hp
    refine ⟨⟨hrep, ?_, ?_, ?_⟩, rfl, rfl, rfl, rfl⟩
    · rw [prepare_compactPointers]
      show applyCompactPointerEdits _ recovery.compactPointers = _
      rw [hm.pointers]
      rfl
    · rintro number ⟨⟩
      exact le_rfl
    · refine max_lt (max_lt ?_ hc.log_lt) hprev
      exact foldl_max_lt (lt_of_lt_of_le hm.largest hbound) hc.files_lt

theorem Sound.publish [Std.TransCmp comparator.internal] (hs : Sound comparator set)
    (hb : Buildable edit) (hc : Checked comparator set edit)
    (ht : VersionBuilder.Trusted comparator.internal set.current edit) :
    Sound comparator (set.publish (set.prepare comparator.name edit
      (VersionBuilder.buildTrusted comparator.internal set.current edit))) where
  valid := VersionBuilder.buildTrusted_valid hs.valid.toListed ht
  files := by
    intro level file hf
    rcases VersionBuilder.mem_buildTrusted.mp hf with ⟨hf, _⟩ | ⟨added, ha, rfl⟩
    · exact hs.files level file hf
    · obtain ⟨h0, hsize, hsmallest, hlargest⟩ := hb.files _ ha
      exact ⟨h0, hc.files_lt _ ha, hsize, hsmallest, hlargest, rfl⟩
  pointers := by
    intro level key hk
    have hpublished : (set.publish (set.prepare comparator.name edit
        (VersionBuilder.buildTrusted comparator.internal set.current edit))).compactPointers =
          applyCompactPointerEdits edit set.compactPointers :=
      prepare_compactPointers comparator.name set edit
        (VersionBuilder.buildTrusted comparator.internal set.current edit)
    rw [hpublished] at hk
    rcases mem_applyCompactPointerEdits hk with hk | hk
    · exact hb.pointers _ hk
    · exact hs.pointers level key hk
  log := hc.log_lt
  prev := by
    show edit.prevLogNumber.getD set.prevLogNumber < set.nextFileNumber
    cases hp : edit.prevLogNumber with
    | none => exact hs.prev
    | some prev => exact hc.prev_lt prev hp
  last := hs.last
  manifest_pos := hs.manifest_pos
  manifest_lt := hs.manifest_lt

end Edit

/-! ## The snapshot -/

section Snapshot

variable {set : VersionSet ByteKey}

theorem addSnapshotFiles_eq (level : Level) (files : List (FileMetadata ByteKey))
    (h : ∀ file ∈ files, file.number ≠ 0) (snapshot : VersionEdit ByteKey) :
    addSnapshotFiles snapshot level files =
      { snapshot with newFiles := snapshot.newFiles ++ files.map (Prod.mk level) } := by
  unfold addSnapshotFiles
  induction files generalizing snapshot with
  | nil => simp
  | cons file files ih =>
    rw [List.foldl_cons, ih fun f hf => h f (List.mem_cons_of_mem _ hf)]
    unfold VersionEdit.addFile
    rw [if_neg (h file List.mem_cons_self)]
    simp [orKeep]

theorem snapshot_eq (hs : Sound comparator set) :
    set.snapshot comparator.name =
      { comparatorName := some comparator.name
        compactPointers := (List.finRange numLevels).flatMap fun level =>
          (set.compactPointers level).toList.map (Prod.mk level)
        newFiles := (List.finRange numLevels).flatMap fun level =>
          (set.current.files level).map (Prod.mk level) } := by
  have hfold : ∀ (levels : List Level) (snapshot : VersionEdit ByteKey),
      levels.foldl (fun snapshot level => addSnapshotFiles
          (addPresentSnapshotPointer snapshot level (set.compactPointers level)) level
          (set.current.files level)) snapshot =
        { snapshot with
          compactPointers := snapshot.compactPointers ++ levels.flatMap fun level =>
            (set.compactPointers level).toList.map (Prod.mk level)
          newFiles := snapshot.newFiles ++ levels.flatMap fun level =>
            (set.current.files level).map (Prod.mk level) } := by
    intro levels
    induction levels with
    | nil => simp
    | cons level levels ih =>
      intro snapshot
      rw [List.foldl_cons, ih, addSnapshotFiles_eq level _ fun f hf => (hs.files level f hf).number_ne]
      cases hp : set.compactPointers level with
      | none => simp [addPresentSnapshotPointer, hp]
      | some key => simp [addPresentSnapshotPointer, VersionEdit.addCompactPointer, hp]
  unfold snapshot
  rw [hfold]
  simp

theorem snapshot_storable (hname : comparator.name.length < 2 ^ 32) (hs : Sound comparator set)
    (hnext : set.nextFileNumber < 2 ^ 64) : (set.snapshot comparator.name).Storable := by
  rw [snapshot_eq hs]
  constructor
  · rintro name ⟨⟩
    exact hname
  · rintro number ⟨⟩
  · rintro number ⟨⟩
  · rintro number ⟨⟩
  · rintro number ⟨⟩
  · intro pointer hp
    obtain ⟨level, _, hp⟩ := List.mem_flatMap.mp hp
    obtain ⟨key, hk, rfl⟩ := List.mem_map.mp hp
    exact hs.pointers level key (Option.mem_toList.mp hk)
  · intro file hf
    cases hf
  · intro added ha
    obtain ⟨level, _, ha⟩ := List.mem_flatMap.mp ha
    obtain ⟨file, hf, rfl⟩ := List.mem_map.mp ha
    have h := hs.files level file hf
    exact ⟨h.number_ne, lt_trans h.number_lt hnext, h.fileSize, h.smallest, h.largest⟩

theorem snapshot_pointers (hs : Sound comparator set) :
    applyCompactPointerEdits (set.snapshot comparator.name) (fun _ => none) = set.compactPointers := by
  have hfold : ∀ (levels : List Level) (start : Level → Option ByteKey),
      (levels.flatMap fun level => (set.compactPointers level).toList.map (Prod.mk level)).foldl
        (fun pointers pointer =>
          fun level => if level = pointer.1 then some pointer.2 else pointers level) start =
      fun level => if level ∈ levels then (set.compactPointers level).or (start level)
        else start level := by
    intro levels
    induction levels with
    | nil => simp
    | cons head levels ih =>
      intro start
      rw [List.flatMap_cons, List.foldl_append, ih]
      funext level
      by_cases hl : level = head
      · subst hl
        cases set.compactPointers level with
        | none => simp
        | some key => simp
      · cases set.compactPointers head with
        | none => simp [hl]
        | some key => simp [hl]
  unfold applyCompactPointerEdits
  rw [snapshot_eq hs, hfold]
  funext level
  simp

theorem snapshot_additions (hs : Sound comparator set) (level : Level) :
    VersionBuilder.levelAdditions (set.snapshot comparator.name) level = set.current.files level := by
  have hfilter : ∀ levels : List Level, levels.Nodup →
      (levels.flatMap fun l => (set.current.files l).map (Prod.mk l)).filter (·.1 = level) =
        if level ∈ levels then (set.current.files level).map (Prod.mk level) else [] := by
    intro levels hnd
    induction levels with
    | nil => simp
    | cons head levels ih =>
      obtain ⟨hhead, hnd⟩ := List.nodup_cons.mp hnd
      rw [List.flatMap_cons, List.filter_append, ih hnd]
      by_cases hl : level = head
      · subst hl
        rw [List.filter_eq_self.mpr (by simp), if_neg hhead]
        simp
      · rw [List.filter_eq_nil_iff.mpr (by simp [Ne.symm hl])]
        simp [hl]
  unfold VersionBuilder.levelAdditions
  rw [snapshot_eq hs, hfilter _ (List.nodup_finRange _), if_pos (List.mem_finRange level), List.map_map]
  calc (set.current.files level).map ((fun added => makeVersionFile added.2) ∘ Prod.mk level)
      = (set.current.files level).map id :=
        List.map_congr_left fun file hf => (hs.files level file hf).seeks
    _ = set.current.files level := List.map_id _

theorem snapshot_trusted [Std.TransCmp comparator.internal] (hs : Sound comparator set) :
    VersionBuilder.TrustedFiles comparator.internal {} (set.snapshot comparator.name) := by
  rw [snapshot_eq hs]
  refine ⟨fun d hd => ?_, fun added _ level file hf => ?_, ?_, fun added ha => ?_⟩
  · cases hd
  · cases hf
  · refine List.pairwise_flatMap.mpr ⟨fun level _ => ?_, ?_⟩
    · rw [List.pairwise_map]
      exact hs.valid.toListed.pairwise_number level
    · refine (List.nodup_finRange numLevels).imp ?_
      intro l l' hne a ha b hb hn
      obtain ⟨f, hf, rfl⟩ := List.mem_map.mp ha
      obtain ⟨g, hg, rfl⟩ := List.mem_map.mp hb
      exact hne (hs.valid.unique l l' f g hf hg hn).1
  · obtain ⟨level, _, ha⟩ := List.mem_flatMap.mp ha
    obtain ⟨file, hf, rfl⟩ := List.mem_map.mp ha
    exact hs.valid.ordered level file hf

theorem replay_snapshot [Std.TransCmp comparator.internal] (hname : comparator.name.length < 2 ^ 32)
    (hs : Sound comparator set) (hnext : set.nextFileNumber < 2 ^ 64) :
    ∃ recovery, (∀ offset, ManifestRecovery.applyRecord comparator {}
        (set.snapshot comparator.name).encode offset = .ok recovery) ∧
      recovery.Mirrors (core set) set.nextFileNumber := by
  have hpos : 0 < set.nextFileNumber := Nat.zero_lt_of_lt hs.log
  have hempty : VersionBuilder.Represents (VersionBuilder.ofVersion ({} : Version ByteKey)) {} :=
    fun _ => List.Perm.refl _
  obtain ⟨builder, happly, hrep⟩ := VersionBuilder.apply_of_trusted hempty (snapshot_trusted hs)
  refine ⟨ManifestRecovery.after {} (set.snapshot comparator.name) builder,
    ManifestRecovery.applyRecord_encode (snapshot_storable hname hs hnext) ?_ happly ?_, ?_, ?_, ?_, ?_⟩
  · rw [snapshot_eq hs]
    rintro name ⟨⟩
    rfl
  · rw [snapshot_eq hs]
    rintro number ⟨⟩
  · intro level
    refine (hrep level).trans ((VersionBuilder.buildTrusted_perm _ _ level).trans ?_)
    rw [snapshot_additions hs level]
    exact List.Perm.refl _
  · exact snapshot_pointers hs
  · show ∀ number ∈ (set.snapshot comparator.name).logNumber.or none, _
    rw [snapshot_eq hs]
    rintro number ⟨⟩
  · show max (max _ ((set.snapshot comparator.name).logNumber.or none |>.getD 0))
      ((set.snapshot comparator.name).prevLogNumber.getD 0) < _
    rw [snapshot_eq hs]
    refine max_lt (max_lt (foldl_max_lt hpos ?_) hpos) hpos
    intro added ha
    obtain ⟨level, _, ha⟩ := List.mem_flatMap.mp ha
    obtain ⟨file, hf, rfl⟩ := List.mem_map.mp ha
    exact (hs.files level file hf).number_lt

end Snapshot

end ModernLevelDB.VersionSet
