import ModernLevelDB.Metadata.RecoverReplay
import ModernLevelDB.Metadata.VersionEditCalls

/-! # Recovery after any sequence of edits

A journal is a version set in use with what it has recorded: the state after each edit of its current
MANIFEST, and every number. Whatever is recorded, recovery gives it back; and a MANIFEST that lost its
end gives back the state after an earlier edit. -/
namespace ModernLevelDB.VersionSet
set_option autoImplicit false

variable {extend : CrcExtend} {comparator : Comparator}

/-! ## What recovery accepts -/

def editNumbers (edit : VersionEdit ByteKey) : List Nat :=
  edit.newFiles.map (·.2.number) ++ edit.logNumber.toList ++ edit.prevLogNumber.toList

def eventEdits (events : List WalReadEvent) : List (VersionEdit ByteKey) :=
  events.filterMap fun
    | .record data _ => (VersionEdit.decode data).toOption
    | .corruption .. => none

namespace ManifestRecovery

/-- What a recovery holds after records that named these numbers. -/
structure Collects (comparator : Comparator) (recovery : ManifestRecovery) (numbers : List Nat) :
    Prop where
  files : ∃ base : Version ByteKey, VersionBuilder.Represents recovery.builder base ∧
    base.Listed comparator.internal ∧
    ∀ level, ∀ file ∈ base.files level, StoredFile file (recovery.largestNumber + 1)
  pointers : ∀ level, ∀ key ∈ recovery.compactPointers level, key.Storable
  log : recovery.logNumber.getD 0 ≤ recovery.largestNumber
  prev : recovery.prevLogNumber ≤ recovery.largestNumber
  last : ∀ sequence ∈ recovery.lastSequence, sequence ≤ maxSequenceNumber
  numbers : ∀ number ∈ numbers, number ≤ recovery.largestNumber

theorem collects_start (comparator : Comparator) : Collects comparator {} [] where
  files := ⟨{}, fun _ => List.Perm.refl _, ⟨fun _ => .nil, fun _ _ h => (by cases h),
    fun _ _ _ _ h => (by cases h)⟩, fun _ _ h => (by cases h)⟩
  pointers := fun _ _ h => (by cases h)
  log := le_rfl
  prev := le_rfl
  last := fun _ h => (by cases h)
  numbers := fun _ h => (by cases h)

variable {recovery : ManifestRecovery}

variable {result : ManifestRecovery} {edit : VersionEdit ByteKey}

theorem accumulateCounters_ok {offset : Nat}
    (h : recovery.accumulateCounters edit offset = .ok result) :
    result = { recovery.after edit recovery.builder with
      compactPointers := recovery.compactPointers } := by
  obtain ⟨counted, hlog, h⟩ := Result.bind_eq_ok.mp h
  have hcounted : counted = { recovery.includeAddedFileNumbers edit with
      logNumber := edit.logNumber.or recovery.logNumber } := by
    unfold accumulateLogNumber at hlog
    cases hl : edit.logNumber with
    | none =>
      rw [hl] at hlog
      cases hlog
      rfl
    | some number =>
      rw [hl] at hlog
      dsimp only at hlog
      split at hlog
      · cases hlog
      · cases hlog
        rfl
  subst hcounted
  cases h
  rfl

theorem applyRecord_ok {record : Bytes} {offset : Nat}
    (h : recovery.applyRecord comparator record offset = .ok result) :
    ∃ edit builder, VersionEdit.decode record = .ok edit ∧
      recovery.builder.apply comparator.internal edit = .ok builder ∧
      result = recovery.after edit builder := by
  have hat : ∀ {α : Type} {x : Result α} {a : α}, atRecord offset x = .ok a → x = .ok a := by
    intro α x a hx
    cases x with
    | error e => cases hx
    | ok b =>
      cases hx
      rfl
  obtain ⟨edit, hdecode, h⟩ := Result.bind_eq_ok.mp h
  obtain ⟨_, _, h⟩ := Result.bind_eq_ok.mp h
  obtain ⟨builder, happly, h⟩ := Result.bind_eq_ok.mp h
  exact ⟨edit, builder, hat hdecode, hat happly, accumulateCounters_ok h⟩

theorem le_foldl_max (adds : List (Level × FileMetadata ByteKey)) (start : Nat) :
    start ≤ adds.foldl (fun largest added => max largest added.2.number) start ∧
      ∀ added ∈ adds,
        added.2.number ≤ adds.foldl (fun largest added => max largest added.2.number) start := by
  induction adds generalizing start with
  | nil => exact ⟨le_rfl, fun _ h => (by cases h)⟩
  | cons head adds ih =>
    obtain ⟨hstart, hall⟩ := ih (max start head.2.number)
    refine ⟨le_trans (le_max_left _ _) hstart, ?_⟩
    intro added ha
    rcases List.mem_cons.mp ha with rfl | ha
    · exact le_trans (le_max_right _ _) hstart
    · exact hall added ha

theorem Collects.after [Std.TransCmp comparator.internal] {numbers : List Nat}
    (hc : Collects comparator recovery numbers) {builder : VersionBuilder ByteKey}
    (hs : edit.Storable) (happly : recovery.builder.apply comparator.internal edit = .ok builder) :
    Collects comparator (recovery.after edit builder) (numbers ++ editNumbers edit) := by
  obtain ⟨hstart, hadds⟩ := le_foldl_max edit.newFiles recovery.largestNumber
  have hgrow : recovery.largestNumber ≤ (recovery.after edit builder).largestNumber :=
    le_trans hstart (le_trans (le_max_left _ _) (le_max_left _ _))
  have hfiles : ∀ added ∈ edit.newFiles,
      added.2.number ≤ (recovery.after edit builder).largestNumber := fun added ha =>
    le_trans (hadds added ha) (le_trans (le_max_left _ _) (le_max_left _ _))
  have hlog : (edit.logNumber.or recovery.logNumber).getD 0 ≤
      (recovery.after edit builder).largestNumber :=
    le_trans (le_max_right _ _) (le_max_left _ _)
  have hprev : edit.prevLogNumber.getD recovery.prevLogNumber ≤
      (recovery.after edit builder).largestNumber := le_max_right _ _
  obtain ⟨base, hrep, hlisted, hstored⟩ := hc.files
  have htrusted := VersionBuilder.trustedFiles_of_apply hrep happly
  obtain ⟨builder', happly', hrep'⟩ := VersionBuilder.apply_of_trusted hrep htrusted
  cases happly.symm.trans happly'
  refine ⟨⟨_, hrep', VersionBuilder.buildTrusted_listed hlisted htrusted, ?_⟩, ?_, hlog, hprev, ?_, ?_⟩
  · intro level file hf
    rcases VersionBuilder.mem_buildTrusted.mp hf with ⟨hf, _⟩ | ⟨added, ha, rfl⟩
    · exact (hstored level file hf).mono (by omega)
    · obtain ⟨h0, _, hsize, hsmallest, hlargest⟩ := hs.newFiles _ ha
      exact ⟨h0, Nat.lt_succ_of_le (hfiles _ ha), hsize, hsmallest, hlargest, rfl⟩
  · intro level key hk
    rcases mem_applyCompactPointerEdits hk with hk | hk
    · exact hs.compactPointers _ hk
    · exact hc.pointers level key hk
  · intro sequence hseq
    cases hl : edit.lastSequence with
    | none =>
      refine hc.last sequence ?_
      simpa [ManifestRecovery.after, hl] using hseq
    | some s =>
      have hsome : some s = some sequence := by simpa [ManifestRecovery.after, hl] using hseq
      cases hsome
      exact hs.lastSequence sequence hl
  · intro number hn
    rcases List.mem_append.mp hn with hn | hn
    · exact le_trans (hc.numbers number hn) hgrow
    · simp only [editNumbers, List.mem_append, List.mem_map, Option.mem_toList] at hn
      rcases hn with (⟨added, ha, rfl⟩ | hn) | hn
      · exact hfiles added ha
      · refine le_trans (le_of_eq ?_) hlog
        rw [show edit.logNumber = some number from hn]
        rfl
      · refine le_trans (le_of_eq ?_) hprev
        rw [show edit.prevLogNumber = some number from hn]
        rfl

theorem Collects.replay [Std.TransCmp comparator.internal] {events : List WalReadEvent} :
    ∀ {recovery result : ManifestRecovery} {numbers : List Nat},
      Collects comparator recovery numbers → recovery.replay comparator events = .ok result →
      Collects comparator result (numbers ++ (eventEdits events).flatMap editNumbers) := by
  induction events with
  | nil =>
    intro recovery result numbers hc h
    cases h
    simpa [eventEdits] using hc
  | cons event events ih =>
    intro recovery result numbers hc h
    cases event with
    | corruption error droppedBytes offset => cases h
    | record data offset =>
      obtain ⟨next, hnext, h⟩ := Result.bind_eq_ok.mp h
      obtain ⟨edit, builder, hdecode, happly, rfl⟩ := applyRecord_ok hnext
      have hcollects := ih (hc.after (VersionEdit.decode_storable hdecode).1 happly) h
      have hedits : eventEdits (.record data offset :: events) = edit :: eventEdits events := by
        unfold eventEdits
        rw [List.filterMap_cons]
        simp [hdecode, Except.toOption]
      rw [hedits, List.flatMap_cons, ← List.append_assoc]
      exact hcollects

theorem validateCounters_ok {next logNumber lastSequence : Nat}
    (h : recovery.validateCounters = .ok (next, logNumber, lastSequence)) :
    recovery.logNumber = some logNumber ∧ recovery.lastSequence = some lastSequence ∧
      recovery.largestNumber < next := by
  unfold validateCounters at h
  split at h
  · cases h
  · split at h
    · cases h
    · next hlog =>
      split at h
      · cases h
      · next hlast =>
        split at h
        · cases h
        · split at h
          · cases h
          · next hlargest =>
            cases h
            exact ⟨hlog, hlast, by omega⟩

end ManifestRecovery

def manifestNumbers (extend : CrcExtend) (policy : ReadPolicy) (disk : Disk) : List Nat :=
  match openSelectedManifest policy disk with
  | .ok selected =>
      selected.number :: (eventEdits (manifestEvents extend selected.file)).flatMap editNumbers
  | .error _ => []

variable {set : VersionSet ByteKey}

/-- A set that recovery returns is in good order and numbers new files above everything recorded,
whatever the files held. -/
theorem recover_sound [Std.TransCmp comparator.internal] {policy : ReadPolicy} {disk : Disk}
    (h : recover extend comparator policy disk = .ok set) :
    Sound comparator set ∧ set.manifest = none ∧
      ∀ number ∈ manifestNumbers extend policy disk, number < set.nextFileNumber := by
  obtain ⟨selected, hselected, h⟩ := Result.bind_eq_ok.mp h
  obtain ⟨recovery, hreplay, h⟩ := Result.bind_eq_ok.mp h
  have hc := (ManifestRecovery.collects_start comparator).replay hreplay
  rw [List.nil_append] at hc
  obtain ⟨⟨next, logNumber, lastSequence⟩, hcounters, h⟩ := Result.bind_eq_ok.mp h
  obtain ⟨hlog, hlast, hlargest⟩ := ManifestRecovery.validateCounters_ok hcounters
  obtain ⟨base, hrep, hlisted, hstored⟩ := hc.files
  dsimp only at h
  split at h
  · cases h
  · next current hbuild =>
    cases h
    obtain ⟨rfl, hvalid⟩ := VersionBuilder.valid_of_build hlisted hrep hbuild
    have hlog' := hc.log
    have hprev := hc.prev
    rw [hlog, Option.getD_some] at hlog'
    refine ⟨⟨hvalid, ?_, hc.pointers, ?_, ?_, hc.last lastSequence hlast, ?_, ?_⟩, rfl, ?_⟩
    · exact fun level file hf => (hstored level file hf).mono
        (show recovery.largestNumber + 1 ≤ max next (selected.number + 1) + 1 by omega)
    · show logNumber < max next (selected.number + 1) + 1
      omega
    · show recovery.prevLogNumber < max next (selected.number + 1) + 1
      omega
    · show 0 < max next (selected.number + 1)
      omega
    · exact Nat.lt_succ_self _
    · intro number hn
      unfold manifestNumbers at hn
      rw [hselected] at hn
      rcases List.mem_cons.mp hn with rfl | hn
      · show selected.number < max next (selected.number + 1) + 1
        omega
      · have := hc.numbers number hn
        show number < max next (selected.number + 1) + 1
        omega

/-! ## What a successful write leaves in the files -/

open WalReader (recordsBytes recordsEnd)

variable {w' : World} {writer : WalWriter}

section

variable {writer' : WalWriter} {w : World} {record : Bytes} {records : List Bytes}
  (hpadding : writer.reopenPadding = 0)
  (hoffset : writer.blockOffset = recordsEnd extend 0 records)
  (hcontents : w.disk writer.file = some (recordsBytes extend 0 records))

include hpadding hoffset hcontents

theorem addRecord_records (h : writer.addRecord extend record w = (.returned writer', w')) :
    w'.disk = Function.update w.disk writer.file (some (recordsBytes extend 0 (records ++ [record]))) ∧
      writer' = { writer with blockOffset := recordsEnd extend 0 (records ++ [record]) } := by
  obtain ⟨hdisk, hwriter⟩ := WalWriter.addRecord_returned h
  rw [hpadding, hoffset, List.replicate_zero, List.nil_append] at hdisk
  rw [hoffset] at hwriter
  refine ⟨?_, ?_⟩
  · rw [hdisk, WalReader.recordsBytes_append]
    simp only [FileOp.effect, hcontents, Option.map_some]
    simp [recordsBytes, WalReader.encodedFragments]
  · rw [hwriter, WalReader.recordsEnd_append, ← hpadding]
    rfl

theorem write_some_returned {number : Nat} {snapshot : Bytes}
    (h : write extend (some writer) number snapshot record w = (.returned writer', w')) :
    w'.disk = Function.update w.disk writer.file (some (recordsBytes extend 0 (records ++ [record]))) ∧
      writer' = { writer with blockOffset := recordsEnd extend 0 (records ++ [record]) } := by
  obtain ⟨added, w₁, hadd, h⟩ := FileM.bind_returned h
  obtain ⟨_, w₂, hsync, h⟩ := FileM.bind_returned h
  obtain ⟨rfl, rfl⟩ := FileM.pure_returned h
  obtain ⟨hdisk, hwriter⟩ := addRecord_records hpadding hoffset hcontents hadd
  exact ⟨(perform_returned hsync).trans hdisk, hwriter⟩

end

theorem installCurrent_returned {number : Nat} {w : World} {u : Unit}
    (h : installCurrent number w = (.returned u, w')) :
    w'.disk .current = some (currentFileContents number) ∧
      w'.disk (.descriptor number) = w.disk (.descriptor number) := by
  obtain ⟨_, w₁, hopen, h⟩ := FileM.bind_returned h
  obtain ⟨_, w₂, hwrite, h⟩ := FileM.bind_returned h
  obtain ⟨_, w₃, happend, hwrite⟩ := FileM.bind_returned hwrite
  obtain ⟨_, w₄, hsync, hclose⟩ := FileM.bind_returned hwrite
  obtain ⟨_, w₅, hrename, hdirectory⟩ := FileM.bind_returned h
  rw [perform_returned hdirectory, FileOp.effect, perform_returned hrename, FileOp.effect,
    perform_returned hclose, FileOp.effect, perform_returned hsync, FileOp.effect,
    perform_returned happend, FileOp.effect, perform_returned hopen, FileOp.effect]
  simp

theorem write_none_returned {w : World} {number : Nat} {snapshot record : Bytes}
    (h : write extend none number snapshot record w = (.returned writer, w')) :
    w'.disk .current = some (currentFileContents number) ∧
      w'.disk (.descriptor number) = some (recordsBytes extend 0 [snapshot, record]) ∧
      writer = { file := .descriptor number, blockOffset := recordsEnd extend 0 [snapshot, record] } := by
  obtain ⟨created, w₁, hcreate, h⟩ := FileM.bind_returned h
  obtain ⟨_, w₀, hopen, hcreate⟩ := FileM.bind_returned hcreate
  obtain ⟨added, w₂, hadd, h⟩ := FileM.bind_returned h
  obtain ⟨_, w₃, hsync, h⟩ := FileM.bind_returned h
  obtain ⟨_, w₄, hdirectory, h⟩ := FileM.bind_returned h
  obtain ⟨_, w₅, hinstall, h⟩ := FileM.bind_returned h
  obtain ⟨rfl, rfl⟩ := FileM.pure_returned h
  obtain ⟨hdisk₁, rfl⟩ := @addRecord_records _ _ _ _ _ _ [] rfl rfl
    (by rw [perform_returned hopen]; simp [FileOp.effect, recordsBytes]) hcreate
  obtain ⟨hdisk₂, rfl⟩ := @addRecord_records _ _ _ _ _ _ [snapshot] rfl rfl
    (by rw [hdisk₁]; simp) hadd
  obtain ⟨hcurrent, hmanifest⟩ := installCurrent_returned hinstall
  refine ⟨hcurrent, ?_, rfl⟩
  rw [hmanifest, perform_returned hdirectory, FileOp.effect, perform_returned hsync, FileOp.effect,
    hdisk₂]
  simp

/-! ## Journals -/

/-- The state after an edit, with the length of the MANIFEST right behind it. -/
structure Recorded where
  core : Core
  nextFileNumber : Nat
  lastSequence : Nat
  manifestSize : Nat

/-- `states` lists the states after the edits of the current MANIFEST, and `numbers` every file, log
and MANIFEST number that was ever recorded. -/
structure Journal where
  set : VersionSet ByteKey
  world : World
  states : List Recorded := []
  numbers : List Nat := []

/-- The states that stay when an edit is recorded: a new MANIFEST begins with a snapshot. -/
def Journal.before (j : Journal) : List Recorded := if j.set.manifest.isNone then [] else j.states

def Journal.record (j : Journal) (edit : VersionEdit ByteKey) (set : VersionSet ByteKey)
    (world : World) : Journal where
  set := set
  world := world
  states := j.before ++ [
    { core := core set, nextFileNumber := j.set.nextFileNumber, lastSequence := j.set.lastSequence
      manifestSize := ((world.disk (.descriptor set.manifestFileNumber)).getD []).length }]
  numbers := j.numbers ++ (editNumbers edit ++
    [set.logNumber, set.prevLogNumber, set.manifestFileNumber])

/-- The documented requirement of `SetLastSequence`. -/
def CounterCall.Within : CounterCall → Prop
  | .setLastSequence sequence => sequence ≤ maxSequenceNumber
  | _ => True

/-- Successful calls of `LogAndApply`, the trusted overload with its preconditions, and counter
calls. -/
inductive Journal.Step (extend : CrcExtend) (comparator : Comparator) : Journal → Journal → Prop where
  | counter (j : Journal) (call : CounterCall) (h : call.Within) :
      Step extend comparator j { j with set := call.apply j.set }
  | logAndApply (j : Journal) (overload : Overload) (edit : VersionEdit ByteKey)
      {set : VersionSet ByteKey} {world : World}
      (hok : VersionSet.logAndApply extend comparator overload j.set edit j.world =
        (.returned (), set, world))
      (hduring : ∀ call ∈ overload.during, call.Within) (hedit : Buildable edit)
      (htrusted : ∀ during, overload = .trusted during →
        VersionBuilder.Trusted comparator.internal j.set.current edit) :
      Step extend comparator j (j.record edit set world)

/-- A journal begins with `Create` or with `Recover`. -/
inductive Journal.Start (extend : CrcExtend) (comparator : Comparator) : Journal → Prop where
  | created {world world' : World} {set : VersionSet ByteKey}
      (h : create extend comparator world = (.returned set, world')) :
      Start extend comparator (Journal.record { set := {}, world } {} set world')
  | recovered {policy : ReadPolicy} {world : World} {set : VersionSet ByteKey}
      (h : recover extend comparator policy world.disk = .ok set) :
      Start extend comparator { set, world, numbers := manifestNumbers extend policy world.disk }

/-- Replaying the records gives this state. -/
def Reaches (extend : CrcExtend) (comparator : Comparator) (records : List Bytes) (state : Recorded) :
    Prop :=
  ∃ recovery, ManifestRecovery.Replays comparator {} records recovery ∧
    recovery.Complete state.core state.nextFileNumber state.lastSequence ∧
    state.core.current.Valid comparator.internal ∧ state.nextFileNumber ≤ fileNumberLimit ∧
    state.manifestSize = (recordsBytes extend 0 records).length

/-- The MANIFEST that the journal writes holds a snapshot and an edit for each state. -/
structure Written (extend : CrcExtend) (comparator : Comparator) (j : Journal) (writer : WalWriter)
    (snapshot : Bytes) (edits : List Bytes) : Prop where
  writer : writer = { file := .descriptor j.set.manifestFileNumber
                      blockOffset := recordsEnd extend 0 (snapshot :: edits) }
  limit : j.set.manifestFileNumber < fileNumberLimit
  current : j.world.disk .current = some (currentFileContents j.set.manifestFileNumber)
  contents : j.world.disk (.descriptor j.set.manifestFileNumber) =
    some (recordsBytes extend 0 (snapshot :: edits))
  length : edits.length = j.states.length
  states : ∀ i state, j.states[i]? = some state →
    Reaches extend comparator (snapshot :: edits.take (i + 1)) state
  last : ∃ state, j.states.getLast? = some state ∧ state.core = core j.set ∧
    state.nextFileNumber ≤ j.set.nextFileNumber ∧ ∀ number ∈ j.numbers, number < state.nextFileNumber

/-- The MANIFEST that CURRENT names holds every recorded state. -/
structure Journal.Inv (extend : CrcExtend) (comparator : Comparator) (j : Journal) : Prop where
  sound : Sound comparator j.set
  numbers : ∀ number ∈ j.numbers, number < j.set.nextFileNumber
  unwritten : j.set.manifest = none → j.states = []
  manifest : ∀ writer, j.set.manifest = some writer →
    ∃ snapshot edits, Written extend comparator j writer snapshot edits

theorem counter_within {call : CounterCall} (h : call.Within)
    (hset : set.lastSequence ≤ maxSequenceNumber) : ∃ next last, set.nextFileNumber ≤ next ∧
      last ≤ maxSequenceNumber ∧
      call.apply set = { set with nextFileNumber := next, lastSequence := last } := by
  obtain ⟨next, last, hnext, heq⟩ := counter_eq set call
  refine ⟨next, last, hnext, ?_, heq⟩
  have hlast : (call.apply set).lastSequence = last := by rw [heq]
  rw [← hlast]
  cases call with
  | newFileNumber => exact hset
  | markFileNumberUsed number =>
    simp only [CounterCall.apply, markFileNumberUsed]
    split
    · next hmark =>
      split at hmark
      · cases hmark
      · cases hmark
        exact hset
    · exact hset
  | setLastSequence sequence => exact h

theorem during_within {calls : List CounterCall} (h : ∀ call ∈ calls, call.Within)
    (hset : set.lastSequence ≤ maxSequenceNumber) :
    ∃ next last, set.nextFileNumber ≤ next ∧ last ≤ maxSequenceNumber ∧
      calls.foldl CounterCall.apply set = { set with nextFileNumber := next, lastSequence := last } := by
  induction calls generalizing set with
  | nil => exact ⟨_, _, le_rfl, hset, rfl⟩
  | cons call calls ih =>
    obtain ⟨next, last, hnext, hlast, hcall⟩ := counter_within (h call List.mem_cons_self) hset
    obtain ⟨next', last', hnext', hlast', hrest⟩ := ih
      (fun c hc => h c (List.mem_cons_of_mem _ hc))
      (show (call.apply set).lastSequence ≤ maxSequenceNumber by rw [hcall]; exact hlast)
    refine ⟨next', last', ?_, hlast', ?_⟩
    · rw [hcall] at hnext'
      exact hnext.trans hnext'
    · rw [List.foldl_cons, hrest, hcall]

variable {j : Journal}

theorem Journal.Inv.counter (h : Journal.Inv extend comparator j) {call : CounterCall}
    (hcall : call.Within) : Journal.Inv extend comparator { j with set := call.apply j.set } := by
  obtain ⟨next, last, hnext, hlast, heq⟩ := counter_within hcall h.sound.last
  rw [heq]
  refine ⟨h.sound.counters hnext hlast, fun n hn => lt_of_lt_of_le (h.numbers n hn) hnext,
    h.unwritten, ?_⟩
  intro writer hwriter
  obtain ⟨snapshot, edits, hw⟩ := h.manifest writer hwriter
  obtain ⟨state, hstate, hcore, hle, hnumbers⟩ := hw.last
  exact ⟨snapshot, edits, { hw with last := ⟨state, hstate, hcore, hle.trans hnext, hnumbers⟩ }⟩

/-! ## The step of an edit -/

variable {edit : VersionEdit ByteKey}

theorem logAndApply_returned {overload : Overload} {set' : VersionSet ByteKey}
    {world world' : World} (hduring : ∀ call ∈ overload.during, call.Within)
    (hlast : set.lastSequence ≤ maxSequenceNumber)
    (h : logAndApply extend comparator overload set edit world = (.returned (), set', world')) :
    ∃ prepared writer next last, accept comparator overload set edit = .ok prepared ∧
      write extend set.manifest set.manifestFileNumber
        ((prepared.snapshot.map VersionEdit.encode).getD []) prepared.edit.encode world =
          (.returned writer, world') ∧
      set.nextFileNumber ≤ next ∧ last ≤ maxSequenceNumber ∧
      set' = { set.publish prepared with
        nextFileNumber := next, lastSequence := last, manifest := some writer } := by
  unfold logAndApply at h
  cases hacc : accept comparator overload set edit with
  | error error =>
    rw [hacc] at h
    cases h
  | ok prepared =>
    obtain ⟨next, last, hnext, hlast', hset⟩ := during_within hduring hlast
    rw [hacc] at h
    simp only [hset] at h
    rcases hwrite : write extend set.manifest set.manifestFileNumber
      ((prepared.snapshot.map VersionEdit.encode).getD []) prepared.edit.encode world with
      ⟨writer | error | _, world₁⟩
    · rw [hwrite] at h
      cases h
      exact ⟨prepared, writer, next, last, rfl, hwrite, hnext, hlast', rfl⟩
    · rw [hwrite] at h
      cases h
    · rw [hwrite] at h
      cases h

section Step

variable {j : Journal} {overload : Overload} {edit : VersionEdit ByteKey} {set : VersionSet ByteKey}
  {world : World}

theorem editNumbers_lt (hc : Checked comparator j.set edit) {number : Nat}
    (h : number ∈ editNumbers edit) : number < j.set.nextFileNumber := by
  simp only [editNumbers, List.mem_append, List.mem_map, Option.mem_toList] at h
  rcases h with (⟨added, ha, rfl⟩ | h) | h
  · exact hc.files_lt added ha
  · have hlt := hc.log_lt
    rw [show edit.logNumber = some number from h] at hlt
    exact hlt
  · exact hc.prev_lt number h

/-- The records before an edit: those of the MANIFEST in use, or the snapshot of a new one. Their
recovery mirrors the set that the edit is applied to. -/
theorem Journal.Inv.base [Std.TransCmp comparator.internal] (hname : comparator.name.length < 2 ^ 32)
    (hinv : Journal.Inv extend comparator j) (hnext : j.set.nextFileNumber ≤ fileNumberLimit) :
    ∃ snapshot edits recovery bound,
      ManifestRecovery.Replays comparator {} (snapshot :: edits) recovery ∧
      recovery.Mirrors (core j.set) bound ∧ bound ≤ j.set.nextFileNumber ∧
      match j.set.manifest with
      | none => snapshot = (j.set.snapshot comparator.name).encode ∧ edits = []
      | some writer => Written extend comparator j writer snapshot edits := by
  cases hm : j.set.manifest with
  | none =>
    obtain ⟨recovery, happly, hmirrors⟩ := replay_snapshot hname hinv.sound
      (show j.set.nextFileNumber < 2 ^ 64 by unfold fileNumberLimit at hnext; omega)
    exact ⟨_, [], recovery, _, .cons happly (.nil _), hmirrors, le_rfl, rfl, rfl⟩
  | some writer =>
    obtain ⟨snapshot, edits, hw⟩ := hinv.manifest writer hm
    obtain ⟨state, hstate, hcore, hle, _⟩ := hw.last
    obtain ⟨recovery, hreplays, hcomplete, _⟩ := hw.states (j.states.length - 1) state
      (by rw [← List.getLast?_eq_getElem?]; exact hstate)
    have hpos : 0 < j.states.length := by
      cases hs : j.states with
      | nil =>
        rw [hs] at hstate
        cases hstate
      | cons a l => simp
    rw [List.take_of_length_le (by have := hw.length; omega)] at hreplays
    rw [hcore] at hcomplete
    exact ⟨snapshot, edits, recovery, _, hreplays, hcomplete.toMirrors, hle, hw⟩

theorem write_records (comparator : Comparator) {snapshot record : Bytes} {edits : List Bytes}
    {prepared : Prepared ByteKey} {writer : WalWriter}
    (hprepared : prepared.snapshot =
      if j.set.manifest.isNone then some (j.set.snapshot comparator.name) else none)
    (hbase : match j.set.manifest with
      | none => snapshot = (j.set.snapshot comparator.name).encode ∧ edits = []
      | some writer => Written extend comparator j writer snapshot edits)
    (hwrite : write extend j.set.manifest j.set.manifestFileNumber
      ((prepared.snapshot.map VersionEdit.encode).getD []) record j.world = (.returned writer, world)) :
    world.disk .current = some (currentFileContents j.set.manifestFileNumber) ∧
      world.disk (.descriptor j.set.manifestFileNumber) =
        some (recordsBytes extend 0 (snapshot :: (edits ++ [record]))) ∧
      writer = { file := .descriptor j.set.manifestFileNumber
                 blockOffset := recordsEnd extend 0 (snapshot :: (edits ++ [record])) } := by
  cases hm : j.set.manifest with
  | none =>
    rw [hm] at hbase hwrite hprepared
    obtain ⟨rfl, rfl⟩ := hbase
    rw [hprepared] at hwrite
    exact write_none_returned hwrite
  | some manifest =>
    rw [hm] at hbase hwrite
    have hwriter := hbase.writer
    subst hwriter
    obtain ⟨hdisk, hwriter⟩ := write_some_returned rfl rfl hbase.contents hwrite
    refine ⟨?_, ?_, hwriter⟩
    · rw [hdisk, Function.update_of_ne (by simp)]
      exact hbase.current
    · rw [hdisk, Function.update_self]
      rfl

theorem before_states {snapshot : Bytes} {edits : List Bytes}
    (hbase : match j.set.manifest with
      | none => snapshot = (j.set.snapshot comparator.name).encode ∧ edits = []
      | some writer => Written extend comparator j writer snapshot edits) :
    edits.length = j.before.length ∧ ∀ i state, j.before[i]? = some state →
      Reaches extend comparator (snapshot :: edits.take (i + 1)) state := by
  unfold Journal.before
  cases hm : j.set.manifest with
  | none =>
    rw [hm] at hbase
    obtain ⟨_, rfl⟩ := hbase
    exact ⟨rfl, fun i state hi => by simp at hi⟩
  | some writer =>
    rw [hm] at hbase
    exact ⟨hbase.length, hbase.states⟩

theorem Journal.Inv.logAndApply [Std.TransCmp comparator.internal]
    (hname : comparator.name.length < 2 ^ 32) (hinv : Journal.Inv extend comparator j)
    (hok : VersionSet.logAndApply extend comparator overload j.set edit j.world =
      (.returned (), set, world))
    (hduring : ∀ call ∈ overload.during, call.Within) (hedit : Buildable edit)
    (htrusted : ∀ during, overload = .trusted during →
      VersionBuilder.Trusted comparator.internal j.set.current edit) :
    Journal.Inv extend comparator (j.record edit set world) := by
  have hs := hinv.sound
  obtain ⟨prepared, writer, next, last, hacc, hwrite, hnext, hlast, rfl⟩ :=
    logAndApply_returned hduring hs.last hok
  obtain ⟨hc, version, hbuild, hprepared⟩ := accept_eq_ok hacc
  obtain ⟨ht, rfl⟩ := buildVersion_trusted hs.valid.toListed hbuild htrusted
  obtain ⟨snapshot, edits, recovery, bound, hreplays, hmirrors, hbound, hbase⟩ :=
    hinv.base hname hc.capacity
  obtain ⟨recovery', happly, hcomplete⟩ :=
    replay_edit hname hs hedit hc ht hmirrors hbound hprepared
  obtain ⟨hcurrent, hcontents, hwriter⟩ :=
    write_records comparator (by rw [hprepared]; rfl) hbase hwrite
  have hpublished : Sound comparator (j.set.publish prepared) := by
    rw [hprepared]
    exact hs.publish hedit hc ht
  have hsound := hpublished.counters hnext hlast
  have hnumbers : ∀ number ∈ (j.record edit { j.set.publish prepared with
      nextFileNumber := next, lastSequence := last, manifest := some writer } world).numbers,
      number < j.set.nextFileNumber := by
    intro number hn
    simp only [Journal.record, List.mem_append, List.mem_cons, List.not_mem_nil, or_false] at hn
    rcases hn with hn | hn | rfl | rfl | rfl
    · exact hinv.numbers number hn
    · exact editNumbers_lt hc hn
    · exact hpublished.log
    · exact hpublished.prev
    · exact hs.manifest_lt
  have hnew : Reaches extend comparator (snapshot :: (edits ++ [prepared.edit.encode]))
      { core := ⟨prepared.version, prepared.compactPointers, prepared.logNumber, prepared.prevLogNumber⟩
        nextFileNumber := j.set.nextFileNumber, lastSequence := j.set.lastSequence
        manifestSize := (recordsBytes extend 0 (snapshot :: (edits ++ [prepared.edit.encode]))).length } :=
    ⟨recovery', hreplays.concat happly, hcomplete, hpublished.valid, hc.capacity, rfl⟩
  obtain ⟨hlength, hbefore⟩ := before_states hbase
  refine ⟨{ hsound with }, fun n hn => lt_of_lt_of_le (hnumbers n hn) hnext, fun hnone => ?_, ?_⟩
  · cases hnone
  rintro _ ⟨⟩
  refine ⟨snapshot, edits ++ [prepared.edit.encode], hwriter, lt_of_lt_of_le hs.manifest_lt hc.capacity,
    hcurrent, hcontents, ?_, ?_, ?_⟩
  · simp only [Journal.record, List.length_append, List.length_singleton, hlength]
  · intro i state hi
    simp only [Journal.record] at hi
    rcases Nat.lt_or_ge i j.before.length with hlt | hge
    · rw [List.getElem?_append_left hlt] at hi
      rw [List.take_append_of_le_length (by omega)]
      exact hbefore i state hi
    · have hi' : i = j.before.length := by
        have hsome := (List.getElem?_eq_some_iff.mp hi).1
        rw [List.length_append, List.length_singleton] at hsome
        omega
      subst hi'
      rw [List.getElem?_concat_length] at hi
      cases hi
      rw [List.take_of_length_le (by simp [hlength])]
      have hsize : ((world.disk (.descriptor j.set.manifestFileNumber)).getD []).length =
          (recordsBytes extend 0 (snapshot :: (edits ++ [prepared.edit.encode]))).length := by
        rw [hcontents]
        rfl
      rw [← hsize] at hnew
      exact hnew
  · exact ⟨_, List.getLast?_concat, rfl, hnext, hnumbers⟩

end Step

/-! ## Recovery of a journal -/

instance [Std.TransCmp comparator.compare] : Std.TransCmp comparator.internal :=
  inferInstanceAs (Std.TransCmp (InternalKey.internalCompare comparator.compare))

theorem sound_empty (comparator : Comparator) : Sound comparator {} where
  valid := ⟨⟨fun _ => .nil, fun _ _ h => (by cases h), fun _ _ _ _ h => (by cases h)⟩, fun _ _ => .nil⟩
  files := fun _ _ h => (by cases h)
  pointers := fun _ _ h => (by cases h)
  log := by decide
  prev := by decide
  last := by decide
  manifest_pos := by decide
  manifest_lt := by decide

theorem create_returned {world world' : World}
    (h : create extend comparator world = (.returned set, world')) :
    logAndApply extend comparator .checked {} {} world = (.returned (), set, world') := by
  unfold create at h
  rcases hl : logAndApply extend comparator .checked {} {} world with ⟨_ | _ | _, set₁, world₁⟩
  · rw [hl] at h
    cases h
    rfl
  · rw [hl] at h
    cases h
  · rw [hl] at h
    cases h

theorem Journal.Start.inv [Std.TransCmp comparator.internal]
    (hname : comparator.name.length < 2 ^ 32) (h : Journal.Start extend comparator j) :
    Journal.Inv extend comparator j := by
  cases h with
  | @created world world' set h =>
    have hinv : Journal.Inv extend comparator { set := {}, world } :=
      ⟨sound_empty comparator, fun _ hn => (by cases hn), fun _ => rfl, fun _ hw => (by cases hw)⟩
    exact hinv.logAndApply hname (create_returned h) (fun _ hc => (by cases hc))
      ⟨fun _ hp => (by cases hp), fun _ ha => (by cases ha)⟩ (fun _ hd => (by cases hd))
  | recovered h =>
    obtain ⟨hsound, hmanifest, hnumbers⟩ := recover_sound h
    refine ⟨hsound, hnumbers, fun _ => rfl, fun writer hw => ?_⟩
    rw [hmanifest] at hw
    cases hw

theorem Journal.run_inv [Std.TransCmp comparator.internal] (hname : comparator.name.length < 2 ^ 32)
    {start : Journal} (hstart : Journal.Start extend comparator start)
    (h : Relation.ReflTransGen (Journal.Step extend comparator) start j) :
    Journal.Inv extend comparator j := by
  induction h with
  | refl => exact hstart.inv hname
  | tail _ hst ih =>
    cases hst with
    | counter call hcall => exact ih.counter hcall
    | logAndApply overload edit hok hduring hedit htrusted =>
      exact ih.logAndApply hname hok hduring hedit htrusted

/-- The files of a journal whose MANIFEST lost everything behind this byte. -/
def Journal.cut (j : Journal) (size : Nat) : Disk :=
  Function.update j.world.disk (.descriptor j.set.manifestFileNumber)
    ((j.world.disk (.descriptor j.set.manifestFileNumber)).map (·.take size))

theorem recordsBytes_take_le (extend : CrcExtend) (records : List Bytes) {a b : Nat} (h : a ≤ b) :
    (recordsBytes extend 0 (records.take a)).length ≤ (recordsBytes extend 0 (records.take b)).length := by
  have hsplit : records.take a ++ (records.take b).drop a = records.take b := by
    have htake : (records.take b).take a = records.take a := by
      rw [List.take_take, Nat.min_eq_left h]
    rw [← htake, List.take_append_drop]
  rw [← hsplit, WalReader.recordsBytes_append, List.length_append]
  omega

/-- A MANIFEST that is cut behind an edit recovers to the state after that edit or a later one. -/
theorem Journal.Inv.recover_cut [Std.TransCmp comparator.internal]
    (hinv : Journal.Inv extend comparator j) (policy : ReadPolicy) {k : Nat} {state : Recorded}
    (hk : j.states[k]? = some state) {size : Nat} (hsize : state.manifestSize ≤ size) :
    ∃ i state', k ≤ i ∧ j.states[i]? = some state' ∧
      recover extend comparator policy (j.cut size) = .ok (ManifestRecovery.recovered state'.core
        state'.nextFileNumber state'.lastSequence j.set.manifestFileNumber) ∧
      ((∀ contents ∈ j.world.disk (.descriptor j.set.manifestFileNumber), contents.length ≤ size) →
        i + 1 = j.states.length) := by
  cases hm : j.set.manifest with
  | none =>
    rw [hinv.unwritten hm] at hk
    cases hk
  | some writer =>
    obtain ⟨snapshot, edits, hw⟩ := hinv.manifest writer hm
    have hmanifest : j.cut size (.descriptor j.set.manifestFileNumber) =
        some ((recordsBytes extend 0 (snapshot :: edits)).take size) := by
      unfold Journal.cut
      rw [Function.update_self, hw.contents]
      rfl
    have hcurrent : j.cut size .current = some (currentFileContents j.set.manifestFileNumber) := by
      unfold Journal.cut
      rw [Function.update_of_ne (by simp)]
      exact hw.current
    obtain ⟨count, hcount, hcut, hrecover⟩ := ManifestRecovery.recover_eq comparator policy
      (Nat.pos_iff_ne_zero.mp hinv.sound.manifest_pos) hw.limit hcurrent hmanifest
    obtain ⟨_, _, _, _, _, hstate⟩ := hw.states k state hk
    have hkl : k < j.states.length := (List.getElem?_eq_some_iff.mp hk).1
    have hlength := hw.length
    -- The cut keeps the snapshot and the edits up to the one of `state`.
    have hkept : k + 2 ≤ count := by
      by_contra hlt
      rcases hcut with hcut | hcut
      · rw [List.length_cons] at hcut
        omega
      · have hmono := recordsBytes_take_le extend (snapshot :: edits)
          (show count + 1 ≤ k + 2 by omega)
        rw [show (snapshot :: edits).take (k + 2) = snapshot :: edits.take (k + 1) from rfl] at hmono
        omega
    obtain ⟨i, rfl⟩ : ∃ i, count = i + 2 := ⟨count - 2, by omega⟩
    rw [List.length_cons] at hcount hcut
    have hi : i < j.states.length := by omega
    obtain ⟨recovery, hreplays, hcomplete, hvalid, hlimit, _⟩ := hw.states i j.states[i]
      (List.getElem?_eq_getElem hi)
    refine ⟨i, j.states[i], by omega, List.getElem?_eq_getElem hi, ?_, ?_⟩
    · rw [hrecover recovery (by rw [List.take_succ_cons]; exact hreplays)]
      exact hcomplete.finish hvalid hlimit _
    · intro hwhole
      have hle := hwhole _ hw.contents
      rcases hcut with hcut | hcut
      · omega
      · have hmono := recordsBytes_take_le extend (snapshot :: edits)
          (show i + 2 + 1 ≤ max (i + 2 + 1) (snapshot :: edits).length by omega)
        rw [List.take_of_length_le (by omega : (snapshot :: edits).length ≤ max _ _)] at hmono
        omega

/-- Recovery of what a journal wrote gives back its core, and numbers files above everything that was
recorded. -/
theorem Journal.Inv.recover_last [Std.TransCmp comparator.internal]
    (hinv : Journal.Inv extend comparator j) (policy : ReadPolicy) {state : Recorded}
    (hstate : j.states.getLast? = some state) :
    recover extend comparator policy j.world.disk = .ok (ManifestRecovery.recovered (core j.set)
        state.nextFileNumber state.lastSequence j.set.manifestFileNumber) ∧
      ∀ number ∈ j.numbers, number < state.nextFileNumber := by
  have hk : j.states[j.states.length - 1]? = some state := by
    rw [← List.getLast?_eq_getElem?]
    exact hstate
  cases hm : j.set.manifest with
  | none =>
    rw [hinv.unwritten hm] at hstate
    cases hstate
  | some writer =>
    obtain ⟨snapshot, edits, hw⟩ := hinv.manifest writer hm
    obtain ⟨state', hstate', hcore, _, hnumbers⟩ := hw.last
    cases hstate.symm.trans hstate'
    let size := max state.manifestSize (recordsBytes extend 0 (snapshot :: edits)).length
    have hwhole : ∀ contents ∈ j.world.disk (.descriptor j.set.manifestFileNumber),
        contents.length ≤ size := by
      intro contents hc
      cases hc.symm.trans hw.contents
      exact le_max_right _ _
    have hcut : j.cut size = j.world.disk := by
      unfold Journal.cut
      rw [hw.contents, Option.map_some, List.take_of_length_le (le_max_right _ _), ← hw.contents,
        Function.update_eq_self]
    obtain ⟨i, last, _, hi, hrecover, hend⟩ := hinv.recover_cut policy hk (le_max_left _ _ : _ ≤ size)
    rw [show i = j.states.length - 1 by have := hend hwhole; omega, hk] at hi
    cases hi
    rw [hcut, hcore] at hrecover
    exact ⟨hrecover, hnumbers⟩

/-- After any sequence of successful calls of either overload, with counter calls between them, on a
version set from `Create` or `Recover`: recovery of the files succeeds and gives the same files in the
same order, the same pointers and log numbers, the last sequence of the last edit, and a next file
number above every number that was ever recorded. If the MANIFEST is cut anywhere behind its `k`-th
edit, recovery gives exactly the state after one of the edits from the `k`-th on, with its counters. -/
theorem recover_restores_edits (extend : CrcExtend) (comparator : Comparator)
    [Std.TransCmp comparator.compare] (hname : comparator.name.length < 2 ^ 32) {start j : Journal}
    (hstart : Journal.Start extend comparator start)
    (h : Relation.ReflTransGen (Journal.Step extend comparator) start j) (policy : ReadPolicy) :
    (∀ state, j.states.getLast? = some state →
      ∃ set, recover extend comparator policy j.world.disk = .ok set ∧
        set.current = j.set.current ∧ set.compactPointers = j.set.compactPointers ∧
        set.logNumber = j.set.logNumber ∧ set.prevLogNumber = j.set.prevLogNumber ∧
        set.lastSequence = state.lastSequence ∧ ∀ number ∈ j.numbers, number < set.nextFileNumber) ∧
    ∀ k state, 1 ≤ k → j.states[k - 1]? = some state → ∀ size, state.manifestSize ≤ size →
      ∃ i state' set, k ≤ i ∧ j.states[i - 1]? = some state' ∧
        recover extend comparator policy (j.cut size) = .ok set ∧
        core set = state'.core ∧ set.lastSequence = state'.lastSequence ∧
        set.nextFileNumber = max state'.nextFileNumber (j.set.manifestFileNumber + 1) + 1 := by
  have hinv := Journal.run_inv hname hstart h
  refine ⟨fun state hstate => ?_, fun k state hk hstate size hsize => ?_⟩
  · obtain ⟨hrecover, hnumbers⟩ := hinv.recover_last policy hstate
    refine ⟨_, hrecover, rfl, rfl, rfl, rfl, rfl, fun number hn => ?_⟩
    have hlt := hnumbers number hn
    show number < max state.nextFileNumber (j.set.manifestFileNumber + 1) + 1
    omega
  · obtain ⟨i, state', hi, hstate', hrecover, _⟩ := hinv.recover_cut policy hstate hsize
    exact ⟨i + 1, state', _, by omega, hstate', hrecover, rfl, rfl, rfl⟩

def bytewise : Comparator := ⟨ascii "bytewise", fun a b => compare a b⟩

instance : Std.TransCmp bytewise.compare :=
  inferInstanceAs (Std.TransCmp (compare : Bytes → Bytes → Ordering))

theorem accept_empty [Std.TransCmp comparator.internal] :
    accept comparator .checked {} {} = .ok (prepare comparator.name {} {} {}) :=
  accept_of_checked rfl rfl (VersionBuilder.build_of_represents (sound_empty comparator).valid
    (fun _ => List.Perm.refl _))

/-! ## A file that is added and replaced -/

def addingEdit : VersionEdit ByteKey where
  logNumber := some 3
  compactPointers := [(1, ⟨ascii "b", 5, .value⟩)]
  newFiles := [(1, { number := 2, fileSize := 10, smallest := ⟨ascii "a", 4, .value⟩
                     largest := ⟨ascii "c", 5, .value⟩ })]

def replacingEdit : VersionEdit ByteKey where
  deletedFiles := [.mk 1 2]
  newFiles := [(2, { number := 4, fileSize := 10, smallest := ⟨ascii "a", 4, .value⟩
                     largest := ⟨ascii "c", 5, .value⟩ })]
  deleted_sorted := List.pairwise_singleton _ _

def Journal.count (j : Journal) (call : CounterCall) : Journal := { j with set := call.apply j.set }

/-- A checked call of `LogAndApply` that has to return, with a CRC that is always the same. -/
def Journal.tryApply (j : Journal) (edit : VersionEdit ByteKey) : Option Journal :=
  match logAndApply (fun c _ => c) bytewise .checked j.set edit j.world with
  | (.returned (), set, world) => some (j.record edit set world)
  | _ => none

theorem Journal.tryApply_step {j' : Journal} (hedit : Buildable edit)
    (h : j.tryApply edit = some j') : Journal.Step (fun c _ => c) bytewise j j' := by
  unfold Journal.tryApply at h
  split at h
  · next hok =>
    cases h
    exact .logAndApply j .checked edit hok (by simp [Overload.during]) hedit (by simp)
  · cases h

/-- `Create` in an empty directory, and both edits with the counter calls that they need. -/
def replacedJournal : Option Journal :=
  match create (fun c _ => c) bytewise { disk := fun _ => none } with
  | (.returned set, world) => do
      let created := Journal.record { set := {}, world := { disk := fun _ => none } } {} set world
      let j ← (((created.count .newFileNumber).count .newFileNumber).count (.setLastSequence 7)).tryApply
        addingEdit
      (j.count .newFileNumber).tryApply replacingEdit
  | _ => none

theorem replacedJournal_run (h : replacedJournal = some j) : ∃ created,
    Journal.Start (fun c _ => c) bytewise created ∧
      Relation.ReflTransGen (Journal.Step (fun c _ => c) bytewise) created j := by
  unfold replacedJournal at h
  split at h
  · next set world hcreate =>
    obtain ⟨_, hadding, hreplacing⟩ := Option.bind_eq_some_iff.mp h
    refine ⟨_, .created hcreate, ?_⟩
    apply Relation.ReflTransGen.tail _ (Journal.tryApply_step ⟨by decide, by decide⟩ hreplacing)
    apply Relation.ReflTransGen.tail _ (.counter _ .newFileNumber trivial)
    apply Relation.ReflTransGen.tail _ (Journal.tryApply_step ⟨by decide, by decide⟩ hadding)
    apply Relation.ReflTransGen.tail _ (.counter _ (.setLastSequence 7) (show 7 ≤ _ by decide))
    exact .tail (.single (.counter _ .newFileNumber trivial)) (.counter _ .newFileNumber trivial)
  · cases h

/-- The edit before the last one ends at 83 bytes, and the MANIFEST is cut inside the last one. -/
theorem recover_restores_edits_replaced : ∃ j : Journal,
    (j.set.current.files 1).map (·.number) = [] ∧ (j.set.current.files 2).map (·.number) = [4] ∧
    j.states.map (·.manifestSize) = [32, 83, 125] ∧
    (∃ set, recover (fun c _ => c) bytewise ⟨fun _ _ => 1, fun _ => ""⟩ j.world.disk = .ok set ∧
      set.current = j.set.current ∧ set.compactPointers = j.set.compactPointers ∧ set.logNumber = 3 ∧
      set.lastSequence = 7 ∧ 4 < set.nextFileNumber) ∧
    ∃ set, recover (fun c _ => c) bytewise ⟨fun _ _ => 1, fun _ => ""⟩ (j.cut 100) = .ok set ∧
      ∃ state ∈ j.states.drop 1, core set = state.core ∧ set.lastSequence = state.lastSequence := by
  obtain ⟨j, hj⟩ := Option.isSome_iff_exists.mp (by decide +kernel : replacedJournal.isSome)
  have hfacts : replacedJournal.map (fun j => [(j.set.current.files 1).map (·.number),
      (j.set.current.files 2).map (·.number), [j.set.logNumber], j.numbers, j.states.map (·.manifestSize),
      j.states.map (·.lastSequence)]) = some [[], [4], [3], [0, 0, 1, 2, 3, 3, 0, 1, 4, 3, 0, 1],
        [32, 83, 125], [0, 7, 7]] := by
    decide +kernel
  rw [hj] at hfacts
  simp only [Option.map_some, Option.some.injEq, List.cons.injEq] at hfacts
  obtain ⟨hone, htwo, ⟨hlog, _⟩, hnumbers, hsizes, hsequences, _⟩ := hfacts
  obtain ⟨_, hstart, hrun⟩ := replacedJournal_run hj
  obtain ⟨hwhole, hcut⟩ := recover_restores_edits (fun c _ => c) bytewise (by decide) hstart hrun
    ⟨fun _ _ => 1, fun _ => ""⟩
  refine ⟨j, hone, htwo, hsizes, ?_, ?_⟩
  · obtain ⟨last, hlast, hseven⟩ := Option.map_eq_some_iff.mp
      (List.getLast?_map.symm.trans (congrArg List.getLast? hsequences))
    obtain ⟨set, hrecover, hcurrent, hpointers, hlogNumber, _, hsequence, hlt⟩ := hwhole last hlast
    exact ⟨set, hrecover, hcurrent, hpointers, hlogNumber.trans hlog, hsequence.trans hseven,
      hlt 4 (by simp [hnumbers])⟩
  · obtain ⟨second, hsecond, hsize⟩ := Option.map_eq_some_iff.mp
      (List.getElem?_map.symm.trans (congrArg (fun sizes => sizes[1]?) hsizes))
    obtain ⟨i, state, set, hi, hstate, hrecover, hcore, hsequence, _⟩ :=
      hcut 2 second (by decide) hsecond 100 (by omega)
    refine ⟨set, hrecover, state, List.mem_of_getElem? (i := i - 2) ?_, hcore, hsequence⟩
    rw [List.getElem?_drop, show 1 + (i - 2) = i - 1 by omega]
    exact hstate

end ModernLevelDB.VersionSet
