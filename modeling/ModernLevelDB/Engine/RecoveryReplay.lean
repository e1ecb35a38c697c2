import ModernLevelDB.Engine.Recovery
import ModernLevelDB.Memory.MemTable
import ModernLevelDB.Metadata.RecoverRuns

/-! # What a replay does

The batches of the selected logs follow one another when each takes sequences above those before it.
`Replays` says where a replay stands in such a list of batches: the batches are those of the tables it
wrote, in consecutive groups, and those in the memtable. Each record goes on by one batch or shows that
the records are no list of batches that follow one another. -/
namespace ModernLevelDB
set_option autoImplicit false

/-! ## Batches that follow one another -/

/-- The last sequence that a batch uses; an empty one uses those before its own. -/
def Batch.last (batch : Batch) : Nat := batch.sequence + batch.writes.length - 1

def lastUsed (batches : List Batch) : Nat := batches.foldl (fun last batch => max last batch.last) 0

/-- Each batch has a sequence above those that the batches before it use. -/
def Follow (batches : List Batch) : Prop :=
  ∀ before batch after, batches = before ++ batch :: after → lastUsed before < batch.sequence

theorem lastUsed_concat (batches : List Batch) (batch : Batch) :
    lastUsed (batches ++ [batch]) = max (lastUsed batches) batch.last := by
  rw [lastUsed, List.foldl_append]
  rfl

variable {batches : List Batch}

theorem le_lastUsed {batch : Batch} (h : batch ∈ batches) : batch.last ≤ lastUsed batches := by
  induction batches using List.reverseRecOn with
  | nil => cases h
  | append_singleton batches last ih =>
    rw [lastUsed_concat]
    rcases List.mem_append.mp h with h | h
    · exact (ih h).trans (le_max_left _ _)
    · rw [List.mem_singleton.mp h]
      exact le_max_right _ _

theorem lastUsed_of_lt {batch : Batch} (h : lastUsed batches < batch.sequence) :
    lastUsed (batches ++ [batch]) = batch.last := by
  rw [lastUsed_concat, Batch.last]
  omega

theorem follow_nil : Follow [] := by
  intro before batch after h
  cases before with
  | nil => cases h
  | cons _ _ => cases h

theorem Follow.left {more : List Batch} (h : Follow (batches ++ more)) : Follow batches := by
  rintro before batch after rfl
  exact h before batch (after ++ more) (by rw [List.append_assoc, List.cons_append])

theorem follow_concat {batch : Batch} :
    Follow (batches ++ [batch]) ↔ Follow batches ∧ lastUsed batches < batch.sequence := by
  constructor
  · exact fun h => ⟨h.left, h batches batch [] rfl⟩
  · rintro ⟨hfollow, hlast⟩ before batch' after h
    rcases List.eq_nil_or_concat' after with rfl | ⟨after, last, rfl⟩
    · obtain ⟨rfl, hbatch⟩ := List.append_inj' h rfl
      obtain rfl := (List.cons.inj hbatch).1
      exact hlast
    · rw [← List.cons_append, ← List.append_assoc] at h
      exact hfollow before batch' after (List.append_inj' h rfl).1

theorem Follow.pairwise (h : Follow batches) :
    batches.Pairwise (fun a b => a.last < b.sequence) := by
  induction batches using List.reverseRecOn with
  | nil => exact .nil
  | append_singleton batches batch ih =>
    obtain ⟨hfollow, hlast⟩ := follow_concat.mp h
    refine List.pairwise_append.mpr ⟨ih hfollow, List.pairwise_singleton _ _, fun a ha b hb => ?_⟩
    rw [List.mem_singleton.mp hb]
    exact (le_lastUsed ha).trans_lt hlast

namespace RecoveryContext

def batchEntries (batches : List Batch) : List (Entry Bytes Bytes) :=
  batches.flatMap (fun batch => batch.entries.map entryOf)

theorem batchEntries_append (batches more : List Batch) :
    batchEntries (batches ++ more) = batchEntries batches ++ batchEntries more :=
  List.flatMap_append

theorem batchEntries_singleton (batch : Batch) :
    batchEntries [batch] = batch.entries.map entryOf := by
  rw [batchEntries, List.flatMap_cons, List.flatMap_nil, List.append_nil]

theorem batchEntries_sequence {batch : Batch} {entry : Entry Bytes Bytes}
    (h : entry ∈ batch.entries.map entryOf) :
    batch.sequence ≤ entry.sequence ∧ entry.sequence ≤ batch.last := by
  obtain ⟨written, hwritten, rfl⟩ := List.mem_map.mp h
  have hsequence := sequence_entriesOf hwritten
  rw [Batch.last]
  exact ⟨hsequence.1, Nat.le_sub_one_of_lt hsequence.2⟩

/-! ## The state of a replay -/

variable (context : RecoveryContext)

/-- The table of a group of batches. -/
structure Holds (group : List Batch) (table : RecoveryTable) : Prop where
  entries : table.entries = context.iterate (batchEntries group)
  ne_nil : batchEntries group ≠ []
  ordered : context.comparator.internal table.metadata.smallest table.metadata.largest ≠ .gt

/-- What replaying `batches` has made: a table for each group of them, then a rest in memory. -/
structure Replays (start : VersionSet ByteKey) (opened : List Nat) (batches : List Batch)
    (replay : LogReplay) : Prop where
  follow : Follow batches
  last : replay.lastSequence = lastUsed batches
  opened : replay.opened = opened
  versions : replay.versions =
    { start with nextFileNumber := start.nextFileNumber + replay.tables.length }
  edit : replay.edit = { newFiles := replay.tables.map (fun table => (0, table.metadata)) }
  numbers : replay.tables.map (fun table => table.metadata.number) =
    List.range' start.nextFileNumber replay.tables.length
  parts : ∃ (parts : List (List Batch × RecoveryTable)) (rest : List Batch),
    batches = parts.flatMap Prod.fst ++ rest ∧ replay.tables = parts.map Prod.snd ∧
      (∀ part ∈ parts, context.Holds part.1 part.2) ∧ replay.memtable = batchEntries rest
  entries : replay.hasEntries = true ↔ replay.memtable ≠ []

variable {context} {start : VersionSet ByteKey} {opened : List Nat} {batches : List Batch}
  {replay : LogReplay}

theorem replays_start (start : VersionSet ByteKey) : context.Replays start [] [] { versions := start } where
  follow := follow_nil
  last := rfl
  opened := rfl
  versions := rfl
  edit := rfl
  numbers := rfl
  parts := ⟨[], [], rfl, rfl, (fun _ h => nomatch h), rfl⟩
  entries := by simp

/-! ## Records in turn -/

/-- The records take the replay on from the batches, or they are no batches that follow these. -/
def Accepted (context : RecoveryContext) (start : VersionSet ByteKey) (opened : List Nat)
    (batches : List Batch) (records : List Bytes) : Result LogReplay → Prop
  | .ok replay => ∃ more, List.Forall₂ IsBatch records more ∧
      context.Replays start opened (batches ++ more) replay
  | .error _ => ¬∃ more, List.Forall₂ IsBatch records more ∧ Follow (batches ++ more)

theorem forall₂_split {α β : Type*} {R : α → β → Prop} (l : List α) {more : List α} :
    ∀ {m : List β}, List.Forall₂ R (l ++ more) m →
      ∃ m₁ m₂, m = m₁ ++ m₂ ∧ List.Forall₂ R l m₁ ∧ List.Forall₂ R more m₂ := by
  induction l with
  | nil => exact fun h => ⟨[], _, rfl, .nil, h⟩
  | cons a l ih =>
    intro m h
    obtain ⟨b, m, hab, hrest, rfl⟩ := List.forall₂_cons_left_iff.mp h
    obtain ⟨m₁, m₂, rfl, h₁, h₂⟩ := ih hrest
    exact ⟨b :: m₁, m₂, rfl, .cons hab h₁, h₂⟩

theorem accepted_nil (h : context.Replays start opened batches replay) :
    context.Accepted start opened batches [] (.ok replay) :=
  ⟨[], .nil, by rwa [List.append_nil]⟩

theorem Accepted.bind {opened' : List Nat} {records more : List Bytes} {x : Result LogReplay}
    {f : LogReplay → Result LogReplay} (hx : context.Accepted start opened batches records x)
    (hf : ∀ found replay, context.Replays start opened (batches ++ found) replay →
      context.Accepted start opened' (batches ++ found) more (f replay)) :
    context.Accepted start opened' batches (records ++ more) (x >>= f) := by
  cases x with
  | error error =>
    rintro ⟨all, hall, hfollow⟩
    obtain ⟨found, rest, rfl, hfound, _⟩ := forall₂_split records hall
    rw [← List.append_assoc] at hfollow
    exact hx ⟨found, hfound, hfollow.left⟩
  | ok replay =>
    obtain ⟨found, hfound, hreplays⟩ := hx
    have hnext := hf found replay hreplays
    show context.Accepted start opened' batches (records ++ more) (f replay)
    cases hresult : f replay with
    | ok replay' =>
      rw [hresult] at hnext
      obtain ⟨rest, hrest, hreplays'⟩ := hnext
      rw [List.append_assoc] at hreplays'
      exact ⟨found ++ rest, List.rel_append hfound hrest, hreplays'⟩
    | error error =>
      rw [hresult] at hnext
      rintro ⟨all, hall, hfollow⟩
      obtain ⟨found', rest, rfl, hfound', hrest⟩ := forall₂_split records hall
      obtain rfl := List.right_unique_forall₂' (fun _ _ _ h h' => h.unique h') hfound hfound'
      rw [← List.append_assoc] at hfollow
      exact hnext ⟨rest, hrest, hfollow⟩

/-! ## Intact records -/

open WalReader

def recordsIn (events : List WalReadEvent) : List Bytes :=
  events.filterMap fun
    | .record data _ => some data
    | .corruption _ _ _ => none

def logRecords (context : RecoveryContext) (disk : Disk) (number : Nat) : List Bytes :=
  match openSequential context.policy disk (.log number) with
  | .ok file => recordsIn (VersionSet.manifestEvents context.extend file)
  | .error _ => []

theorem recordsIn_recordEvents (extend : CrcExtend) (records : List Bytes) : ∀ position : Nat,
    recordsIn (recordEvents extend position records) = records := by
  induction records with
  | nil => exact fun _ => rfl
  | cons record records ih => exact fun position => congrArg (record :: ·) (ih _)

theorem logRecords_written {disk : Disk} {number : Nat} {records : List Bytes}
    (h : disk (.log number) = some (recordsBytes context.extend 0 records)) :
    context.logRecords disk number = records := by
  have hlayout := length_layout_le context.extend 0
    (recordsBytes context.extend 0 records)
  have hassemble := length_assemble_le (layout context.extend 0
    (recordsBytes context.extend 0 records)) none
  rw [logRecords, openSequential, h]
  dsimp only
  rw [VersionSet.manifestEvents, events_assemble context.extend _ (at_start _) rfl
    (by dsimp only; omega), assemble_log, recordsIn_recordEvents]

/-- The sequences of the batches stay within 56 bits. -/
def Bounded (records : List Bytes) : Prop :=
  ∀ record ∈ records, ∀ batch, IsBatch record batch → batch.sequence + batch.writes.length ≤ 2 ^ 56

/-! ## Tables -/

section Tables

variable [Std.TransCmp context.comparator.internal]

theorem iterate_sorted (memtable : List (Entry Bytes Bytes)) : (context.iterate memtable).Pairwise
    (fun a b => (context.comparator.internal a.key b.key).isLE = true) := by
  refine List.pairwise_mergeSort (fun a b c hab hbc => ?_) (fun a b => ?_) memtable
  · exact Std.TransCmp.isLE_trans hab hbc
  · have hswap : context.comparator.internal b.key a.key =
        (context.comparator.internal a.key b.key).swap := Std.OrientedCmp.eq_swap
    rw [hswap]
    cases context.comparator.internal a.key b.key <;> rfl

theorem isLE_head_getLast {l : List (Entry Bytes Bytes)} (hne : l ≠ [])
    (hsorted : l.Pairwise (fun a b => (context.comparator.internal a.key b.key).isLE = true)) :
    (context.comparator.internal (l.head hne).key (l.getLast hne).key).isLE = true := by
  obtain ⟨first, rest, rfl⟩ := List.exists_cons_of_ne_nil hne
  rcases List.mem_cons.mp (List.getLast_mem hne) with hlast | hlast
  · rw [hlast]
    exact Std.ReflCmp.isLE_rfl
  · exact List.rel_of_pairwise_cons hsorted hlast

variable (hwrite : ∀ number entries, ∃ size, context.writeTable number entries = .ok size)
include hwrite

theorem buildTable_eq {group : List Batch} (number : Nat)
    (hsome : batchEntries group ≠ []) :
    ∃ table, context.buildTable (batchEntries group) number = .ok (some table) ∧
      context.Holds group table ∧ table.metadata.number = number := by
  obtain ⟨size, hsize⟩ := hwrite number (context.iterate (batchEntries group))
  have hne : context.iterate (batchEntries group) ≠ [] := by
    intro hnil
    have hperm := List.mergeSort_perm (batchEntries group)
      (fun a b => (context.comparator.internal a.key b.key).isLE)
    rw [show List.mergeSort _ _ = [] from hnil] at hperm
    exact hsome (List.nil_perm.mp hperm)
  rw [buildTable, List.head?_eq_some_head hne, List.getLast?_eq_some_getLast hne, hsize]
  refine ⟨_, rfl, ⟨rfl, hsome, ?_⟩, rfl⟩
  exact Ordering.isLE_iff_ne_gt.mp (isLE_head_getLast hne (iterate_sorted _))

variable (hpos : 0 < start.nextFileNumber)
include hpos

theorem flush_replays (h : context.Replays start opened batches replay) :
    ∃ replay', context.flush replay = .ok replay' ∧
      context.Replays start opened batches replay' ∧ replay'.memtable = [] := by
  obtain ⟨parts, rest, hbatches, htables, hparts, hmemtable⟩ := h.parts
  rw [flush]
  by_cases hnone : replay.hasEntries = false
  · rw [if_pos hnone]
    refine ⟨replay, rfl, h, ?_⟩
    by_contra hsome
    rw [h.entries.mpr hsome] at hnone
    cases hnone
  · have hsome : batchEntries rest ≠ [] := by
      rw [← hmemtable]
      exact h.entries.mp (by simpa using hnone)
    rw [if_neg hnone, VersionSet.newFileNumber, h.versions, hmemtable]
    dsimp only
    obtain ⟨table, hbuild, hholds, hnumber⟩ :=
      buildTable_eq hwrite (start.nextFileNumber + replay.tables.length) hsome
    have hadd : (replay.edit.addFile 0 table.metadata) = .ok
        { newFiles := (replay.tables ++ [table]).map (fun table => (0, table.metadata)) } := by
      rw [VersionEdit.addFile, if_neg (by omega), h.edit, List.map_append]
      rfl
    rw [hbuild]
    dsimp only
    rw [hadd]
    refine ⟨_, rfl, ⟨h.follow, h.last, h.opened, ?_, rfl, ?_, ?_, ?_⟩, rfl⟩
    · rw [List.length_append, List.length_singleton]
      rfl
    · dsimp only
      rw [List.map_append, h.numbers, List.length_append, List.length_singleton,
        List.range'_concat, List.map_singleton, hnumber, Nat.one_mul]
    · refine ⟨parts ++ [(rest, table)], [], ?_, ?_,
        List.forall_mem_append.mpr ⟨hparts, List.forall_mem_singleton.mpr hholds⟩, rfl⟩
      · rw [hbatches, List.flatMap_append, List.flatMap_singleton, List.append_nil]
      · show replay.tables ++ [table] = _
        rw [htables, List.map_append, List.map_singleton]
    · simp

theorem applyRecord_accepted {record : Bytes}
    (hbound : ∀ batch, IsBatch record batch → batch.sequence + batch.writes.length ≤ 2 ^ 56)
    (h : context.Replays start opened batches replay) :
    context.Accepted start opened batches [record] (context.applyRecord replay record) := by
  rw [applyRecord]
  cases hopen : WriteBatchReader.openBatch record with
  | error error =>
    rintro ⟨more, hmore, _⟩
    obtain ⟨batch, _, hbatch, _⟩ := List.forall₂_cons_left_iff.mp hmore
    rw [WriteBatchReader.openBatch_of_isBatch hbatch] at hopen
    cases hopen
  | ok reader =>
    obtain ⟨batch, hbatch⟩ := WriteBatchReader.isBatch_of_openBatch hopen
    have hsequences := hbound batch hbatch
    rw [WriteBatchReader.openBatch_of_isBatch hbatch] at hopen
    obtain rfl := Except.ok.inj hopen
    dsimp only
    have hone : List.Forall₂ IsBatch [record] [batch] := .cons hbatch .nil
    by_cases hold : batch.sequence ≤ replay.lastSequence
    · rw [if_pos hold]
      rintro ⟨more, hmore, hfollow⟩
      obtain rfl := List.right_unique_forall₂' (fun _ _ _ h h' => h.unique h') hone hmore
      have hlast := (follow_concat.mp hfollow).2
      rw [h.last] at hold
      omega
    · rw [if_neg hold]
      have hlast : lastUsed batches < batch.sequence := by
        rw [← h.last]
        exact Nat.lt_of_not_le hold
      have hfollow : Follow (batches ++ [batch]) := follow_concat.mpr ⟨h.follow, hlast⟩
      obtain ⟨parts, rest, hbatches, htables, hparts, hmemtable⟩ := h.parts
      have hbatches' : batches ++ [batch] = parts.flatMap Prod.fst ++ (rest ++ [batch]) := by
        rw [hbatches, List.append_assoc]
      by_cases hempty : batch.writes.length = 0
      · rw [if_pos hempty]
        have hwrites := List.eq_nil_of_length_eq_zero hempty
        refine ⟨[batch], hone, hfollow, ?_, h.opened, h.versions, h.edit, h.numbers,
          ⟨parts, rest ++ [batch], hbatches', htables, hparts, ?_⟩, h.entries⟩
        · rw [lastUsed_of_lt hlast, Batch.last, hempty]
          rfl
        · show replay.memtable = _
          rw [hmemtable, batchEntries_append, batchEntries_singleton, Batch.entries, hwrites]
          simp [entriesOf]
      · rw [if_neg hempty]
        have hentries : (WriteBatchReader.mk (record.drop writeBatchHeaderSize) batch.sequence
            batch.writes.length 0).entries = batch.entries :=
          WriteBatchReader.entriesFrom_eq hbatch.body _ rfl (by dsimp only; omega)
        have hreplays : context.Replays start opened (batches ++ [batch]) { replay with
            memtable := replay.memtable ++ batch.entries.map entryOf
            lastSequence := (batch.sequence + batch.writes.length - 1) % 2 ^ 64
            hasEntries := true } := by
          refine ⟨hfollow, ?_, h.opened, h.versions, h.edit, h.numbers,
            ⟨parts, rest ++ [batch], hbatches', htables, hparts, ?_⟩, ?_⟩
          · rw [lastUsed_of_lt hlast]
            exact Nat.mod_eq_of_lt (by omega)
          · rw [batchEntries_append, batchEntries_singleton, hmemtable]
          · have hsome : batch.entries ≠ [] := fun hnil =>
              hempty (by rw [entriesOf_eq_nil.mp hnil]; rfl)
            simp [hsome]
        rw [hentries]
        split
        · obtain ⟨replay', hflush, hreplays', _⟩ := flush_replays hwrite hpos hreplays
          rw [hflush]
          exact ⟨[batch], hone, hreplays'⟩
        · exact ⟨[batch], hone, hreplays⟩

theorem replayEvents_accepted (events : List WalReadEvent) :
    ∀ {batches : List Batch} {replay : LogReplay}, Bounded (recordsIn events) →
      context.Replays start opened batches replay →
      context.Accepted start opened batches (recordsIn events) (context.replayEvents replay events) := by
  induction events with
  | nil => exact fun _ h => accepted_nil h
  | cons event events ih =>
    intro batches replay hbound h
    cases event with
    | corruption error dropped offset => exact ih hbound h
    | record data offset =>
      have hrest : Bounded (recordsIn events) :=
        fun record hrecord => hbound record (List.mem_cons_of_mem _ hrecord)
      exact (applyRecord_accepted hwrite hpos (hbound data List.mem_cons_self) h).bind
        (fun _ _ h' => ih hrest h')

theorem replayLog_accepted {disk : Disk} {number : Nat}
    (hopen : ∃ file, openSequential context.policy disk (.log number) = .ok file)
    (hbound : Bounded (context.logRecords disk number))
    (h : context.Replays start opened batches replay) :
    context.Accepted start (opened ++ [number]) batches (context.logRecords disk number)
      (context.replayLog disk replay number) := by
  obtain ⟨file, hfile⟩ := hopen
  rw [logRecords, hfile] at hbound ⊢
  rw [replayLog, hfile]
  exact replayEvents_accepted hwrite hpos _ hbound
    { h with opened := congrArg (· ++ [number]) h.opened }

theorem replayAll_accepted {disk : Disk} (logs : List Nat) :
    ∀ {opened : List Nat} {batches : List Batch} {replay : LogReplay},
      (∀ number ∈ logs, ∃ file, openSequential context.policy disk (.log number) = .ok file) →
      (∀ number ∈ logs, Bounded (context.logRecords disk number)) →
      context.Replays start opened batches replay →
      context.Accepted start (opened ++ logs) batches (logs.flatMap (context.logRecords disk))
        (logs.foldlM (context.replayLog disk) replay) := by
  induction logs with
  | nil =>
    intro opened batches replay _ _ h
    rw [List.append_nil]
    exact accepted_nil h
  | cons number logs ih =>
    intro opened batches replay hopen hbound h
    rw [List.flatMap_cons, List.foldlM_cons]
    have hfirst := replayLog_accepted hwrite hpos (hopen number List.mem_cons_self)
      (hbound number List.mem_cons_self) h
    refine hfirst.bind (fun found replay' h' => ?_)
    have hrest := ih (fun n hn => hopen n (List.mem_cons_of_mem _ hn))
      (fun n hn => hbound n (List.mem_cons_of_mem _ hn)) h'
    rwa [List.append_assoc] at hrest

/-- A replay of the logs succeeds when their records are batches that follow one another, and then it
has put all of them into tables. -/
theorem replayLogs_spec {disk : Disk} {logs : List Nat}
    (hopen : ∀ number ∈ logs, ∃ file, openSequential context.policy disk (.log number) = .ok file)
    (hbound : ∀ number ∈ logs, Bounded (context.logRecords disk number)) :
    (∃ replay batches, context.replayLogs disk logs { versions := start } = .ok replay ∧
      List.Forall₂ IsBatch (logs.flatMap (context.logRecords disk)) batches ∧
      context.Replays start logs batches replay ∧ replay.memtable = []) ∨
    ∃ error, context.replayLogs disk logs { versions := start } = .error error ∧
      ¬∃ batches, List.Forall₂ IsBatch (logs.flatMap (context.logRecords disk)) batches ∧
        Follow batches := by
  have hall := replayAll_accepted hwrite hpos logs hopen hbound (replays_start start)
  rw [replayLogs]
  cases hresult : logs.foldlM (context.replayLog disk) { versions := start } with
  | error error =>
    rw [hresult] at hall
    exact .inr ⟨error, rfl, hall⟩
  | ok replay =>
    rw [hresult] at hall
    obtain ⟨batches, hbatches, hreplays⟩ := hall
    obtain ⟨replay', hflush, hreplays', hmemtable⟩ := flush_replays hwrite hpos hreplays
    exact .inl ⟨replay', batches, hflush, hbatches, hreplays', hmemtable⟩

end Tables

/-! ## What a replay leaves -/

theorem iterate_perm (memtable : List (Entry Bytes Bytes)) : (context.iterate memtable).Perm memtable :=
  List.mergeSort_perm _ _

theorem batchEntries_flatMap (parts : List (List Batch × RecoveryTable))
    (h : ∀ part ∈ parts, context.Holds part.1 part.2) :
    (parts.flatMap (fun part => part.2.entries)).Perm (batchEntries (parts.flatMap Prod.fst)) := by
  rw [batchEntries, List.flatMap_assoc]
  refine List.Perm.flatMap_left parts (fun part hpart => ?_)
  rw [(h part hpart).entries]
  exact iterate_perm _

section

variable (h : context.Replays start opened batches replay)

include h

theorem Replays.entries_perm (hmemtable : replay.memtable = []) :
    (replay.tables.flatMap RecoveryTable.entries).Perm (batchEntries batches) := by
  obtain ⟨parts, rest, hbatches, htables, hparts, hrest⟩ := h.parts
  rw [hbatches, batchEntries_append, ← hrest, hmemtable, List.append_nil, htables, List.flatMap_map]
  exact batchEntries_flatMap parts hparts

theorem Replays.inside (hmemtable : replay.memtable = []) {batch : Batch} (hbatch : batch ∈ batches)
    (hwrites : batch.writes ≠ []) :
    ∃ table ∈ replay.tables, ∀ entry ∈ batch.entries.map entryOf, entry ∈ table.entries := by
  obtain ⟨parts, rest, hbatches, htables, hparts, hrest⟩ := h.parts
  rw [hbatches] at hbatch
  rcases List.mem_append.mp hbatch with hbatch | hbatch
  · obtain ⟨part, hpart, hbatch⟩ := List.mem_flatMap.mp hbatch
    refine ⟨part.2, by rw [htables]; exact List.mem_map_of_mem hpart, fun entry hentry => ?_⟩
    rw [(hparts part hpart).entries, (iterate_perm _).mem_iff]
    exact List.mem_flatMap.mpr ⟨batch, hbatch, hentry⟩
  · rw [hmemtable] at hrest
    have hnil := List.flatMap_eq_nil_iff.mp hrest.symm batch hbatch
    exact absurd (entriesOf_eq_nil.mp (List.map_eq_nil_iff.mp hnil)) hwrites

theorem Replays.length_tables_le :
    replay.tables.length ≤ batches.length := by
  obtain ⟨parts, rest, rfl, htables, hparts, _⟩ := h.parts
  rw [htables, List.length_map, List.length_append, List.length_flatMap]
  have hpos : ∀ n ∈ parts.map (fun part => part.1.length), 1 ≤ n := by
    intro n hn
    obtain ⟨part, hpart, rfl⟩ := List.mem_map.mp hn
    refine List.length_pos_iff.mpr (fun hnil => (hparts part hpart).ne_nil ?_)
    rw [hnil]
    rfl
  have hsum := List.length_le_sum_of_one_le _ hpos
  rw [List.length_map] at hsum
  omega

theorem Replays.tables_pairwise :
    replay.tables.Pairwise (fun a b => a.metadata.number < b.metadata.number ∧
      ∀ x ∈ a.entries, ∀ y ∈ b.entries, x.sequence < y.sequence) := by
  have hnumbers : replay.tables.Pairwise (fun a b => a.metadata.number < b.metadata.number) := by
    rw [← List.pairwise_map (f := fun table : RecoveryTable => table.metadata.number), h.numbers]
    exact List.pairwise_lt_range'
  obtain ⟨parts, rest, hbatches, htables, hparts, _⟩ := h.parts
  have hfollow := h.follow
  rw [hbatches] at hfollow
  have hpairwise := (List.pairwise_flatMap.mp hfollow.left.pairwise).2
  refine hnumbers.and ?_
  rw [htables, List.pairwise_map]
  refine hpairwise.imp_of_mem (fun {a b} ha hb hab x hx y hy => ?_)
  rw [(hparts a ha).entries, (iterate_perm _).mem_iff] at hx
  rw [(hparts b hb).entries, (iterate_perm _).mem_iff] at hy
  obtain ⟨batch, hbatch, hx⟩ := List.mem_flatMap.mp hx
  obtain ⟨batch', hbatch', hy⟩ := List.mem_flatMap.mp hy
  exact (batchEntries_sequence hx).2.trans_lt
    ((hab batch hbatch batch' hbatch').trans_le (batchEntries_sequence hy).1)

end

/-! ## The memtable

The list of additions stands for the memtable of the source: what its iterator shows is what the
byte-level memtable shows, for a comparator that compares by logical keys. -/

end RecoveryContext
end ModernLevelDB
