import ModernLevelDB.Engine.CompactionInputs

/-! # Running a compaction (`engine/compaction.h`)

A compaction reads the merged entries of its inputs in order. An entry is dropped when a newer one of
its user key is visible to every reader, or when it is such a deletion and no deeper level holds the
key; the others go to output tables of bounded size. `Compacted` states which entries may be missing
from the outputs, and `CompactionRun.Inv` is kept by every entry processed. -/
namespace ModernLevelDB
set_option autoImplicit false

variable {K V : Type*} [LinearOrder K]

/-! ## The helpers of a run -/

/-- `GrandparentOverlap`: `next` lists the grandparents not yet passed. -/
structure GrandparentOverlap (K : Type*) where
  next : List (TableFile K)
  seenKey : Bool := false
  overlapped : Nat := 0

namespace GrandparentOverlap

def passed (key : InternalKey K) (seenKey : Bool) :
    List (TableFile K) → Nat → List (TableFile K) × Nat
  | [], overlapped => ([], overlapped)
  | file :: rest, overlapped =>
      if file.largest < key then
        passed key seenKey rest (if seenKey then wrap64 (overlapped + file.fileSize) else overlapped)
      else (file :: rest, overlapped)

def shouldStopBefore (grandparents : GrandparentOverlap K) (limit : Nat) (key : InternalKey K) :
    Bool × GrandparentOverlap K :=
  let (next, overlapped) := passed key grandparents.seenKey grandparents.next grandparents.overlapped
  if limit < overlapped then (true, ⟨next, true, 0⟩) else (false, ⟨next, true, overlapped⟩)

end GrandparentOverlap

/-- `BaseLevel`: the files of every level that may still hold a key. -/
structure BaseLevel (K : Type*) where
  next : Level → List (TableFile K)

namespace BaseLevel

/-- `LevelContains`, with the files it leaves. -/
def levelContains (files : List (TableFile K)) (user : K) : Bool × List (TableFile K) :=
  match files.dropWhile (fun file => file.largest.userKey < user) with
  | [] => (false, [])
  | file :: rest => (file.smallest.userKey ≤ user, file :: rest)

def isBaseLevelForKey (user : K) : List Level → BaseLevel K → Bool × BaseLevel K
  | [], base => (true, base)
  | level :: levels, base =>
      let (contains, files) := levelContains (base.next level) user
      let base : BaseLevel K := ⟨fun l => if l = level then files else base.next l⟩
      if contains then (false, base) else isBaseLevelForKey user levels base

def levelsBelow (level : SourceLevel) : List Level :=
  (List.finRange numLevels).filter (fun l => level.val + 2 ≤ l.val)

end BaseLevel

/-- `VisibleHistory`: the user key and the sequence of the entry before. -/
structure VisibleHistory (K : Type*) where
  userKey : Option K := none
  lastSequence : Option Nat := none

namespace VisibleHistory

def startUserKey (history : VisibleHistory K) (user : K) : VisibleHistory K :=
  if history.userKey = some user then history else ⟨some user, none⟩

/-- `ShouldDrop`. The deeper levels are only asked about a deletion that nothing shadows. -/
def shouldDrop (history : VisibleHistory K) (base : BaseLevel K) (levels : List Level)
    (smallestSnapshot : Nat) (key : InternalKey K) : Bool × VisibleHistory K × BaseLevel K :=
  let history := history.startUserKey key.userKey
  let next := { history with lastSequence := some key.sequence }
  if history.lastSequence.any (· ≤ smallestSnapshot) then (true, next, base)
  else if key.kind = .deletion ∧ key.sequence ≤ smallestSnapshot then
    let (isBase, base) := base.isBaseLevelForKey key.userKey levels
    (isBase, next, base)
  else (false, next, base)

end VisibleHistory

/-! ## The state of a run -/

/-- A finished table. -/
structure Output (K V : Type*) [LinearOrder K] where
  file : TableFile K
  run : Run K V

/-- A running compaction: the entries left, those of the open output, and what is finished. -/
structure CompactionRun (K V : Type*) [LinearOrder K] where
  compaction : Compaction K
  smallestSnapshot : Nat
  remaining : List (Entry K V)
  grandparents : GrandparentOverlap K
  baseLevel : BaseLevel K
  history : VisibleHistory K := {}
  number : Option Nat := none
  entries : List (Entry K V) := []
  finished : List (Output K V) := []
  sorted : (entries ++ remaining).Pairwise (fun a b => a.key ≤ b.key)

/-- The merged entries of the inputs (`NewCompactionIterator`). -/
def mergedInput (tables : Nat → Run K V) (compaction : Compaction K) : Run K V where
  entries := ((compaction.inputs ++ compaction.nextInputs).flatMap
    (fun file => (tables file.number).entries)).insertionSort (fun a b => a.key ≤ b.key)
  sorted := by
    have : Std.Total (fun a b : Entry K V => a.key ≤ b.key) := ⟨fun a b => le_total a.key b.key⟩
    have : IsTrans (Entry K V) (fun a b => a.key ≤ b.key) := ⟨fun _ _ _ => le_trans⟩
    exact List.pairwise_insertionSort _ _

theorem mem_mergedInput {tables : Nat → Run K V} {compaction : Compaction K} {entry : Entry K V} :
    entry ∈ mergedInput tables compaction ↔
      ∃ file ∈ compaction.inputs ++ compaction.nextInputs, entry ∈ tables file.number := by
  show entry ∈ List.insertionSort _ _ ↔ _
  rw [(List.perm_insertionSort _ _).mem_iff, List.mem_flatMap]
  exact Iff.rfl

namespace CompactionRun

/-- A run in front of its first entry. -/
def start (input : Run K V) (compaction : Compaction K) (smallestSnapshot : Nat) : CompactionRun K V where
  compaction
  smallestSnapshot
  remaining := input.entries
  grandparents := { next := compaction.grandparents }
  baseLevel := ⟨compaction.version.files⟩
  entries := []
  sorted := input.sorted

def stopBefore (run : CompactionRun K V) (limit : Nat) (entry : Entry K V) :
    Bool × CompactionRun K V :=
  let (stop, grandparents) := run.grandparents.shouldStopBefore limit entry.key
  (stop, { run with grandparents })

def judge (run : CompactionRun K V) (entry : Entry K V) : Bool × CompactionRun K V :=
  let (drop, history, baseLevel) := run.history.shouldDrop run.baseLevel
    (BaseLevel.levelsBelow run.compaction.level) run.smallestSnapshot entry.key
  (drop, { run with history, baseLevel })

def skip (run : CompactionRun K V) : CompactionRun K V :=
  { run with
    remaining := run.remaining.tail
    sorted := run.sorted.sublist ((List.Sublist.refl _).append (List.tail_sublist _)) }

def append (run : CompactionRun K V) : CompactionRun K V :=
  match h : run.remaining with
  | [] => run
  | entry :: rest =>
      { run with
        entries := run.entries ++ [entry]
        remaining := rest
        sorted := by
          have := run.sorted
          rw [h] at this
          simpa using this }

def openTable (run : CompactionRun K V) : Run K V where
  entries := run.entries
  sorted := run.sorted.sublist (List.sublist_append_left _ _)

def finish (run : CompactionRun K V) (file : TableFile K) : CompactionRun K V :=
  { run with
    number := none
    entries := []
    finished := run.finished ++ [⟨file, run.openTable⟩]
    sorted := run.sorted.sublist (List.sublist_append_right _ _) }

def edit (run : CompactionRun K V) : VersionEdit (InternalKey K) :=
  run.finished.foldl (fun edit output =>
    VersionSet.orKeep edit (edit.addFile run.compaction.level.next output.file))
    (compactionEdit run.compaction)

end CompactionRun

/-! ## What a run keeps -/

/-- No file below the output level has the user key in its range. -/
def Compaction.BaseFor (compaction : Compaction K) (user : K) : Prop :=
  ∀ level ∈ BaseLevel.levelsBelow compaction.level, ∀ f ∈ compaction.version.files level,
    ¬ (f.smallest.userKey ≤ user ∧ user ≤ f.largest.userKey)

/-- The entries of `input` that a compaction kept. An entry is kept only if every newer one of its
user key is above the snapshot, and one that is missing is shadowed by a newer one that is not, or is
a deletion with nothing below it. -/
structure Compacted (compaction : Compaction K) (smallestSnapshot : Nat)
    (input kept : List (Entry K V)) : Prop where
  sublist : kept.Sublist input
  above : ∀ e ∈ kept, ∀ n ∈ input, n.key.userKey = e.key.userKey → n.key < e.key →
    smallestSnapshot < n.sequence
  dropped : ∀ e ∈ input, e ∉ kept →
    (∃ n ∈ input, n.key.userKey = e.key.userKey ∧ n.key < e.key ∧ n.sequence ≤ smallestSnapshot) ∨
      (e.key.kind = .deletion ∧ e.sequence ≤ smallestSnapshot ∧ compaction.BaseFor e.key.userKey)

namespace Compacted

variable {compaction : Compaction K} {smallestSnapshot : Nat} {seen kept : List (Entry K V)}
  {entry : Entry K V}

theorem drop (h : Compacted compaction smallestSnapshot seen kept)
    (hsorted : (seen ++ [entry]).Pairwise (fun a b => a.key < b.key))
    (hdrop : (∃ n ∈ seen, n.key.userKey = entry.key.userKey ∧ n.sequence ≤ smallestSnapshot) ∨
      (entry.key.kind = .deletion ∧ entry.sequence ≤ smallestSnapshot ∧
        compaction.BaseFor entry.key.userKey)) :
    Compacted compaction smallestSnapshot (seen ++ [entry]) kept where
  sublist := h.sublist.trans (List.sublist_append_left _ _)
  above e he n hn hu hlt := by
    rcases List.mem_append.mp hn with hn | hn
    · exact h.above e he n hn hu hlt
    · rw [List.mem_singleton.mp hn] at hlt
      have hbefore := (List.pairwise_append.mp hsorted).2.2 e (h.sublist.subset he) entry (by simp)
      exact absurd (hlt.trans hbefore) (lt_irrefl _)
  dropped e he hnot := by
    rcases List.mem_append.mp he with he | he
    · refine (h.dropped e he hnot).imp_left ?_
      rintro ⟨n, hn, hrest⟩
      exact ⟨n, by simp [hn], hrest⟩
    · rw [List.mem_singleton.mp he]
      refine hdrop.imp_left ?_
      rintro ⟨n, hn, hu, hle⟩
      exact ⟨n, by simp [hn], hu,
        (List.pairwise_append.mp hsorted).2.2 n hn entry (by simp), hle⟩

theorem keep (h : Compacted compaction smallestSnapshot seen kept)
    (hsorted : (seen ++ [entry]).Pairwise (fun a b => a.key < b.key))
    (hkeep : ∀ n ∈ seen, n.key.userKey = entry.key.userKey → smallestSnapshot < n.sequence) :
    Compacted compaction smallestSnapshot (seen ++ [entry]) (kept ++ [entry]) where
  sublist := h.sublist.append (List.Sublist.refl _)
  above e he n hn hu hlt := by
    have hentry : ∀ x ∈ seen, x.key < entry.key := fun x hx =>
      (List.pairwise_append.mp hsorted).2.2 x hx entry (by simp)
    rcases List.mem_append.mp he with he | he
    · rcases List.mem_append.mp hn with hn | hn
      · exact h.above e he n hn hu hlt
      · rw [List.mem_singleton.mp hn] at hlt
        exact absurd (hlt.trans (hentry e (h.sublist.subset he))) (lt_irrefl _)
    · rw [List.mem_singleton.mp he] at hu hlt
      rcases List.mem_append.mp hn with hn | hn
      · exact hkeep n hn hu
      · rw [List.mem_singleton.mp hn] at hlt
        exact absurd hlt (lt_irrefl _)
  dropped e he hnot := by
    rcases List.mem_append.mp he with he | he
    · refine (h.dropped e he (fun hmem => hnot (by simp [hmem]))).imp_left ?_
      rintro ⟨n, hn, hrest⟩
      exact ⟨n, by simp [hn], hrest⟩
    · exact absurd (by simpa using Or.inr (List.mem_singleton.mp he)) hnot

end Compacted

/-- The cursors pass only files that end before a user key already seen. -/
structure BaseLevel.Inv (version : Levels K) (seen : List (Entry K V)) (base : BaseLevel K) :
    Prop where
  sublist : ∀ level, (base.next level).Sublist (version.files level)
  passed : ∀ level, ∀ f ∈ version.files level, f ∈ base.next level ∨
    ∃ e ∈ seen, f.largest.userKey < e.key.userKey

/-- The history is that of the last entry seen. -/
def VisibleHistory.Tracks (history : VisibleHistory K) (seen : List (Entry K V)) : Prop :=
  history.userKey = seen.getLast?.map (·.key.userKey) ∧
    history.lastSequence = seen.getLast?.map (·.sequence)

def CompactionRun.kept (run : CompactionRun K V) : List (Entry K V) :=
  run.finished.flatMap (·.run.entries) ++ run.entries

/-- After the entries of `seen`, the outputs hold what a compaction of `seen` keeps. -/
structure CompactionRun.Inv (input : List (Entry K V)) (run : CompactionRun K V) : Prop where
  progress : ∃ seen, input = seen ++ run.remaining ∧
    Compacted run.compaction run.smallestSnapshot seen run.kept ∧
    run.history.Tracks seen ∧ run.baseLevel.Inv run.compaction.version seen
  covers : ∀ output ∈ run.finished, output.file.Covers output.run

namespace BaseLevel

variable {version : Levels K}

theorem levelContains_spec {files : List (TableFile K)}
    (hsorted : files.Pairwise (fun f g => f.smallest ≤ g.smallest)) (user : K) :
    (levelContains files user).2.Sublist files ∧
      (∀ f ∈ files, f ∈ (levelContains files user).2 ∨ f.largest.userKey < user) ∧
      ((levelContains files user).1 = false → ∀ f ∈ files,
        ¬ (f.smallest.userKey ≤ user ∧ user ≤ f.largest.userKey)) := by
  have hsub := List.dropWhile_sublist (fun file : TableFile K => decide (file.largest.userKey < user))
    (l := files)
  have hdrop : ∀ f ∈ files, ¬ f.largest.userKey < user →
      f ∈ files.dropWhile (fun file => file.largest.userKey < user) :=
    fun f hf hnot => Partition.mem_dropWhile_of_not hf (by simpa using hnot)
  have hfiles : (levelContains files user).2 =
      files.dropWhile (fun file => file.largest.userKey < user) := by
    unfold levelContains
    cases files.dropWhile (fun file => file.largest.userKey < user) <;> rfl
  rw [hfiles]
  refine ⟨hsub, fun f hf => ?_, fun hmiss f hf hrange => ?_⟩
  · by_cases hlt : f.largest.userKey < user
    · exact .inr hlt
    · exact .inl (hdrop f hf hlt)
  · have hmem := hdrop f hf hrange.2.not_gt
    unfold levelContains at hmiss
    revert hsub hmiss hmem
    cases files.dropWhile (fun file => file.largest.userKey < user) with
    | nil => simp
    | cons first rest =>
      intro hsub hmiss hmem
      have hfirst : user < first.smallest.userKey := by simpa using hmiss
      have hle : first.smallest ≤ f.smallest := by
        rcases List.mem_cons.mp hmem with rfl | hlater
        · exact le_rfl
        · exact List.rel_of_pairwise_cons (hsorted.sublist hsub) hlater
      exact absurd (hfirst.trans_le (InternalKey.userKey_mono hle)) hrange.1.not_gt

/-- The cursors answer for the levels as a whole, since user keys only grow. -/
theorem isBaseLevelForKey_spec (hv : version.Listed compare) {seen : List (Entry K V)}
    {entry : Entry K V} (hseen : ∀ e ∈ seen, e.key.userKey ≤ entry.key.userKey)
    (levels : List Level) {base : BaseLevel K} (hbase : base.Inv version (seen ++ [entry])) :
    (base.isBaseLevelForKey entry.key.userKey levels).2.Inv version (seen ++ [entry]) ∧
      ((base.isBaseLevelForKey entry.key.userKey levels).1 = true → ∀ level ∈ levels,
        ∀ f ∈ version.files level,
          ¬ (f.smallest.userKey ≤ entry.key.userKey ∧ entry.key.userKey ≤ f.largest.userKey)) := by
  induction levels generalizing base with
  | nil => exact ⟨hbase, by simp⟩
  | cons level levels ih =>
    have hsorted := (hv.smallest_sorted level).sublist (hbase.sublist level)
    obtain ⟨hsub, hpassed, hmiss⟩ := levelContains_spec hsorted entry.key.userKey
    have hnext : BaseLevel.Inv version (seen ++ [entry])
        ⟨fun l => if l = level then (levelContains (base.next level) entry.key.userKey).2
          else base.next l⟩ := by
      refine ⟨fun l => ?_, fun l f hf => ?_⟩
      · dsimp only
        split
        · next hl =>
          subst hl
          exact hsub.trans (hbase.sublist l)
        · exact hbase.sublist l
      · dsimp only
        split
        · next hl =>
          subst hl
          rcases hbase.passed l f hf with hmem | hbefore
          · rcases hpassed f hmem with hkept | hlt
            · exact .inl hkept
            · exact .inr ⟨entry, by simp, hlt⟩
          · exact .inr hbefore
        · exact hbase.passed l f hf
    unfold isBaseLevelForKey
    dsimp only
    split
    · exact ⟨hnext, by simp⟩
    · next hcontains =>
      obtain ⟨hinv, hall⟩ := ih hnext
      refine ⟨hinv, fun hbaseLevel l hl f hf => ?_⟩
      rcases List.mem_cons.mp hl with rfl | hl
      · rcases hbase.passed l f hf with hmem | ⟨e, he, hlt⟩
        · exact hmiss (by simpa using hcontains) f hmem
        · rintro ⟨_, hle⟩
          have hbound : e.key.userKey ≤ entry.key.userKey := by
            rcases List.mem_append.mp he with he | he
            · exact hseen e he
            · rw [List.mem_singleton.mp he]
          exact absurd (hlt.trans_le hbound) hle.not_gt
      · exact hall hbaseLevel l hl f hf

end BaseLevel

namespace CompactionRun

variable {input : List (Entry K V)} {run : CompactionRun K V}

theorem inv_start (input : Run K V) (compaction : Compaction K) (smallestSnapshot : Nat) :
    (start input compaction smallestSnapshot).Inv input.entries where
  progress := by
    refine ⟨[], rfl, ⟨List.Sublist.refl _, by simp, by simp⟩, ⟨rfl, rfl⟩, ?_⟩
    exact ⟨fun _ => List.Sublist.refl _, fun _ f hf => .inl hf⟩
  covers := by simp [start]

theorem Inv.stopBefore (h : run.Inv input) (limit : Nat) (entry : Entry K V) :
    (run.stopBefore limit entry).2.Inv input := ⟨h.progress, h.covers⟩

theorem Inv.setNumber (h : run.Inv input) (number : Option Nat) :
    ({ run with number } : CompactionRun K V).Inv input := ⟨h.progress, h.covers⟩

theorem Inv.finish (h : run.Inv input) {file : TableFile K} (hfile : file.Covers run.openTable) :
    (run.finish file).Inv input where
  progress := by
    obtain ⟨seen, hinput, hcompacted, hrest⟩ := h.progress
    have hkept : (run.finish file).kept = run.kept := by
      simp [kept, CompactionRun.finish, openTable]
    exact ⟨seen, hinput, by rw [hkept]; exact hcompacted, hrest⟩
  covers := List.forall_mem_append.mpr ⟨h.covers, List.forall_mem_singleton.mpr hfile⟩

variable {entry : Entry K V} {rest : List (Entry K V)}

theorem append_eq (h : run.remaining = entry :: rest) :
    run.append.remaining = rest ∧ run.append.entries = run.entries ++ [entry] ∧
      run.append.finished = run.finished ∧ run.append.compaction = run.compaction ∧
      run.append.smallestSnapshot = run.smallestSnapshot ∧ run.append.history = run.history ∧
      run.append.baseLevel = run.baseLevel ∧ run.append.number = run.number := by
  unfold append
  split
  · next hnil =>
    rw [hnil] at h
    cases h
  · next e r hcons =>
    rw [hcons] at h
    cases h
    exact ⟨rfl, rfl, rfl, rfl, rfl, rfl, rfl, rfl⟩

/-- What `shouldDrop` says of an entry, after the entries seen: a kept one has no newer version that
the smallest snapshot sees, a dropped one has, or is a tombstone that nothing below needs. -/
structure Judged (compaction : Compaction K) (smallestSnapshot : Nat) (seen : List (Entry K V))
    (entry : Entry K V) (drop : Bool) (history : VisibleHistory K) (base : BaseLevel K) : Prop where
  tracks : history.Tracks (seen ++ [entry])
  base : base.Inv compaction.version (seen ++ [entry])
  keep : drop = false → ∀ n ∈ seen, n.key.userKey = entry.key.userKey → smallestSnapshot < n.sequence
  drop : drop = true →
    (∃ n ∈ seen, n.key.userKey = entry.key.userKey ∧ n.sequence ≤ smallestSnapshot) ∨
      (entry.key.kind = .deletion ∧ entry.sequence ≤ smallestSnapshot ∧
        compaction.BaseFor entry.key.userKey)

/-- In sorted entries only the last one seen matters: it has the user key if any has, and its
sequence is then the smallest. -/
theorem startUserKey_spec {history : VisibleHistory K} {seen : List (Entry K V)}
    (htracks : history.Tracks seen)
    (hsorted : (seen ++ [entry]).Pairwise (fun a b => a.key < b.key)) :
    (∀ limit, (history.startUserKey entry.key.userKey).lastSequence.any (· ≤ limit) = true →
      ∃ n ∈ seen, n.key.userKey = entry.key.userKey ∧ n.sequence ≤ limit) ∧
    (∀ limit, (history.startUserKey entry.key.userKey).lastSequence.any (· ≤ limit) = false →
      ∀ n ∈ seen, n.key.userKey = entry.key.userKey → limit < n.sequence) := by
  obtain ⟨huser, hsequence⟩ := htracks
  obtain ⟨hseen, _, hentry⟩ := List.pairwise_append.mp hsorted
  cases hlast : seen.getLast? with
  | none =>
    have hnil : seen = [] := List.getLast?_eq_none_iff.mp hlast
    subst hnil
    have : history.startUserKey entry.key.userKey = ⟨some entry.key.userKey, none⟩ := by
      unfold VisibleHistory.startUserKey
      rw [huser]
      rfl
    rw [this]
    simp
  | some last =>
    rw [hlast] at huser hsequence
    obtain ⟨before, rfl⟩ := List.getLast?_eq_some_iff.mp hlast
    have hle : ∀ n ∈ before ++ [last], n.key ≤ last.key := List.forall_mem_append.mpr
      ⟨fun n hn => ((List.pairwise_append.mp hseen).2.2 n hn last (by simp)).le,
        List.forall_mem_singleton.mpr le_rfl⟩
    have hlastEntry : last.key < entry.key := hentry last (by simp) entry (by simp)
    unfold VisibleHistory.startUserKey
    by_cases hsame : last.key.userKey = entry.key.userKey
    · rw [if_pos (by rw [huser]; exact congrArg some hsame), hsequence]
      refine ⟨fun limit h => ⟨last, by simp, hsame, by simpa using h⟩, fun limit h n hn hnu => ?_⟩
      have hlim : limit < last.sequence := by simpa using h
      exact hlim.trans_le (InternalKey.sequence_le_of_le (hle n hn) (hnu.trans hsame.symm))
    · rw [if_neg (by rw [huser]; simpa using hsame)]
      refine ⟨by simp, fun limit _ n hn hnu => absurd ?_ hsame⟩
      have hn' := InternalKey.userKey_mono (hle n hn)
      have hl' := InternalKey.userKey_mono hlastEntry.le
      rw [hnu] at hn'
      exact le_antisymm hl' hn'

theorem judged_shouldDrop {compaction : Compaction K} (hv : compaction.version.Listed compare)
    {seen : List (Entry K V)} {history : VisibleHistory K} {base : BaseLevel K}
    (htracks : history.Tracks seen) (hbase : base.Inv compaction.version seen)
    (hsorted : (seen ++ [entry]).Pairwise (fun a b => a.key < b.key)) (smallestSnapshot : Nat) :
    let result := history.shouldDrop base (BaseLevel.levelsBelow compaction.level) smallestSnapshot
      entry.key
    Judged compaction smallestSnapshot seen entry result.1 result.2.1 result.2.2 := by
  obtain ⟨hshadow, hclear⟩ := startUserKey_spec htracks hsorted
  have hnext : ({ history.startUserKey entry.key.userKey with
      lastSequence := some entry.key.sequence } : VisibleHistory K).Tracks (seen ++ [entry]) := by
    refine ⟨?_, by simp [Entry.sequence]⟩
    rw [List.getLast?_append_of_ne_nil _ (by simp)]
    show (history.startUserKey entry.key.userKey).userKey = _
    unfold VisibleHistory.startUserKey
    split
    · next h => simpa using h
    · rfl
  have hbase' : base.Inv compaction.version (seen ++ [entry]) := by
    refine ⟨hbase.sublist, fun level f hf => (hbase.passed level f hf).imp_right ?_⟩
    rintro ⟨e, he, hlt⟩
    exact ⟨e, by simp [he], hlt⟩
  have hle : ∀ e ∈ seen, e.key.userKey ≤ entry.key.userKey := fun e he =>
    InternalKey.userKey_mono ((List.pairwise_append.mp hsorted).2.2 e he entry (by simp)).le
  dsimp only
  unfold VisibleHistory.shouldDrop
  dsimp only
  split
  · next hany =>
    exact ⟨hnext, hbase', by simp, fun _ => .inl (hshadow smallestSnapshot hany)⟩
  · next hany =>
    have hkeep := hclear smallestSnapshot (by simpa using hany)
    split
    · next hdeletion =>
      obtain ⟨hinv, hbelow⟩ := BaseLevel.isBaseLevelForKey_spec hv hle
        (BaseLevel.levelsBelow compaction.level) hbase'
      exact ⟨hnext, hinv, fun _ => hkeep,
        fun h => .inr ⟨hdeletion.1, hdeletion.2, hbelow h⟩⟩
    · exact ⟨hnext, hbase', fun _ => hkeep, by simp⟩

section

variable (hv : run.compaction.version.Listed compare)
  (hstrict : input.Pairwise (fun a b => a.key < b.key)) (h : run.Inv input)
  (hremaining : run.remaining = entry :: rest)

include hv hstrict h hremaining

theorem Inv.drop (hdrop : (run.judge entry).1 = true) :
    (run.judge entry).2.skip.Inv input where
  progress := by
    obtain ⟨seen, hinput, hcompacted, htracks, hbase⟩ := h.progress
    rw [hremaining, List.append_cons] at hinput
    have hsorted : (seen ++ [entry]).Pairwise (fun a b => a.key < b.key) :=
      (hinput ▸ hstrict).sublist (List.sublist_append_left _ _)
    have hjudged := judged_shouldDrop hv htracks hbase hsorted run.smallestSnapshot
    refine ⟨seen ++ [entry], ?_, hcompacted.drop hsorted (hjudged.drop hdrop), hjudged.tracks,
      hjudged.base⟩
    show input = seen ++ [entry] ++ run.remaining.tail
    rw [hremaining]
    exact hinput
  covers := h.covers

theorem Inv.keep (hkeep : (run.judge entry).1 = false) :
    (run.judge entry).2.append.Inv input := by
  obtain ⟨seen, hinput, hcompacted, htracks, hbase⟩ := h.progress
  rw [hremaining, List.append_cons] at hinput
  have hsorted : (seen ++ [entry]).Pairwise (fun a b => a.key < b.key) :=
    (hinput ▸ hstrict).sublist (List.sublist_append_left _ _)
  have hjudged := judged_shouldDrop hv htracks hbase hsorted run.smallestSnapshot
  have hrem : (run.judge entry).2.remaining = entry :: rest := hremaining
  obtain ⟨hrest, hentries, hfinished, hcompaction, hsnapshot, hhistory, hlevels, _⟩ := append_eq hrem
  have hkept : (run.judge entry).2.append.kept = run.kept ++ [entry] := by
    unfold kept
    rw [hfinished, hentries, ← List.append_assoc]
    rfl
  refine ⟨⟨seen ++ [entry], by rw [hrest]; exact hinput, ?_, ?_, ?_⟩, ?_⟩
  · rw [hkept, hcompaction, hsnapshot]
    exact hcompacted.keep hsorted (hjudged.keep hkeep)
  · rw [hhistory]
    exact hjudged.tracks
  · rw [hlevels, hcompaction]
    exact hjudged.base
  · rw [hfinished]
    exact h.covers

end

end CompactionRun
end ModernLevelDB
