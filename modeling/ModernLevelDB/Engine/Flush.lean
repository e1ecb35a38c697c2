import ModernLevelDB.Engine.Lookup
import ModernLevelDB.Lib.Overlap
import ModernLevelDB.Metadata.VersionSet

/-! # Flushing a memtable (`engine/flush.h`, `engine/build_table.h`)

A flushed table goes to level 0, or past levels in which its user keys overlap nothing, down to level
2 at most. `pickLevelForMemTableOutput_avoids` is what the placement guarantees: below level 0 the
table overlaps no file of its own level or of a level above it. -/
namespace ModernLevelDB
set_option autoImplicit false

variable {K V : Type*} [LinearOrder K]

/-! ## User-key ranges of files -/

/-- The user key ranges of the files overlap. -/
def FileMetadata.Meets (f g : TableFile K) : Prop :=
  Overlap.Meets (fun file : TableFile K => file.smallest.userKey)
    (fun file => file.largest.userKey) f g

variable {f g : TableFile K}

theorem FileMetadata.Meets.symm (h : f.Meets g) : g.Meets f := ⟨h.2, h.1⟩

theorem FileMetadata.Covers.meets {r s : Run K V} (hf : f.Covers r) (hg : g.Covers s)
    {a b : Entry K V} (ha : a ∈ r) (hb : b ∈ s) (hu : a.key.userKey = b.key.userKey) :
    f.Meets g := by
  constructor
  · exact (InternalKey.userKey_mono (hf.lower a ha)).trans
      (hu ▸ InternalKey.userKey_mono (hg.upper b hb))
  · exact (InternalKey.userKey_mono (hg.lower b hb)).trans
      (hu ▸ InternalKey.userKey_mono (hf.upper a ha))

/-- `UserKeyRange`: both ends included. -/
structure UserKeyRange (K : Type*) where
  smallest : K
  largest : K

namespace UserKeyRange

def overlaps (range : UserKeyRange K) (file : TableFile K) : Bool :=
  range.smallest ≤ file.largest.userKey && file.smallest.userKey ≤ range.largest

def ofFile (file : TableFile K) : UserKeyRange K := ⟨file.smallest.userKey, file.largest.userKey⟩

theorem overlaps_iff {range : UserKeyRange K} {file : TableFile K} : range.overlaps file = true ↔
    range.smallest ≤ file.largest.userKey ∧ file.smallest.userKey ≤ range.largest := by
  simp [overlaps]

end UserKeyRange

/-! ## Placement -/

def maxMemTableOutputLevel : Nat := 2
def grandparentOverlapFactor : Nat := 10

/-- Arithmetic on `uint64_t` file sizes. -/
def wrap64 (n : Nat) : Nat := n % 2 ^ 64

def overlapInLevel (version : Levels K) (level : Level) (range : UserKeyRange K) : Bool :=
  if level = 0 then (version.files 0).any range.overlaps
  else match (version.files level).dropWhile (fun f => f.largest.userKey < range.smallest) with
    | [] => false
    | found :: _ => range.overlaps found

def overlappingBytes (version : Levels K) (level : Level) (range : UserKeyRange K) : Nat :=
  wrap64 (((version.files level).filter range.overlaps).map (·.fileSize)).sum

def placeFrom (version : Levels K) (range : UserKeyRange K) (grandparentLimit : Nat) :
    Nat → Level → Level
  | 0, level => level
  | fuel + 1, level =>
      if overlapInLevel version (level + 1) range ||
          grandparentLimit < overlappingBytes version (level + 2) range then level
      else placeFrom version range grandparentLimit fuel (level + 1)

def pickLevelForMemTableOutput (version : Levels K) (range : UserKeyRange K)
    (targetFileSize : Nat) : Level :=
  if overlapInLevel version 0 range then 0
  else placeFrom version range (wrap64 (grandparentOverlapFactor * targetFileSize))
    maxMemTableOutputLevel 0

variable {version : Levels K} {range : UserKeyRange K}

theorem overlapInLevel_iff (hv : version.Valid compare) {level : Level} :
    overlapInLevel version level range = true ↔
      ∃ f ∈ version.files level, range.overlaps f = true := by
  unfold overlapInLevel
  split
  · next hzero =>
    subst hzero
    simp
  · next hlevel =>
    let ends := fun f : TableFile K => decide (f.largest.userKey < range.smallest)
    have hsub := List.dropWhile_sublist ends (l := version.files level)
    have hnot := List.head?_dropWhile_not ends (version.files level)
    have hdrop : ∀ f ∈ version.files level, range.overlaps f = true →
        f ∈ (version.files level).dropWhile ends := fun f hf hoverlap =>
      Partition.mem_dropWhile_of_not hf (by simpa [ends] using (UserKeyRange.overlaps_iff.mp hoverlap).1)
    revert hdrop hsub hnot
    cases (version.files level).dropWhile ends with
    | nil => simp
    | cons found rest =>
      intro hsub hnot hdrop
      refine ⟨fun h => ⟨found, hsub.subset List.mem_cons_self, h⟩, fun ⟨f, hf, hoverlap⟩ => ?_⟩
      -- The file found is `f` or comes before it.
      rcases List.mem_cons.mp (hdrop f hf hoverlap) with rfl | hlater
      · exact hoverlap
      · have hlt := List.rel_of_pairwise_cons ((hv.disjoint_lt hlevel).sublist hsub) hlater
        have hrange := hv.toListed.le (hsub.subset List.mem_cons_self)
        exact UserKeyRange.overlaps_iff.mpr ⟨by simpa [ends] using hnot,
          (InternalKey.userKey_mono (hrange.trans hlt.le)).trans
            (UserKeyRange.overlaps_iff.mp hoverlap).2⟩

theorem placeFrom_avoids {limit fuel : Nat} {level : Level}
    (hfuel : level.val + fuel ≤ maxMemTableOutputLevel)
    (habove : ∀ l ≤ level, overlapInLevel version l range = false) :
    ∀ l ≤ placeFrom version range limit fuel level, overlapInLevel version l range = false := by
  induction fuel generalizing level with
  | zero => exact habove
  | succ fuel ih =>
    unfold placeFrom
    split
    · exact habove
    · next hstop =>
      simp only [Bool.or_eq_true, not_or, Bool.not_eq_true] at hstop
      have hval : (level + 1).val = level.val + 1 := by
        unfold maxMemTableOutputLevel at hfuel
        exact Fin.val_add_one_of_lt' (by show level.val + 1 < 7; omega)
      refine ih (by omega) (fun l hl => ?_)
      rcases hl.lt_or_eq with hlt | rfl
      · have := Fin.lt_def.mp hlt
        exact habove l (Fin.le_def.mpr (by omega))
      · exact hstop.1

theorem pickLevelForMemTableOutput_avoids (hv : version.Valid compare) {file : TableFile K}
    {target : Nat} (h : pickLevelForMemTableOutput version (.ofFile file) target ≠ 0) :
    ∀ level ≤ pickLevelForMemTableOutput version (.ofFile file) target,
      ∀ g ∈ version.files level, ¬ file.Meets g := by
  intro level hlevel g hg hmeets
  have hsome : overlapInLevel version level (.ofFile file) = true :=
    (overlapInLevel_iff hv).mpr ⟨g, hg, UserKeyRange.overlaps_iff.mpr hmeets⟩
  unfold pickLevelForMemTableOutput at h hlevel
  split at h
  · exact h rfl
  · next hzero =>
    rw [if_neg hzero] at hlevel
    have htop : ∀ l ≤ (0 : Level), overlapInLevel version l (.ofFile file) = false := by
      intro l hl
      simpa [Fin.le_zero_iff.mp hl] using hzero
    rw [placeFrom_avoids (by decide) htop level hlevel] at hsome
    cases hsome

/-! ## The table and the edit -/

/-- The metadata of the table that `BuildTable` writes; an empty memtable has no table. -/
def tableMetadata (tableSize : Run K V → Nat) (number : Nat) (run : Run K V) :
    Option (TableFile K) :=
  match run.entries.head?, run.entries.getLast? with
  | some first, some last =>
      some { number, fileSize := tableSize run, smallest := first.key, largest := last.key }
  | _, _ => none

def flushEdit (targetFileSize : Nat) (base : Levels K) (logNumber : Nat)
    (table : Option (TableFile K)) : VersionEdit (InternalKey K) :=
  let edit := (VersionEdit.setLogNumber {} logNumber).setPrevLogNumber 0
  match table with
  | none => edit
  | some file => VersionSet.orKeep edit
      (edit.addFile (pickLevelForMemTableOutput base (.ofFile file) targetFileSize) file)

theorem tableMetadata_eq_some {tableSize : Run K V → Nat} {number : Nat} {run : Run K V}
    {file : TableFile K} (h : tableMetadata tableSize number run = some file) :
    file.number = number ∧ file.Covers run := by
  unfold tableMetadata at h
  split at h
  · next first last hfirst hlast =>
    cases h
    obtain ⟨rest, hrest⟩ := List.head?_eq_some_iff.mp hfirst
    obtain ⟨before, hbefore⟩ := List.getLast?_eq_some_iff.mp hlast
    have hsorted := run.sorted
    refine ⟨rfl, ?_, ?_, ⟨first, ?_, rfl⟩, ⟨last, ?_, rfl⟩⟩
    · intro entry hmem
      rw [Run.mem_def, hrest] at hmem
      rw [hrest] at hsorted
      rcases List.mem_cons.mp hmem with rfl | hmem
      · exact le_rfl
      · exact List.rel_of_pairwise_cons hsorted hmem
    · intro entry hmem
      rw [Run.mem_def, hbefore] at hmem
      rw [hbefore] at hsorted
      rcases List.mem_append.mp hmem with hmem | hmem
      · exact (List.pairwise_append.mp hsorted).2.2 entry hmem last (by simp)
      · rw [List.mem_singleton.mp hmem]
    · exact List.mem_of_head? hfirst
    · exact List.mem_of_getLast? hlast
  · cases h

theorem tableMetadata_eq_none {tableSize : Run K V → Nat} {number : Nat} {run : Run K V} :
    tableMetadata tableSize number run = none ↔ run.entries = [] := by
  unfold tableMetadata
  cases h : run.entries with
  | nil => simp
  | cons first rest =>
    have hlast : (first :: rest).getLast? = some ((first :: rest).getLast (by simp)) :=
      List.getLast?_eq_some_getLast _
    simp [hlast]

end ModernLevelDB
