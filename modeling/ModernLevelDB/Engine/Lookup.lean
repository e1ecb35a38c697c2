import ModernLevelDB.Engine.Entry
import ModernLevelDB.Metadata.Version

/-! # Point reads of a version (`engine/lookup.h`)

The level-0 files whose range holds the user key are searched newest first, then at most one file of
each deeper level, and the first file with a visible entry decides. `isNewest_levelNewest` says that
one file of a sorted level is enough even when a user key spans several of them. -/
namespace ModernLevelDB
set_option autoImplicit false

variable {K V : Type*} [LinearOrder K]

abbrev TableFile (K : Type*) := FileMetadata (InternalKey K)

abbrev Levels (K : Type*) := Version (InternalKey K)

/-- A file that a lookup may search. -/
structure Candidate (K : Type*) where
  level : Level
  file : TableFile K
deriving DecidableEq, Repr

/-- `LevelCandidate`: the first file whose largest key is not before the target, if its smallest user
key is not after the target's. -/
def levelCandidate (files : List (TableFile K)) (target : InternalKey K) : Option (TableFile K) :=
  (files.dropWhile (fun file => file.largest < target)).head?.filter
    (fun file => ¬ target.userKey < file.smallest.userKey)

def userKeyInFileRange (file : TableFile K) (user : K) : Bool :=
  file.smallest.userKey ≤ user && user ≤ file.largest.userKey

def levelZeroCandidates (files : List (TableFile K)) (user : K) : List (TableFile K) :=
  (files.filter (userKeyInFileRange · user)).insertionSort (fun f g => g.number ≤ f.number)

def deeperLevels : List Level := (List.finRange numLevels).tail

/-- The candidates of `ForEachOverlapping`, in the order in which it visits them. -/
def candidates (version : Levels K) (target : InternalKey K) : List (Candidate K) :=
  (levelZeroCandidates (version.files 0) target.userKey).map (⟨0, ·⟩) ++
    deeperLevels.filterMap (fun level =>
      (levelCandidate (version.files level) target).map (⟨level, ·⟩))

/-- The charge that a point read collects: `previous` is the last file searched, `seek` the first one
that did not decide before another was searched. -/
structure PointLookup (K : Type*) where
  previous : Option (Candidate K) := none
  seek : Option (Candidate K) := none

def PointLookup.visit (lookup : PointLookup K) (candidate : Candidate K) : PointLookup K where
  previous := some candidate
  seek := lookup.seek <|> lookup.previous

/-! ## Table contents -/

/-- The table of a file holds entries inside the file's range, and both ends of it. -/
structure FileMetadata.Covers (file : TableFile K) (run : Run K V) : Prop where
  lower : ∀ entry ∈ run, file.smallest ≤ entry.key
  upper : ∀ entry ∈ run, entry.key ≤ file.largest
  first : ∃ entry ∈ run, entry.key = file.smallest
  last : ∃ entry ∈ run, entry.key = file.largest

def filesContents (tables : Nat → Run K V) (files : List (TableFile K)) : Set (Entry K V) :=
  {entry | ∃ file ∈ files, entry ∈ tables file.number}

def Version.contents (tables : Nat → Run K V) (version : Levels K) : Set (Entry K V) :=
  {entry | ∃ level, entry ∈ filesContents tables (version.files level)}

/-- For every user key, the first run holds only newer entries than the second. -/
def Run.Newer (upper lower : Run K V) : Prop :=
  ∀ a ∈ upper, ∀ b ∈ lower, a.key.userKey = b.key.userKey → b.sequence < a.sequence

/-- The files of a version are ordered by recency: by level, and by number inside level 0. -/
structure Version.Recency (tables : Nat → Run K V) (version : Levels K) : Prop where
  levelZero : ∀ f ∈ version.files 0, ∀ g ∈ version.files 0, g.number < f.number →
    (tables f.number).Newer (tables g.number)
  levels : ∀ i j : Level, i < j → ∀ f ∈ version.files i, ∀ g ∈ version.files j,
    (tables f.number).Newer (tables g.number)

/-- Every level below level 0 is sorted and disjoint in internal-key order. A user key may go on from
one file to the next. -/
def Version.SortedBelow (version : Levels K) : Prop :=
  ∀ level : Level, level ≠ 0 → (version.files level).Pairwise (fun f g => f.largest < g.smallest)

theorem Run.Newer.above {upper lower : Run K V} (h : upper.Newer lower) (user : K) (limit : Nat) :
    Newest.Above Entry.sequence (Entry.Visible user limit) upper.contents lower.contents :=
  fun a ha b hb hva hvb => h a ha b hb (hva.1.trans hvb.1.symm)

namespace Version

variable {version : Levels K}

theorem Listed.le (hv : version.Listed compare) {level : Level} {f : TableFile K}
    (hf : f ∈ version.files level) : f.smallest ≤ f.largest :=
  compare_le_iff_le.mp (hv.ordered level f hf)

theorem Valid.disjoint_lt (hv : version.Valid compare) {level : Level} (hl : level ≠ 0) :
    (version.files level).Pairwise (fun f g => f.largest < g.smallest) :=
  (hv.disjoint level hl).imp compare_lt_iff_lt.mp

end Version

/-! ## One level -/

section Level

variable {tables : Nat → Run K V} {files : List (TableFile K)}

def levelNewest (tables : Nat → Run K V) (files : List (TableFile K)) (user : K) (limit : Nat) :
    Option (Entry K V) :=
  (levelCandidate files (InternalKey.lookupKey user limit)).bind
    (fun file => (tables file.number).newest user limit)

theorem mem_dropWhile_of_visible (htables : ∀ f ∈ files, f.Covers (tables f.number)) {user : K}
    {limit : Nat} {file : TableFile K} (hfile : file ∈ files) {entry : Entry K V}
    (hmem : entry ∈ tables file.number) (hv : entry.Visible user limit) :
    file ∈ files.dropWhile (fun file => file.largest < InternalKey.lookupKey user limit) := by
  refine Partition.mem_dropWhile_of_not hfile ?_
  have hseek : InternalKey.lookupKey user limit ≤ entry.key :=
    InternalKey.lookupKey_le_iff.mpr (.inr ⟨hv.1.symm, hv.2⟩)
  simpa using hseek.trans ((htables file hfile).upper entry hmem)

/-- A point read needs one file of a sorted level. When the user key goes on in the next file, the
last entry of this one is visible and newer. -/
theorem isNewest_levelNewest (hsorted : files.Pairwise (fun f g => f.largest < g.smallest))
    (htables : ∀ f ∈ files, f.Covers (tables f.number)) (user : K) (limit : Nat) :
    Newest.IsNewest Entry.sequence (Entry.Visible user limit) (filesContents tables files)
      (levelNewest tables files user limit) := by
  let target := InternalKey.lookupKey user limit
  have hdrop : ∀ file ∈ files, ∀ entry ∈ tables file.number, entry.Visible user limit →
      file ∈ files.dropWhile (fun file => file.largest < target) :=
    fun file hfile entry hmem hv => mem_dropWhile_of_visible htables hfile hmem hv
  unfold levelNewest levelCandidate
  cases hrest : files.dropWhile (fun file => file.largest < target) with
  | nil =>
    rintro entry ⟨file, hfile, hmem⟩ hv
    have := hdrop file hfile entry hmem hv
    rw [hrest] at this
    simp at this
  | cons found rest =>
    have hsub : (found :: rest).Sublist files := by
      rw [← hrest]
      exact List.dropWhile_sublist _
    have hfound : found ∈ files := hsub.subset (by simp)
    have hlast : target ≤ found.largest := by
      have := List.head?_dropWhile_not (fun file : TableFile K => decide (file.largest < target)) files
      rw [hrest] at this
      simpa using this
    by_cases huser : user < found.smallest.userKey
    · -- The whole level is past the user key from here on.
      rw [List.head?_cons, Option.filter_some_neg (by simpa using huser)]
      rintro entry ⟨file, hfile, hmem⟩ hv
      have hfile' := hdrop file hfile entry hmem hv
      rw [hrest] at hfile'
      have hle : found.smallest ≤ entry.key := by
        rcases List.mem_cons.mp hfile' with rfl | hlater
        · exact (htables file hfile).lower entry hmem
        · have hlt := List.rel_of_pairwise_cons (hsorted.sublist hsub) hlater
          obtain ⟨e, he, hk⟩ := (htables found hfound).last
          have hrange := (htables found hfound).lower e he
          rw [hk] at hrange
          exact hrange.trans (hlt.le.trans ((htables file hfile).lower entry hmem))
      exact absurd (hv.1 ▸ InternalKey.userKey_mono hle) huser.not_ge
    · rw [List.head?_cons, Option.filter_some_pos (by simpa using huser)]
      refine (Run.isNewest_newest (tables found.number) user limit).extend ?_ ?_
      · exact fun entry he => ⟨found, hfound, he⟩
      · rintro entry ⟨file, hfile, hmem⟩ hv
        have hfile' := hdrop file hfile entry hmem hv
        rw [hrest] at hfile'
        rcases List.mem_cons.mp hfile' with rfl | hlater
        · exact ⟨entry, hmem, hv, le_rfl⟩
        · -- The last entry of the file found is of the same user key.
          obtain ⟨e, he, hk⟩ := (htables found hfound).last
          have hlt := List.rel_of_pairwise_cons (hsorted.sublist hsub) hlater
          have hkey : e.key ≤ entry.key :=
            hk ▸ hlt.le.trans ((htables file hfile).lower entry hmem)
          have htarget : target ≤ e.key := hk ▸ hlast
          have husers : e.key.userKey = user := by
            refine le_antisymm (hv.1 ▸ InternalKey.userKey_mono hkey) ?_
            exact InternalKey.userKey_mono htarget
          refine ⟨e, he, ⟨husers, ?_⟩, ?_⟩
          · rcases InternalKey.lookupKey_le_iff.mp htarget with h | ⟨_, h⟩
            · exact absurd husers h.ne'
            · exact h
          · exact InternalKey.sequence_le_of_le hkey (husers.trans hv.1.symm)

end Level

/-! ## A whole version -/

section Version

variable {tables : Nat → Run K V} {version : Levels K}

/-- The search of `ForEachOverlapping` that stops at the first file with a visible entry. -/
def versionNewest (tables : Nat → Run K V) (version : Levels K) (user : K) (limit : Nat) :
    Option (Entry K V) :=
  (candidates version (InternalKey.lookupKey user limit)).findSome?
    (fun candidate => (tables candidate.file.number).newest user limit)

theorem mem_levelZeroCandidates {files : List (TableFile K)} {user : K} {file : TableFile K} :
    file ∈ levelZeroCandidates files user ↔ file ∈ files ∧ userKeyInFileRange file user = true := by
  unfold levelZeroCandidates
  rw [(List.perm_insertionSort _ _).mem_iff, List.mem_filter]

theorem levelZeroCandidates_sorted (files : List (TableFile K)) (user : K) :
    (levelZeroCandidates files user).Pairwise (fun f g => g.number ≤ f.number) := by
  have : Std.Total (fun f g : TableFile K => g.number ≤ f.number) :=
    ⟨fun f g => le_total g.number f.number⟩
  have : IsTrans (TableFile K) (fun f g => g.number ≤ f.number) := ⟨fun _ _ _ h h' => h'.trans h⟩
  exact List.pairwise_insertionSort _ _

theorem mem_deeperLevels {level : Level} : level ∈ deeperLevels ↔ level ≠ 0 := by
  revert level
  decide

theorem deeperLevels_sorted : deeperLevels.Pairwise (· < ·) := by decide

theorem isNewest_levelZero
    (htables : ∀ f ∈ version.files 0, f.Covers (tables f.number))
    (hrecency : version.Recency tables) (user : K) (limit : Nat) :
    Newest.IsNewest Entry.sequence (Entry.Visible user limit)
      (filesContents tables (version.files 0))
      ((levelZeroCandidates (version.files 0) user).findSome?
        (fun file => (tables file.number).newest user limit)) := by
  have hnewest := fun file : TableFile K => Run.isNewest_newest (tables file.number) user limit
  have hlater : (levelZeroCandidates (version.files 0) user).Pairwise (fun f g =>
      ∀ a, (tables f.number).newest user limit = some a →
        ∀ b ∈ (tables g.number).contents, b.Visible user limit → b.sequence ≤ a.sequence) := by
    refine (levelZeroCandidates_sorted _ user).imp_of_mem (fun {f g} hf hg hle a ha => ?_)
    have hfa := hnewest f
    rw [ha] at hfa
    rcases hle.eq_or_lt with heq | hlt
    · -- Two records of one number name the same table.
      rw [heq]
      exact hfa.2.2
    · exact ((hrecency.levelZero f (mem_levelZeroCandidates.mp hf).1 g
        (mem_levelZeroCandidates.mp hg).1 hlt).above user limit).le_newest hfa
  have hsearch := Newest.isNewest_findSome? (fun file : TableFile K => (tables file.number).contents)
    (fun file => (tables file.number).newest user limit) (fun file _ => hnewest file) hlater
  -- A file that is no candidate holds nothing of the user key.
  refine hsearch.congr (fun entry hvis => ?_)
  constructor
  · rintro ⟨file, hfile, hmem⟩
    exact ⟨file, (mem_levelZeroCandidates.mp hfile).1, hmem⟩
  · rintro ⟨file, hfile, hmem⟩
    refine ⟨file, mem_levelZeroCandidates.mpr ⟨hfile, ?_⟩, hmem⟩
    have hlower := InternalKey.userKey_mono ((htables file hfile).lower entry hmem)
    have hupper := InternalKey.userKey_mono ((htables file hfile).upper entry hmem)
    rw [hvis.1] at hlower hupper
    simp [userKeyInFileRange, hlower, hupper]

theorem versionNewest_eq (user : K) (limit : Nat) : versionNewest tables version user limit =
    ((levelZeroCandidates (version.files 0) user).findSome?
      (fun file => (tables file.number).newest user limit)).or
    (deeperLevels.findSome? (fun level => levelNewest tables (version.files level) user limit)) := by
  unfold versionNewest candidates
  rw [List.findSome?_append, List.findSome?_map, ← List.head?_filterMap (l := deeperLevels.filterMap _),
    List.filterMap_filterMap, List.head?_filterMap]
  congr 2
  funext level
  unfold levelNewest
  cases levelCandidate (version.files level) (InternalKey.lookupKey user limit) <;> rfl

section

variable (hsorted : version.SortedBelow)
  (htables : ∀ level, ∀ f ∈ version.files level, f.Covers (tables f.number))
  (hrecency : version.Recency tables)

include hsorted htables hrecency

theorem isNewest_deeperLevels (user : K) (limit : Nat) :
    Newest.IsNewest Entry.sequence (Entry.Visible user limit)
      {entry | ∃ level ∈ deeperLevels, entry ∈ filesContents tables (version.files level)}
      (deeperLevels.findSome? (fun level => levelNewest tables (version.files level) user limit)) := by
  have hnewest : ∀ level ∈ deeperLevels, Newest.IsNewest Entry.sequence (Entry.Visible user limit)
      (filesContents tables (version.files level))
      (levelNewest tables (version.files level) user limit) := fun level hlevel =>
    isNewest_levelNewest (hsorted level (mem_deeperLevels.mp hlevel)) (htables level) user limit
  refine Newest.isNewest_findSome? (fun level => filesContents tables (version.files level))
    (fun level => levelNewest tables (version.files level) user limit) hnewest ?_
  refine deeperLevels_sorted.imp_of_mem (fun {i j} hi _ hij a ha => ?_)
  have hia := hnewest i hi
  rw [ha] at hia
  refine Newest.Above.le_newest ?_ hia
  rintro a ⟨f, hf, ha⟩ b ⟨g, hg, hb⟩
  exact (hrecency.levels i j hij f hf g hg).above user limit a ha b hb

/-- A point read of a version finds the newest visible entry of all its files. -/
theorem isNewest_versionNewest (user : K) (limit : Nat) :
    Newest.IsNewest Entry.sequence (Entry.Visible user limit) (version.contents tables)
      (versionNewest tables version user limit) := by
  have hzero := isNewest_levelZero (htables 0) hrecency user limit
  have hdeeper := isNewest_deeperLevels hsorted htables hrecency user limit
  have habove : Newest.Above Entry.sequence (Entry.Visible user limit)
      (filesContents tables (version.files 0))
      {entry | ∃ level ∈ deeperLevels, entry ∈ filesContents tables (version.files level)} := by
    rintro a ⟨f, hf, ha⟩ b ⟨level, hlevel, g, hg, hb⟩
    have hlt : 0 < level := Fin.pos_of_ne_zero (mem_deeperLevels.mp hlevel)
    exact (hrecency.levels 0 level hlt f hf g hg).above user limit a ha b hb
  have hcontents : version.contents tables = filesContents tables (version.files 0) ∪
      {entry | ∃ level ∈ deeperLevels, entry ∈ filesContents tables (version.files level)} := by
    ext entry
    constructor
    · rintro ⟨level, hmem⟩
      by_cases hlevel : level = 0
      · exact .inl (hlevel ▸ hmem)
      · exact .inr ⟨level, mem_deeperLevels.mpr hlevel, hmem⟩
    · rintro (hmem | ⟨level, _, hmem⟩)
      · exact ⟨0, hmem⟩
      · exact ⟨level, hmem⟩
  rw [hcontents, versionNewest_eq]
  revert hzero
  cases (levelZeroCandidates (version.files 0) user).findSome?
      (fun file => (tables file.number).newest user limit) with
  | none => exact fun hzero => hzero.union_of_none hdeeper
  | some entry => exact fun hzero => hzero.union_of_some habove

end

end Version
end ModernLevelDB
