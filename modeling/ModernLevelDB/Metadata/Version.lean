import ModernLevelDB.Lib.Partition
import ModernLevelDB.Metadata.VersionEdit

/-! # Versions and the version builder (`metadata/version.h`)

A version lists the live table files of every level. The checked builder collects files by number and
sorts each level at the end; the trusted one merges an edit into the ordered levels of its base and
checks nothing. `buildTrusted_valid` says that the trusted result is a valid version when the edit
meets the documented preconditions, and `trusted_of_build` that every edit the checked builder
accepts meets them and gives the same version. -/
namespace ModernLevelDB
set_option autoImplicit false

variable {κ : Type*}

/-- `Version`: the files of each level. -/
structure Version (κ : Type*) where
  files : Level → List (FileMetadata κ) := fun _ => []

def bytesPerSeek : Nat := 16384
def minimumSeeks : Nat := 100

/-- Reading past a file this often costs about as much as compacting it. -/
def initialAllowedSeeks (fileSize : Nat) : Int :=
  min (max (fileSize / bytesPerSeek) minimumSeeks) (2 ^ 63 - 1)

def makeVersionFile (file : FileMetadata κ) : FileMetadata κ :=
  { file with allowedSeeks := initialAllowedSeeks file.fileSize }

/-! ## The order of files in a level -/

def fileCompare (cmp : κ → κ → Ordering) (left right : FileMetadata κ) : Ordering :=
  (cmp left.smallest right.smallest).then (compare left.number right.number)

def fileBefore (cmp : κ → κ → Ordering) (left right : FileMetadata κ) : Bool :=
  (fileCompare cmp left right).isLT

section Order

variable (cmp : κ → κ → Ordering) [h : Std.TransCmp cmp]

instance transCmp_fileCompare : Std.TransCmp (fileCompare cmp) :=
  have := InternalKey.transCmp_on cmp (fun f : FileMetadata κ => f.smallest)
  have := InternalKey.transCmp_on compare (fun f : FileMetadata κ => f.number)
  inferInstanceAs (Std.TransCmp (compareLex
    (fun a b : FileMetadata κ => cmp a.smallest b.smallest) (fun a b => compare a.number b.number)))

variable {cmp}

variable {a b : FileMetadata κ}

omit h in
theorem fileBefore_iff : fileBefore cmp a b = true ↔ fileCompare cmp a b = .lt := by
  unfold fileBefore
  cases fileCompare cmp a b <;> simp

theorem not_fileBefore_eq_isLE (a b : FileMetadata κ) :
    (!fileBefore cmp b a) = (fileCompare cmp a b).isLE := by
  have hswap : fileCompare cmp a b = (fileCompare cmp b a).swap := Std.OrientedCmp.eq_swap
  unfold fileBefore
  rw [hswap]
  cases fileCompare cmp b a <;> rfl

theorem fileBefore_trans {c : FileMetadata κ} (hab : fileBefore cmp a b = true)
    (hbc : fileBefore cmp b c = true) : fileBefore cmp a c = true := by
  rw [fileBefore_iff] at *
  exact Std.TransCmp.lt_trans hab hbc

theorem fileBefore_asymm (hab : fileBefore cmp a b = true) : fileBefore cmp b a = false := by
  rw [fileBefore_iff] at hab
  rw [← Bool.not_eq_true, fileBefore_iff, Std.OrientedCmp.gt_of_lt hab]
  simp

theorem fileBefore_total (hn : a.number ≠ b.number) (hab : fileBefore cmp a b = false) :
    fileBefore cmp b a = true := by
  have hne : fileCompare cmp a b ≠ .eq := by
    intro he
    unfold fileCompare at he
    rw [Ordering.then_eq_eq, Nat.compare_eq_eq] at he
    exact hn he.2
  rw [← Bool.not_eq_true, fileBefore_iff] at hab
  rw [fileBefore_iff]
  apply Std.OrientedCmp.lt_of_gt
  cases hc : fileCompare cmp a b with
  | lt => exact absurd hc hab
  | eq => exact absurd hc hne
  | gt => rfl

end Order

/-! ## The checked builder -/

/-- `VersionBuilder`: the files of each level in the order of a map from their numbers. -/
structure VersionBuilder (κ : Type*) where
  levels : Level → List (FileMetadata κ) := fun _ => []

namespace VersionBuilder

def emplace (file : FileMetadata κ) (files : List (FileMetadata κ)) : List (FileMetadata κ) :=
  if files.any (·.number == file.number) then files
  else files.orderedInsert (fun f g => f.number ≤ g.number) file

def ofVersion (base : Version κ) : VersionBuilder κ :=
  { levels := fun level => (base.files level).foldl (fun files file => emplace file files) [] }

def isLive (builder : VersionBuilder κ) (number : Nat) : Bool :=
  (List.finRange numLevels).any (fun level => (builder.levels level).any (·.number == number))

def erase (builder : VersionBuilder κ) (deleted : DeletedFile) : Result (VersionBuilder κ) :=
  if (builder.levels deleted.level).any (·.number == deleted.number) then
    .ok { levels := fun level => if level = deleted.level
      then (builder.levels level).filter (·.number != deleted.number) else builder.levels level }
  else .error (Error.invalidArgument ("edit deletes file " ++ toString deleted.number ++
    ", which is not live in level " ++ toString deleted.level.val))

def add (cmp : κ → κ → Ordering) (builder : VersionBuilder κ) (added : Level × FileMetadata κ) :
    Result (VersionBuilder κ) :=
  if builder.isLive added.2.number then
    .error (Error.invalidArgument ("edit adds file " ++ toString added.2.number ++
      ", which is already live"))
  else if cmp added.2.smallest added.2.largest = .gt then
    .error (Error.invalidArgument ("file " ++ toString added.2.number ++
      " has its smallest key after its largest"))
  else
    .ok { levels := fun level => if level = added.1
      then emplace (makeVersionFile added.2) (builder.levels level) else builder.levels level }

/-- `VersionBuilder::Apply`: the deletions of an edit come before its additions. -/
def apply (cmp : κ → κ → Ordering) (builder : VersionBuilder κ) (edit : VersionEdit κ) :
    Result (VersionBuilder κ) := do
  let erased ← edit.deletedFiles.foldlM erase builder
  edit.newFiles.foldlM (add cmp) erased

def sortFiles (cmp : κ → κ → Ordering) (files : List (FileMetadata κ)) : List (FileMetadata κ) :=
  files.mergeSort (fun f g => !fileBefore cmp g f)

def firstOverlap (cmp : κ → κ → Ordering) :
    List (FileMetadata κ) → Option (FileMetadata κ × FileMetadata κ)
  | f :: g :: rest =>
      if cmp f.largest g.smallest = .lt then firstOverlap cmp (g :: rest) else some (f, g)
  | _ => none

def checkLevel (cmp : κ → κ → Ordering) (builder : VersionBuilder κ) (level : Level) : Status :=
  match if level = 0 then none else firstOverlap cmp (sortFiles cmp (builder.levels level)) with
  | none => .ok ()
  | some (f, g) => .error (Error.invalidArgument ("files " ++ toString f.number ++ " and " ++
      toString g.number ++ " overlap in level " ++ toString level.val))

def build (cmp : κ → κ → Ordering) (builder : VersionBuilder κ) : Result (Version κ) :=
  ((List.finRange numLevels).forM (checkLevel cmp builder)).bind fun _ =>
    .ok { files := fun level => sortFiles cmp (builder.levels level) }

/-! ## The trusted builder -/

def levelDeletions (edit : VersionEdit κ) (level : Level) : List Nat :=
  (edit.deletedFiles.filter (·.level = level)).map (·.number)

def levelAdditions (edit : VersionEdit κ) (level : Level) : List (FileMetadata κ) :=
  (edit.newFiles.filter (·.1 = level)).map (fun added => makeVersionFile added.2)

/-- `std::ranges::binary_search`: the first number that is not less is the one. -/
def binarySearch (numbers : List Nat) (number : Nat) : Bool :=
  numbers.find? (number ≤ ·) = some number

theorem levelDeletions_sorted (edit : VersionEdit κ) (level : Level) :
    (levelDeletions edit level).Pairwise (· < ·) := by
  refine List.pairwise_map.mpr ((edit.deleted_sorted.filter _).imp_of_mem ?_)
  intro a b ha hb hlt
  simp only [List.mem_filter, decide_eq_true_eq] at ha hb
  rcases Prod.Lex.lt_iff.mp hlt with hlevel | ⟨_, hnumber⟩
  · exact absurd (ha.2.trans hb.2.symm) (ne_of_lt hlevel)
  · exact hnumber

theorem binarySearch_levelDeletions (edit : VersionEdit κ) (level : Level) (number : Nat) :
    binarySearch (levelDeletions edit level) number = (levelDeletions edit level).contains number := by
  have hsorted := levelDeletions_sorted edit level
  generalize levelDeletions edit level = numbers at hsorted ⊢
  rw [binarySearch, Bool.eq_iff_iff, decide_eq_true_eq, List.contains_iff_mem]
  constructor
  · exact List.mem_of_find?_eq_some
  · intro hmem
    obtain ⟨before, after, rfl⟩ := List.append_of_mem hmem
    have hbefore : ∀ n ∈ before, ¬ number ≤ n := fun n hn =>
      Nat.not_le.mpr ((List.pairwise_append.mp hsorted).2.2 n hn number List.mem_cons_self)
    rw [List.find?_eq_some_iff_append]
    exact ⟨by simp, before, after, rfl, by simpa using hbefore⟩

/-- `AppendRetainedFile` for each file. The binary search in the deletions of a level is membership, by
`binarySearch_levelDeletions`. -/
def retained (deletions : List Nat) (files : List (FileMetadata κ)) : List (FileMetadata κ) :=
  files.filter (fun file => !deletions.contains file.number)

def mergeAdditions (cmp : κ → κ → Ordering) (deletions : List Nat) :
    List (FileMetadata κ) → List (FileMetadata κ) → List (FileMetadata κ)
  | current, [] => retained deletions current
  | current, file :: additions =>
      retained deletions (current.takeWhile (fileBefore cmp · file)) ++ file ::
        mergeAdditions cmp deletions (current.dropWhile (fileBefore cmp · file)) additions

def mergeLevelFiles (cmp : κ → κ → Ordering) (existing : List (FileMetadata κ))
    (deletions : List Nat) (additions : List (FileMetadata κ)) : List (FileMetadata κ) :=
  mergeAdditions cmp deletions existing (sortFiles cmp additions)

def buildTrusted (cmp : κ → κ → Ordering) (base : Version κ) (edit : VersionEdit κ) : Version κ :=
  { files := fun level => mergeLevelFiles cmp (base.files level) (levelDeletions edit level)
      (levelAdditions edit level) }

/-! ## What the merge produces -/

section Merge

variable {cmp : κ → κ → Ordering}

theorem mergeAdditions_perm (deletions : List Nat) (additions : List (FileMetadata κ)) :
    ∀ current : List (FileMetadata κ), (mergeAdditions cmp deletions current additions).Perm
      (retained deletions current ++ additions) := by
  induction additions with
  | nil => intro current; simp [mergeAdditions]
  | cons file additions ih =>
    intro current
    rw [mergeAdditions]
    have hsplit : retained deletions current =
        retained deletions (current.takeWhile (fileBefore cmp · file)) ++
          retained deletions (current.dropWhile (fileBefore cmp · file)) := by
      unfold retained
      rw [← List.filter_append, List.takeWhile_append_dropWhile]
    rw [hsplit, List.append_assoc]
    refine List.Perm.append_left _ ?_
    exact (List.Perm.cons file (ih _)).trans List.perm_middle.symm

theorem mergeAdditions_sorted [Std.TransCmp cmp] (deletions : List Nat)
    (additions : List (FileMetadata κ)) (hadd : additions.Pairwise (fileBefore cmp · ·)) :
    ∀ current : List (FileMetadata κ), current.Pairwise (fileBefore cmp · ·) →
      (∀ f ∈ retained deletions current, ∀ g ∈ additions, f.number ≠ g.number) →
      (mergeAdditions cmp deletions current additions).Pairwise (fileBefore cmp · ·) := by
  induction hadd with
  | nil =>
    intro current hcur _
    exact hcur.filter _
  | @cons file additions hfile _ ih =>
    intro current hcur hne
    rw [mergeAdditions]
    have hdrop : (current.dropWhile (fileBefore cmp · file)).Sublist current :=
      List.dropWhile_sublist _
    have hrest := ih _ (hcur.sublist hdrop)
      (fun f hf g hg => hne f ((hdrop.filter _).subset hf) g (by simp [hg]))
    -- What is left of the base is not before the file, and the other additions are after it.
    have hafter : ∀ g ∈ mergeAdditions cmp deletions (current.dropWhile (fileBefore cmp · file))
        additions, fileBefore cmp file g = true := by
      intro g hg
      rcases List.mem_append.mp ((mergeAdditions_perm deletions additions _).subset hg) with hg | hg
      · have hnot := Partition.not_of_mem_dropWhile hcur (fun a b hab hb => fileBefore_trans hab hb)
          (List.mem_of_mem_filter hg)
        exact fileBefore_total (hne g ((hdrop.filter _).subset hg) file (by simp)) hnot
      · exact hfile g hg
    have hbefore : ∀ f ∈ retained deletions (current.takeWhile (fileBefore cmp · file)),
        fileBefore cmp f file = true := fun f hf =>
      List.mem_takeWhile_imp (p := (fileBefore cmp · file)) (List.mem_of_mem_filter hf)
    rw [List.pairwise_append]
    refine ⟨(hcur.sublist (List.takeWhile_sublist _)).filter _,
      List.pairwise_cons.mpr ⟨hafter, hrest⟩, ?_⟩
    intro f hf g hg
    rcases List.mem_cons.mp hg with rfl | hg
    · exact hbefore f hf
    · exact fileBefore_trans (hbefore f hf) (hafter g hg)

theorem sortFiles_perm (files : List (FileMetadata κ)) : (sortFiles cmp files).Perm files :=
  List.mergeSort_perm files _

theorem sortFiles_sorted [Std.TransCmp cmp] {files : List (FileMetadata κ)}
    (hne : files.Pairwise (fun f g => f.number ≠ g.number)) :
    (sortFiles cmp files).Pairwise (fileBefore cmp · ·) := by
  have hle : (sortFiles cmp files).Pairwise (fun f g => !fileBefore cmp g f) := by
    apply List.pairwise_mergeSort
    · intro a b c hab hbc
      rw [not_fileBefore_eq_isLE] at *
      exact Std.TransCmp.isLE_trans hab hbc
    · intro a b
      rw [not_fileBefore_eq_isLE, not_fileBefore_eq_isLE]
      have hswap : fileCompare cmp b a = (fileCompare cmp a b).swap := Std.OrientedCmp.eq_swap
      rw [hswap]
      cases fileCompare cmp a b <;> rfl
  have hnum : (sortFiles cmp files).Pairwise (fun f g => f.number ≠ g.number) :=
    (sortFiles_perm files).symm.pairwise hne (fun h => h.symm)
  refine (hle.and hnum).imp ?_
  intro f g hfg
  exact fileBefore_total hfg.2.symm (by simpa using hfg.1)

end Merge

end VersionBuilder

/-! ## Valid versions and trusted edits -/

/-- Each level is in file order, every file has a range, and a number names one file. -/
structure Version.Listed (cmp : κ → κ → Ordering) (version : Version κ) : Prop where
  sorted : ∀ level, (version.files level).Pairwise (fileBefore cmp · ·)
  ordered : ∀ level, ∀ f ∈ version.files level, cmp f.smallest f.largest ≠ .gt
  unique : ∀ l l' f g, f ∈ version.files l → g ∈ version.files l' → f.number = g.number →
    l = l' ∧ f = g

/-- Levels above 0 do not overlap either. -/
structure Version.Valid (cmp : κ → κ → Ordering) (version : Version κ) : Prop
    extends Version.Listed cmp version where
  disjoint : ∀ level : Level, level ≠ 0 →
    (version.files level).Pairwise (fun f g => cmp f.largest g.smallest = .lt)

variable {cmp : κ → κ → Ordering}

theorem pairwise_number [Std.TransCmp cmp] {files : List (FileMetadata κ)}
    (hs : files.Pairwise (fileBefore cmp · ·))
    (hu : ∀ f ∈ files, ∀ g ∈ files, f.number = g.number → f = g) :
    files.Pairwise (fun f g => f.number ≠ g.number) := by
  refine hs.imp_of_mem ?_
  intro f g hf hg hfg hn
  have he := hu f hf g hg hn
  subst he
  have hasymm := fileBefore_asymm hfg
  rw [hfg] at hasymm
  cases hasymm

theorem Version.Listed.pairwise_number [Std.TransCmp cmp] {version : Version κ}
    (hv : version.Listed cmp) (level : Level) :
    (version.files level).Pairwise (fun f g => f.number ≠ g.number) :=
  ModernLevelDB.pairwise_number (hv.sorted level)
    (fun f hf g hg hn => (hv.unique level level f g hf hg hn).2)

namespace VersionBuilder

/-- The edit deletes live files and adds valid files whose numbers are live nowhere after the
deletions. -/
structure TrustedFiles (cmp : κ → κ → Ordering) (base : Version κ) (edit : VersionEdit κ) :
    Prop where
  deleted_live : ∀ d ∈ edit.deletedFiles, ∃ f ∈ base.files d.level, f.number = d.number
  added_fresh : ∀ added ∈ edit.newFiles, ∀ level, ∀ f ∈ base.files level,
    f.number = added.2.number → DeletedFile.mk level f.number ∈ edit.deletedFiles
  added_distinct : edit.newFiles.Pairwise (fun a b => a.2.number ≠ b.2.number)
  added_ordered : ∀ added ∈ edit.newFiles, cmp added.2.smallest added.2.largest ≠ .gt

/-- The documented preconditions of `BuildTrusted`: in addition, the levels above 0 stay disjoint. -/
structure Trusted (cmp : κ → κ → Ordering) (base : Version κ) (edit : VersionEdit κ) : Prop
    extends TrustedFiles cmp base edit where
  disjoint : ∀ level : Level, level ≠ 0 → ((buildTrusted cmp base edit).files level).Pairwise
    (fun f g => cmp f.largest g.smallest = .lt)

section Trusted

variable {cmp : κ → κ → Ordering} {base : Version κ} {edit : VersionEdit κ}

variable {level : Level}

theorem mem_levelDeletions {edit : VersionEdit κ} {number : Nat} :
    number ∈ levelDeletions edit level ↔ DeletedFile.mk level number ∈ edit.deletedFiles := by
  simp only [levelDeletions, List.mem_map, List.mem_filter, decide_eq_true_eq]
  constructor
  · rintro ⟨d, ⟨hd, rfl⟩, rfl⟩
    exact hd
  · intro hd
    exact ⟨_, ⟨hd, rfl⟩, rfl⟩

theorem mem_levelAdditions {edit : VersionEdit κ} {file : FileMetadata κ} :
    file ∈ levelAdditions edit level ↔ ∃ g, (level, g) ∈ edit.newFiles ∧ file = makeVersionFile g := by
  simp only [levelAdditions, List.mem_map, List.mem_filter, decide_eq_true_eq]
  constructor
  · rintro ⟨added, ⟨hadded, rfl⟩, rfl⟩
    exact ⟨added.2, hadded, rfl⟩
  · rintro ⟨g, hg, rfl⟩
    exact ⟨_, ⟨hg, rfl⟩, rfl⟩

variable {f : FileMetadata κ}

theorem mem_retained {deletions : List Nat} {files : List (FileMetadata κ)} :
    f ∈ retained deletions files ↔ f ∈ files ∧ f.number ∉ deletions := by
  simp [retained]

theorem buildTrusted_perm (base : Version κ) (edit : VersionEdit κ) (level : Level) :
    ((buildTrusted cmp base edit).files level).Perm
      (retained (levelDeletions edit level) (base.files level) ++ levelAdditions edit level) :=
  (mergeAdditions_perm _ _ _).trans (List.Perm.append_left _ (sortFiles_perm _))

theorem mem_buildTrusted :
    f ∈ (buildTrusted cmp base edit).files level ↔
      (f ∈ base.files level ∧ DeletedFile.mk level f.number ∉ edit.deletedFiles) ∨
        ∃ g, (level, g) ∈ edit.newFiles ∧ f = makeVersionFile g := by
  rw [(buildTrusted_perm base edit level).mem_iff, List.mem_append, mem_retained,
    mem_levelDeletions, mem_levelAdditions]

theorem TrustedFiles.level_distinct (h : TrustedFiles cmp base edit) (level : Level) :
    (levelAdditions edit level).Pairwise (fun f g => f.number ≠ g.number) := by
  unfold levelAdditions
  rw [List.pairwise_map]
  exact h.added_distinct.filter _

theorem TrustedFiles.kept_ne_added (h : TrustedFiles cmp base edit) {level' : Level}
    {g : FileMetadata κ} (hf : f ∈ base.files level)
    (hkept : DeletedFile.mk level f.number ∉ edit.deletedFiles) (hg : (level', g) ∈ edit.newFiles) :
    f.number ≠ g.number :=
  fun he => hkept (h.added_fresh (level', g) hg level f hf he)

theorem TrustedFiles.added_eq_of_number (h : TrustedFiles cmp base edit) {a b : Level × FileMetadata κ}
    (ha : a ∈ edit.newFiles) (hb : b ∈ edit.newFiles) (hn : a.2.number = b.2.number) : a = b := by
  have hsymm : Std.Symm (fun a b : Level × FileMetadata κ => a.2.number ≠ b.2.number) :=
    ⟨fun _ _ hab => hab.symm⟩
  by_contra hne
  exact List.Pairwise.forall h.added_distinct ha hb hne hn

section

variable (hv : base.Listed cmp)

include hv

theorem buildTrusted_sorted [Std.TransCmp cmp] (h : TrustedFiles cmp base edit) (level : Level) :
    ((buildTrusted cmp base edit).files level).Pairwise (fileBefore cmp · ·) := by
  refine mergeAdditions_sorted _ _ (sortFiles_sorted (h.level_distinct level)) _ (hv.sorted level) ?_
  intro f hf g hg
  obtain ⟨hfb, hkept⟩ := mem_retained.mp hf
  obtain ⟨g', hg', rfl⟩ := mem_levelAdditions.mp ((sortFiles_perm _).subset hg)
  have hne : f.number ≠ g'.number :=
    h.kept_ne_added hfb (fun hd => hkept (mem_levelDeletions.mpr hd)) hg'
  exact hne

theorem buildTrusted_ordered (h : TrustedFiles cmp base edit) (level : Level) :
    ∀ f ∈ (buildTrusted cmp base edit).files level, cmp f.smallest f.largest ≠ .gt := by
  intro f hf
  rcases mem_buildTrusted.mp hf with ⟨hf, _⟩ | ⟨g, hg, rfl⟩
  · exact hv.ordered level f hf
  · exact h.added_ordered (level, g) hg

theorem buildTrusted_unique (h : TrustedFiles cmp base edit) {l l' : Level}
    {g : FileMetadata κ} (hf : f ∈ (buildTrusted cmp base edit).files l)
    (hg : g ∈ (buildTrusted cmp base edit).files l') (hn : f.number = g.number) :
    l = l' ∧ f = g := by
  rcases mem_buildTrusted.mp hf with ⟨hf, hfk⟩ | ⟨f', hf', rfl⟩
  · rcases mem_buildTrusted.mp hg with ⟨hg, _⟩ | ⟨g', hg', rfl⟩
    · exact hv.unique l l' f g hf hg hn
    · have hne : f.number ≠ g'.number := h.kept_ne_added hf hfk hg'
      exact absurd hn hne
  · rcases mem_buildTrusted.mp hg with ⟨hg, hgk⟩ | ⟨g', hg', rfl⟩
    · have hne : g.number ≠ f'.number := h.kept_ne_added hg hgk hf'
      exact absurd hn.symm hne
    · obtain ⟨hl, hfg⟩ := Prod.mk.inj (h.added_eq_of_number hf' hg' hn)
      exact ⟨hl, by rw [hfg]⟩

theorem buildTrusted_listed [Std.TransCmp cmp]
    (h : TrustedFiles cmp base edit) : (buildTrusted cmp base edit).Listed cmp where
  sorted := buildTrusted_sorted hv h
  ordered := buildTrusted_ordered hv h
  unique := fun _ _ _ _ hf hg hn => buildTrusted_unique hv h hf hg hn

theorem buildTrusted_valid [Std.TransCmp cmp] (h : Trusted cmp base edit) :
    (buildTrusted cmp base edit).Valid cmp :=
  ⟨buildTrusted_listed hv h.toTrustedFiles, h.disjoint⟩

end

end Trusted

/-! ## The checked builder on a trusted edit -/

/-- The builder holds the files of the version, in some order. -/
def Represents (b : VersionBuilder κ) (version : Version κ) : Prop :=
  ∀ level, (b.levels level).Perm (version.files level)

section Checked

variable {cmp : κ → κ → Ordering}

variable {files : List (FileMetadata κ)}

theorem emplace_perm {file : FileMetadata κ} (h : ∀ f ∈ files, f.number ≠ file.number) :
    (emplace file files).Perm (file :: files) := by
  unfold emplace
  rw [if_neg]
  · exact List.perm_orderedInsert _ file files
  · simpa using h

theorem foldl_emplace_perm (files : List (FileMetadata κ)) : ∀ acc : List (FileMetadata κ),
    (acc ++ files).Pairwise (fun f g => f.number ≠ g.number) →
      (files.foldl (fun files file => emplace file files) acc).Perm (acc ++ files) := by
  induction files with
  | nil => intro acc _; simp
  | cons file files ih =>
    intro acc hne
    obtain ⟨hacc, hrest, hcross⟩ := List.pairwise_append.mp hne
    have hemp : (emplace file acc).Perm (file :: acc) :=
      emplace_perm (fun f hf => hcross f hf file (by simp))
    have hperm : (emplace file acc ++ files).Perm (acc ++ file :: files) :=
      (hemp.append_right files).trans List.perm_middle.symm
    exact (ih _ (hperm.symm.pairwise hne (fun h => h.symm))).trans hperm

variable {version : Version κ}

theorem ofVersion_represents [Std.TransCmp cmp] (hv : version.Listed cmp) :
    Represents (ofVersion version) version := by
  intro level
  simpa [ofVersion] using foldl_emplace_perm (version.files level) [] (hv.pairwise_number level)

theorem sortFiles_eq_of_perm [Std.TransCmp cmp] {sorted : List (FileMetadata κ)}
    (hs : sorted.Pairwise (fileBefore cmp · ·))
    (hne : sorted.Pairwise (fun f g => f.number ≠ g.number)) (hperm : files.Perm sorted) :
    sortFiles cmp files = sorted := by
  have hne' : files.Pairwise (fun f g => f.number ≠ g.number) :=
    hperm.symm.pairwise hne (fun h => h.symm)
  refine List.Perm.eq_of_pairwise ?_ (sortFiles_sorted hne') hs ((sortFiles_perm files).trans hperm)
  intro a b _ _ hab hba
  rw [fileBefore_asymm hab] at hba
  cases hba

theorem firstOverlap_eq_none :
    firstOverlap cmp files = none ↔ files.IsChain (fun f g => cmp f.largest g.smallest = .lt) := by
  induction files with
  | nil => simp [firstOverlap]
  | cons f files ih =>
    cases files with
    | nil => simp [firstOverlap]
    | cons g rest =>
      rw [firstOverlap, List.isChain_cons_cons]
      split
      · next h => simp [ih, h]
      · next h => simp [h]

variable {b : VersionBuilder κ}

variable {level : Level}

theorem checkLevel_eq_ok : checkLevel cmp b level = .ok () ↔
    (level ≠ 0 → (sortFiles cmp (b.levels level)).IsChain
      (fun f g => cmp f.largest g.smallest = .lt)) := by
  unfold checkLevel
  by_cases h0 : level = 0
  · simp [h0]
  · rw [if_neg h0, ← firstOverlap_eq_none]
    split
    · next h => simp [h]
    · next h => simp [h, h0]

theorem build_eq_ok : build cmp b = .ok version ↔
    (∀ level : Level, level ≠ 0 → (sortFiles cmp (b.levels level)).IsChain
      (fun f g => cmp f.largest g.smallest = .lt)) ∧
      version = { files := fun level => sortFiles cmp (b.levels level) } := by
  unfold build
  rw [Result.bind_eq_ok]
  constructor
  · rintro ⟨_, hcheck, hok⟩
    cases hok
    exact ⟨fun level => checkLevel_eq_ok.mp (Result.forM_eq_ok.mp hcheck level (List.mem_finRange _)),
      rfl⟩
  · rintro ⟨hcheck, rfl⟩
    exact ⟨(), Result.forM_eq_ok.mpr (fun level _ => checkLevel_eq_ok.mpr (hcheck level)), rfl⟩

theorem sortFiles_of_represents [Std.TransCmp cmp] (hv : version.Listed cmp)
    (hb : Represents b version) :
    { files := fun level => sortFiles cmp (b.levels level) } = version := by
  cases version
  congr 1
  funext level
  exact sortFiles_eq_of_perm (hv.sorted level) (hv.pairwise_number level) (hb level)

/-- `Build` recovers a valid version from a builder that holds its files. -/
theorem build_of_represents [Std.TransCmp cmp] (hv : version.Valid cmp) (hb : Represents b version) :
    build cmp b = .ok version := by
  have hsort := sortFiles_of_represents hv.toListed hb
  refine build_eq_ok.mpr ⟨fun level h0 => ?_, hsort.symm⟩
  have hlevel := congrFun (congrArg Version.files hsort) level
  dsimp only at hlevel
  rw [hlevel]
  exact (hv.disjoint level h0).isChain

def erased (b : VersionBuilder κ) (ds : List DeletedFile) : VersionBuilder κ :=
  { levels := fun level => (b.levels level).filter (fun f => DeletedFile.mk level f.number ∉ ds) }

/-- The builder has the file that is to be deleted. -/
def Live (b : VersionBuilder κ) (d : DeletedFile) : Prop :=
  ∃ f ∈ b.levels d.level, f.number = d.number

variable {d : DeletedFile}

variable {number : Nat}

theorem mk_eq_iff : DeletedFile.mk level number = d ↔ level = d.level ∧ number = d.number := by
  constructor
  · rintro rfl
    exact ⟨rfl, rfl⟩
  · rintro ⟨rfl, rfl⟩
    rfl

variable {ds : List DeletedFile}

theorem mem_erased {f : FileMetadata κ} :
    f ∈ (erased b ds).levels level ↔
      f ∈ b.levels level ∧ DeletedFile.mk level f.number ∉ ds := by
  simp [erased]

theorem erased_erased (b : VersionBuilder κ) (d : DeletedFile) (ds : List DeletedFile) :
    erased (erased b [d]) ds = erased b (d :: ds) := by
  unfold erased
  congr 1
  funext level
  rw [List.filter_filter]
  apply List.filter_congr
  intro f _
  simp [Bool.and_comm]

theorem live_erased {d' : DeletedFile} (h : d' ≠ d) : Live (erased b [d]) d' ↔ Live b d' := by
  unfold Live
  constructor
  · rintro ⟨f, hf, hn⟩
    exact ⟨f, (mem_erased.mp hf).1, hn⟩
  · rintro ⟨f, hf, hn⟩
    refine ⟨f, mem_erased.mpr ⟨hf, ?_⟩, hn⟩
    rw [hn, List.mem_singleton]
    exact h

variable {c : VersionBuilder κ}

theorem erase_eq_ok : erase b d = .ok c ↔ Live b d ∧ c = erased b [d] := by
  have hlive : (b.levels d.level).any (·.number == d.number) = true ↔ Live b d := by
    simp [Live]
  have hlevels : (fun level => if level = d.level
      then (b.levels level).filter (·.number != d.number) else b.levels level) =
        (erased b [d]).levels := by
    funext level
    unfold erased
    by_cases hl : level = d.level
    · simp [hl, mk_eq_iff, bne]
      rfl
    · simp [hl, mk_eq_iff]
  unfold erase
  by_cases h : Live b d
  · rw [if_pos (hlive.mpr h), hlevels]
    simp [h, eq_comm]
  · rw [if_neg (fun ha => h (hlive.mp ha))]
    simp [h]

theorem foldlM_erase_eq_ok (hnd : ds.Nodup) :
    ∀ {b c : VersionBuilder κ}, ds.foldlM erase b = .ok c ↔
      (∀ d ∈ ds, Live b d) ∧ c = erased b ds := by
  induction ds with
  | nil =>
    intro b c
    have hnil : erased b [] = b := by simp [erased]
    simp [pure, Except.pure, hnil, eq_comm]
  | cons d ds ih =>
    intro b c
    obtain ⟨hd, hnd'⟩ := List.nodup_cons.mp hnd
    have hlive : (∀ d' ∈ ds, Live (erased b [d]) d') ↔ ∀ d' ∈ ds, Live b d' :=
      forall₂_congr (fun d' hd' => live_erased (fun he => hd (he ▸ hd')))
    rw [List.foldlM_cons]
    refine Result.bind_eq_ok.trans ?_
    constructor
    · rintro ⟨b₁, hb₁, hc⟩
      obtain ⟨hdl, rfl⟩ := erase_eq_ok.mp hb₁
      obtain ⟨hrest, rfl⟩ := (ih hnd').mp hc
      exact ⟨List.forall_mem_cons.mpr ⟨hdl, hlive.mp hrest⟩, erased_erased b d ds⟩
    · rintro ⟨hall, rfl⟩
      obtain ⟨hdl, hrest⟩ := List.forall_mem_cons.mp hall
      exact ⟨_, erase_eq_ok.mpr ⟨hdl, rfl⟩,
        (ih hnd').mpr ⟨hlive.mpr hrest, (erased_erased b d ds).symm⟩⟩

/-- No file of the builder has this number. -/
def Fresh (b : VersionBuilder κ) (number : Nat) : Prop :=
  ∀ level, ∀ f ∈ b.levels level, f.number ≠ number

theorem isLive_eq_false : b.isLive number = false ↔ Fresh b number := by
  simp [isLive, Fresh]

def added (b : VersionBuilder κ) (a : Level × FileMetadata κ) : VersionBuilder κ :=
  { levels := fun level => if level = a.1
      then emplace (makeVersionFile a.2) (b.levels level) else b.levels level }

variable {a : Level × FileMetadata κ}

theorem add_eq_ok :
    add cmp b a = .ok c ↔
      Fresh b a.2.number ∧ cmp a.2.smallest a.2.largest ≠ .gt ∧ c = added b a := by
  unfold add
  split
  · next hlive =>
    have hnot : ¬ Fresh b a.2.number := fun hf => by
      rw [isLive_eq_false.mpr hf] at hlive
      cases hlive
    simp [hnot]
  · next hlive =>
    have hfresh : Fresh b a.2.number := isLive_eq_false.mp (by simpa using hlive)
    split
    · next hgt => simp [hgt]
    · next hgt => simp [hfresh, hgt, added, eq_comm]

theorem added_perm (h : Fresh b a.2.number) (level : Level) : ((added b a).levels level).Perm
      (b.levels level ++ ([a].filter (·.1 = level)).map (fun a => makeVersionFile a.2)) := by
  unfold added
  by_cases hl : level = a.1
  · subst hl
    simp only [if_true, decide_true, List.filter_cons_of_pos, List.filter_nil, List.map_cons,
      List.map_nil]
    have hemp : (emplace (makeVersionFile a.2) (b.levels a.1)).Perm
        ([makeVersionFile a.2] ++ b.levels a.1) := emplace_perm (h a.1)
    exact hemp.trans List.perm_append_comm
  · simp [hl, Ne.symm hl]

theorem fresh_added (h : Fresh b a.2.number) :
    Fresh (added b a) number ↔ Fresh b number ∧ a.2.number ≠ number := by
  have hmem : ∀ level f, f ∈ (added b a).levels level ↔
      f ∈ b.levels level ∨ level = a.1 ∧ f = makeVersionFile a.2 := by
    intro level f
    rw [(added_perm h level).mem_iff, List.mem_append]
    by_cases hl : a.1 = level
    · simp [hl]
    · simp [hl, Ne.symm hl]
  constructor
  · intro hf
    refine ⟨fun level f hm => hf level f ((hmem level f).mpr (.inl hm)), ?_⟩
    exact hf a.1 (makeVersionFile a.2) ((hmem _ _).mpr (.inr ⟨rfl, rfl⟩))
  · rintro ⟨hf, hn⟩ level f hm
    rcases (hmem level f).mp hm with hm | ⟨_, rfl⟩
    · exact hf level f hm
    · exact hn

variable {adds : List (Level × FileMetadata κ)}

theorem foldlM_add_eq_ok :
    ∀ {b c : VersionBuilder κ}, adds.foldlM (add cmp) b = .ok c →
      (∀ a ∈ adds, Fresh b a.2.number ∧ cmp a.2.smallest a.2.largest ≠ .gt) ∧
        adds.Pairwise (fun a a' => a.2.number ≠ a'.2.number) ∧
        ∀ level, (c.levels level).Perm
          (b.levels level ++ (adds.filter (·.1 = level)).map (fun a => makeVersionFile a.2)) := by
  induction adds with
  | nil =>
    rintro b c hc
    cases hc
    simp
  | cons a adds ih =>
    intro b c hc
    rw [List.foldlM_cons] at hc
    obtain ⟨b₁, hb₁, hc⟩ := Result.bind_eq_ok.mp hc
    obtain ⟨hfresh, hord, rfl⟩ := add_eq_ok.mp hb₁
    obtain ⟨hrest, hpair, hperm⟩ := ih hc
    refine ⟨?_, ?_, ?_⟩
    · intro a' ha'
      rcases List.mem_cons.mp ha' with rfl | ha'
      · exact ⟨hfresh, hord⟩
      · exact ⟨((fresh_added hfresh).mp (hrest a' ha').1).1, (hrest a' ha').2⟩
    · refine List.pairwise_cons.mpr ⟨fun a' ha' => ?_, hpair⟩
      exact ((fresh_added hfresh).mp (hrest a' ha').1).2
    · intro level
      refine (hperm level).trans (((added_perm hfresh level).append_right _).trans ?_)
      rw [List.append_assoc, ← List.map_append, ← List.filter_append]
      exact List.Perm.refl _

theorem foldlM_add_ok :
    ∀ {b : VersionBuilder κ},
      (∀ a ∈ adds, Fresh b a.2.number ∧ cmp a.2.smallest a.2.largest ≠ .gt) →
      adds.Pairwise (fun a a' => a.2.number ≠ a'.2.number) →
      ∃ c, adds.foldlM (add cmp) b = .ok c := by
  induction adds with
  | nil => exact fun _ _ => ⟨_, rfl⟩
  | cons a adds ih =>
    intro b hall hpair
    obtain ⟨⟨hfresh, hord⟩, hrest⟩ := List.forall_mem_cons.mp hall
    obtain ⟨hne, hpair'⟩ := List.pairwise_cons.mp hpair
    obtain ⟨c, hc⟩ := @ih (added b a) (fun a' ha' =>
      ⟨(fresh_added hfresh).mpr ⟨(hrest a' ha').1, hne a' ha'⟩, (hrest a' ha').2⟩) hpair'
    refine ⟨c, ?_⟩
    rw [List.foldlM_cons]
    exact Result.bind_eq_ok.mpr ⟨_, add_eq_ok.mpr ⟨hfresh, hord, rfl⟩, hc⟩

theorem pairwise_of_isChain [Std.TransCmp cmp] (hord : ∀ f ∈ files, cmp f.smallest f.largest ≠ .gt)
    (hc : files.IsChain (fun f g => cmp f.largest g.smallest = .lt)) :
    files.Pairwise (fun f g => cmp f.largest g.smallest = .lt) := by
  induction files with
  | nil => exact .nil
  | cons f files ih =>
    have hrest := ih (fun g hg => hord g (by simp [hg])) hc.of_cons
    refine List.pairwise_cons.mpr ⟨?_, hrest⟩
    cases files with
    | nil => simp
    | cons g rest =>
      have hfg : cmp f.largest g.smallest = .lt := (List.isChain_cons_cons.mp hc).1
      intro x hx
      rcases List.mem_cons.mp hx with rfl | hx
      · exact hfg
      · have hgx : cmp g.largest x.smallest = .lt := (List.pairwise_cons.mp hrest).1 x hx
        have hgle : (cmp g.smallest g.largest).isLE = true :=
          Ordering.isLE_iff_ne_gt.mpr (hord g (by simp))
        exact Std.TransCmp.lt_trans (Std.TransCmp.lt_of_lt_of_isLE hfg hgle) hgx

variable {base : Version κ} {edit : VersionEdit κ}

theorem erased_perm (hb : Represents b base) (level : Level) :
    ((erased b edit.deletedFiles).levels level).Perm
      (retained (levelDeletions edit level) (base.files level)) := by
  refine ((hb level).filter _).trans ?_
  have hsame : (base.files level).filter
      (fun f => decide (DeletedFile.mk level f.number ∉ edit.deletedFiles)) =
        retained (levelDeletions edit level) (base.files level) := by
    unfold retained
    apply List.filter_congr
    intro f _
    simp [← mem_levelDeletions]
  rw [hsame]

/-- What `Apply` does to the files: it accepts exactly the edits that delete live files and add
valid files with fresh numbers, and then holds the files of the trusted result. -/
theorem apply_of_trusted (hb : Represents b base) (h : TrustedFiles cmp base edit) :
    ∃ c, apply cmp b edit = .ok c ∧ Represents c (buildTrusted cmp base edit) := by
  have hnd : edit.deletedFiles.Nodup := edit.deleted_sorted.imp ne_of_lt
  have hlive : ∀ d ∈ edit.deletedFiles, Live b d := by
    intro d hd
    obtain ⟨f, hf, hn⟩ := h.deleted_live d hd
    exact ⟨f, (hb d.level).mem_iff.mpr hf, hn⟩
  have hfresh : ∀ a ∈ edit.newFiles, Fresh (erased b edit.deletedFiles) a.2.number ∧
      cmp a.2.smallest a.2.largest ≠ .gt := by
    intro a ha
    refine ⟨fun level f hf hn => ?_, h.added_ordered a ha⟩
    obtain ⟨hfb, hkept⟩ := mem_erased.mp hf
    exact hkept (h.added_fresh a ha level f ((hb level).mem_iff.mp hfb) hn)
  obtain ⟨c, hc⟩ := foldlM_add_ok hfresh h.added_distinct
  refine ⟨c, Result.bind_eq_ok.mpr ⟨_, (foldlM_erase_eq_ok hnd).mpr ⟨hlive, rfl⟩, hc⟩, ?_⟩
  intro level
  refine ((foldlM_add_eq_ok hc).2.2 level).trans (List.Perm.trans ?_ (buildTrusted_perm _ _ level).symm)
  exact (erased_perm hb level).append_right _

theorem trustedFiles_of_apply (hb : Represents b base) (happly : apply cmp b edit = .ok c) :
    TrustedFiles cmp base edit := by
  have hnd : edit.deletedFiles.Nodup := edit.deleted_sorted.imp ne_of_lt
  obtain ⟨b₁, hb₁, hc⟩ := Result.bind_eq_ok.mp happly
  obtain ⟨hlive, rfl⟩ := (foldlM_erase_eq_ok hnd).mp hb₁
  obtain ⟨hfresh, hdistinct, _⟩ := foldlM_add_eq_ok hc
  refine ⟨?_, ?_, hdistinct, fun a ha => (hfresh a ha).2⟩
  · intro d hd
    obtain ⟨f, hf, hn⟩ := hlive d hd
    exact ⟨f, (hb d.level).mem_iff.mp hf, hn⟩
  · intro a ha level f hf hn
    by_contra hkept
    exact (hfresh a ha).1 level f (mem_erased.mpr ⟨(hb level).mem_iff.mpr hf, hkept⟩) hn

/-- A version that `Build` accepts has no overlap above level 0, and is the one that the builder
holds. -/
theorem valid_of_build [Std.TransCmp cmp] (hv : base.Listed cmp) (hb : Represents b base)
    (hbuild : build cmp b = .ok version) :
    version = base ∧ base.Valid cmp := by
  have hsort := sortFiles_of_represents hv hb
  obtain ⟨hchain, rfl⟩ := build_eq_ok.mp hbuild
  refine ⟨hsort, hv, fun level h0 => ?_⟩
  have hlevel := hchain level h0
  rw [show sortFiles cmp (b.levels level) = base.files level from
    congrFun (congrArg Version.files hsort) level] at hlevel
  exact pairwise_of_isChain (hv.ordered level) hlevel

/-- An edit that the checked builder accepts meets the preconditions of the trusted one, and both
give the same version. -/
theorem trusted_of_build [Std.TransCmp cmp] (hv : base.Listed cmp) (hb : Represents b base)
    (happly : apply cmp b edit = .ok c) (hbuild : build cmp c = .ok version) :
    Trusted cmp base edit ∧ version = buildTrusted cmp base edit := by
  have htrusted := trustedFiles_of_apply hb happly
  obtain ⟨c', hc', hrep⟩ := apply_of_trusted hb htrusted
  cases happly.symm.trans hc'
  obtain ⟨heq, hvalid⟩ := valid_of_build (buildTrusted_listed hv htrusted) hrep hbuild
  exact ⟨⟨htrusted, hvalid.disjoint⟩, heq⟩

/-! ## Many edits -/

/-- The edits one by one, each built into a version of its own. -/
inductive CheckedSteps (cmp : κ → κ → Ordering) : Version κ → List (VersionEdit κ) → Version κ → Prop where
  | nil (base : Version κ) : CheckedSteps cmp base [] base
  | cons {base next version : Version κ} {edit : VersionEdit κ} {edits : List (VersionEdit κ)}
      {b : VersionBuilder κ} (applied : apply cmp (ofVersion base) edit = .ok b)
      (built : build cmp b = .ok next) (rest : CheckedSteps cmp next edits version) :
      CheckedSteps cmp base (edit :: edits) version

variable {edits : List (VersionEdit κ)}

/-- One builder that applies all edits holds what the trusted builder makes of them. -/
theorem represents_foldlM [Std.TransCmp cmp] (hv : base.Listed cmp) (hb : Represents b base)
    (h : edits.foldlM (apply cmp) b = .ok c) :
    Represents c (edits.foldl (buildTrusted cmp) base) ∧
      (edits.foldl (buildTrusted cmp) base).Listed cmp := by
  induction edits generalizing base b with
  | nil =>
    cases h
    exact ⟨hb, hv⟩
  | cons edit edits ih =>
    rw [List.foldlM_cons] at h
    obtain ⟨b₁, happly, hrest⟩ := Result.bind_eq_ok.mp h
    have htrusted := trustedFiles_of_apply hb happly
    obtain ⟨b₂, happly', hrep⟩ := apply_of_trusted hb htrusted
    cases happly.symm.trans happly'
    exact ih (buildTrusted_listed hv htrusted) hrep hrest

theorem CheckedSteps.foldlM [Std.TransCmp cmp] (h : CheckedSteps cmp base edits version)
    (hv : base.Valid cmp) (hb : Represents b base) :
    version = edits.foldl (buildTrusted cmp) base ∧ version.Valid cmp ∧
      ∃ c, edits.foldlM (apply cmp) b = .ok c ∧ Represents c version := by
  induction h generalizing b with
  | nil base => exact ⟨rfl, hv, b, rfl, hb⟩
  | cons happly hbuild _ ih =>
    obtain ⟨htrusted, rfl⟩ :=
      trusted_of_build hv.toListed (ofVersion_represents hv.toListed) happly hbuild
    obtain ⟨b₁, happly₁, hrep⟩ := apply_of_trusted hb htrusted.toTrustedFiles
    obtain ⟨heq, hvalid, c, hc, hrep'⟩ := ih (buildTrusted_valid hv.toListed htrusted) hrep
    refine ⟨heq, hvalid, c, ?_, hrep'⟩
    rw [List.foldlM_cons]
    exact Result.bind_eq_ok.mpr ⟨b₁, happly₁, hc⟩

/-- The two builders agree on every edit that the checked one accepts, and on every list of them. Kept
files are those of the base, with their seek allowance; the others are made from the edit. -/
theorem buildTrusted_eq_checked [Std.TransCmp cmp] {base : Version κ} (hv : base.Valid cmp) :
    (∀ edit b version, apply cmp (ofVersion base) edit = .ok b → build cmp b = .ok version →
      buildTrusted cmp base edit = version ∧ ∀ level, ∀ f ∈ version.files level,
        (f ∈ base.files level ∧ DeletedFile.mk level f.number ∉ edit.deletedFiles) ∨
          ∃ g, (level, g) ∈ edit.newFiles ∧ f = makeVersionFile g) ∧
    (∀ edits version, CheckedSteps cmp base edits version →
      edits.foldl (buildTrusted cmp) base = version ∧
        ∃ b, edits.foldlM (apply cmp) (ofVersion base) = .ok b ∧ build cmp b = .ok version) ∧
    ∀ (edits : List (VersionEdit κ)) b version, edits.foldlM (apply cmp) (ofVersion base) = .ok b →
      build cmp b = .ok version → edits.foldl (buildTrusted cmp) base = version := by
  have hb := ofVersion_represents hv.toListed
  refine ⟨fun edit b version happly hbuild => ?_, fun edits version hsteps => ?_,
    fun edits b version happly hbuild => ?_⟩
  · obtain ⟨_, rfl⟩ := trusted_of_build hv.toListed hb happly hbuild
    exact ⟨rfl, fun level f hf => mem_buildTrusted.mp hf⟩
  · obtain ⟨heq, hvalid, b, happly, hrep⟩ := hsteps.foldlM hv hb
    exact ⟨heq.symm, b, happly, build_of_represents hvalid hrep⟩
  · obtain ⟨hrep, hlisted⟩ := represents_foldlM hv.toListed hb happly
    exact (valid_of_build hlisted hrep hbuild).1.symm

end Checked

/-! ## A file that moves -/

def movingFile : FileMetadata Nat := { number := 7, fileSize := 10, smallest := 1, largest := 4 }

def beforeMove : Version Nat := ⟨fun level => if level = 1 then [movingFile] else []⟩

/-- Deletes the file from level 1 and adds it to level 2 under the same number. -/
def moveEdit : VersionEdit Nat where
  deletedFiles := [DeletedFile.mk 1 7]
  newFiles := [(2, movingFile)]
  deleted_sorted := List.pairwise_singleton _ _

theorem buildTrusted_eq_checked_move : ∃ version, CheckedSteps compare beforeMove [moveEdit] version ∧
    [moveEdit].foldl (buildTrusted compare) beforeMove = version := by
  have hfiles : ∀ level, ∀ f ∈ beforeMove.files level, level = 1 ∧ f = movingFile := by
    intro level f hf
    unfold beforeMove at hf
    dsimp only at hf
    split at hf
    · next hlevel => exact ⟨hlevel, List.mem_singleton.mp hf⟩
    · cases hf
  have hsingle : ∀ level, beforeMove.files level = [] ∨ beforeMove.files level = [movingFile] := by
    intro level
    unfold beforeMove
    dsimp only
    split
    · exact .inr rfl
    · exact .inl rfl
  have hv : beforeMove.Valid compare := by
    refine ⟨⟨fun level => ?_, fun level f hf => ?_, fun l l' f g hf hg _ => ?_⟩, fun level _ => ?_⟩
    · rcases hsingle level with h | h <;> simp [h]
    · rw [(hfiles level f hf).2]
      decide
    · rw [(hfiles l f hf).1, (hfiles l' g hg).1, (hfiles l f hf).2, (hfiles l' g hg).2]
      exact ⟨rfl, rfl⟩
    · rcases hsingle level with h | h <;> simp [h]
  have htrusted : TrustedFiles compare beforeMove moveEdit := by
    refine ⟨fun d hd => ?_, fun a ha level f hf _ => ?_, List.pairwise_singleton _ _, fun a ha => ?_⟩
    · rw [List.mem_singleton.mp hd]
      exact ⟨movingFile, List.mem_singleton_self _, rfl⟩
    · rw [(hfiles level f hf).1, (hfiles level f hf).2]
      exact List.mem_singleton_self _
    · rw [List.mem_singleton.mp ha]
      decide
  -- No level has two files after the move.
  have hlength : ∀ level, ((buildTrusted compare beforeMove moveEdit).files level).length ≤ 1 := by
    intro level
    rw [(buildTrusted_perm beforeMove moveEdit level).length_eq]
    revert level
    decide
  have hvalid : (buildTrusted compare beforeMove moveEdit).Valid compare := by
    refine ⟨buildTrusted_listed hv.toListed htrusted, fun level _ => ?_⟩
    have hle := hlength level
    cases hlevel : (buildTrusted compare beforeMove moveEdit).files level with
    | nil => exact .nil
    | cons f rest =>
      rw [hlevel] at hle
      have hnil : rest = [] := List.length_eq_zero_iff.mp (by simpa using hle)
      rw [hnil]
      exact List.pairwise_singleton _ _
  obtain ⟨b, happly, hrep⟩ := apply_of_trusted (ofVersion_represents hv.toListed) htrusted
  have hsteps : CheckedSteps compare beforeMove [moveEdit] (buildTrusted compare beforeMove moveEdit) :=
    .cons happly (build_of_represents hvalid hrep) (.nil _)
  exact ⟨_, hsteps, ((buildTrusted_eq_checked hv).2.1 _ _ hsteps).1⟩

end VersionBuilder
end ModernLevelDB
