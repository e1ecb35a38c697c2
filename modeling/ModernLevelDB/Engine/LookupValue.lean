import ModernLevelDB.Engine.Lookup

/-! # `LookupValue` (`engine/lookup.cc`)

A point read asks the memtables and then the files of a version until one has a visible entry, copies
the value it finds into its output, and reports the file that a compaction should be charged with.
Table reads may fail. -/
namespace ModernLevelDB
set_option autoImplicit false

variable {K V : Type*} [LinearOrder K]

/-! ## The memtables -/

def searchMemTables (user : K) (limit : Nat) : List (Run K V) → V → Option Bool × V
  | [], value => (none, value)
  | source :: rest, value =>
      match source.search user limit with
      | .value found => (some true, found)
      | .deletion => (some false, value)
      | .missing => searchMemTables user limit rest value

def searchMemory (mutableTable : Run K V) (immutableTable : Option (Run K V)) (user : K)
    (limit : Nat) (value : V) : Option Bool × V :=
  searchMemTables user limit (mutableTable :: immutableTable.toList) value

/-! ## The files -/

/-- `PointLookup` with its results and its output value; `searched` lists the files that it passed to
`SearchFile`. -/
structure FileLookup (K V : Type*) extends PointLookup K where
  value : V
  decided : Bool := false
  foundValue : Bool := false
  searched : List (Candidate K) := []

namespace FileLookup

/-- `PointLookup::Visit`. The table cache gives the contents of a table or fails. -/
def visit (tableCache : Nat → Result (Run K V)) (user : K) (limit : Nat) (lookup : FileLookup K V)
    (candidate : Candidate K) : Result Bool × FileLookup K V :=
  let lookup := { lookup with
    toPointLookup := lookup.toPointLookup.visit candidate
    searched := lookup.searched ++ [candidate] }
  match tableCache candidate.file.number with
  | .error error => (.error error, lookup)
  | .ok run =>
      match run.search user limit with
      | .missing => (.ok true, lookup)
      | .value found =>
          (.ok false, { lookup with value := found, foundValue := true, decided := true })
      | .deletion => (.ok false, { lookup with foundValue := false, decided := true })

def result (lookup : FileLookup K V) : Bool := lookup.decided && lookup.foundValue

end FileLookup

/-- The loop of `ForEachOverlapping`: a visitor goes on, stops or fails. -/
def forEachOverlapping {σ : Type*} (visitor : σ → Candidate K → Result Bool × σ) :
    List (Candidate K) → σ → Status × σ
  | [], state => (.ok (), state)
  | candidate :: rest, state =>
      match visitor state candidate with
      | (.error error, state) => (.error error, state)
      | (.ok false, state) => (.ok (), state)
      | (.ok true, state) => forEachOverlapping visitor rest state

/-- What `LookupValue` returns, with the files it searched. -/
structure LookupOutput (K V : Type*) where
  result : Result Bool
  value : V
  seek : Option (Candidate K)
  searched : List (Candidate K)

def lookupValue (tableCache : Nat → Result (Run K V)) (mutableTable : Run K V)
    (immutableTable : Option (Run K V)) (version : Levels K) (user : K) (limit : Nat) (value : V) :
    LookupOutput K V :=
  match searchMemory mutableTable immutableTable user limit value with
  | (some found, value) => ⟨.ok found, value, none, []⟩
  | (none, value) =>
      match forEachOverlapping (FileLookup.visit tableCache user limit)
          (candidates version (.lookupKey user limit)) ({ value } : FileLookup K V) with
      | (.error error, lookup) => ⟨.error error, lookup.value, lookup.seek, lookup.searched⟩
      | (.ok _, lookup) => ⟨.ok lookup.result, lookup.value, lookup.seek, lookup.searched⟩

/-! ## What a decision copies -/

/-- The answer of a read that finds `newest`: whether there is a value, and the output value, which
stays as it was unless there is one. -/
structure Answers (newest : Option (Entry K V)) (before : V) (found : Bool) (after : V) : Prop where
  found : found = (newest.bind Entry.view).isSome
  value : after = (newest.bind Entry.view).getD before

theorem Run.search_cases (run : Run K V) (user : K) (limit : Nat) :
    (run.search user limit = .missing ∧ run.newest user limit = none) ∨
    (∃ entry, run.newest user limit = some entry ∧ entry.view = none ∧
      run.search user limit = .deletion) ∨
    ∃ entry value, run.newest user limit = some entry ∧ entry.view = some value ∧
      run.search user limit = .value value := by
  unfold Run.search
  cases hnewest : run.newest user limit with
  | none => exact .inl ⟨rfl, rfl⟩
  | some entry =>
    cases hkind : entry.key.kind with
    | deletion => exact .inr (.inl ⟨entry, rfl, by simp [Entry.view, hkind],
        by simp [Decision.ofEntry, hkind]⟩)
    | value => exact .inr (.inr ⟨entry, entry.value, rfl, by simp [Entry.view, hkind],
        by simp [Decision.ofEntry, hkind]⟩)

/-- `SearchMemory` decides exactly when a memtable has a visible entry. -/
theorem searchMemTables_spec (user : K) (limit : Nat) (sources : List (Run K V)) (value : V) :
    match searchMemTables user limit sources value with
    | (none, after) => sources.findSome? (·.newest user limit) = none ∧ after = value
    | (some found, after) => ∃ entry, sources.findSome? (·.newest user limit) = some entry ∧
        Answers (some entry) value found after := by
  induction sources with
  | nil => exact ⟨rfl, rfl⟩
  | cons source rest ih =>
    rw [searchMemTables]
    rcases source.search_cases user limit with ⟨hsearch, hnewest⟩ | ⟨entry, hnewest, hview, hsearch⟩ |
      ⟨entry, found, hnewest, hview, hsearch⟩
    · simpa only [hsearch, List.findSome?_cons, hnewest] using ih
    · simp only [hsearch, List.findSome?_cons, hnewest]
      exact ⟨entry, rfl, by simp [hview], by simp [hview]⟩
    · simp only [hsearch, List.findSome?_cons, hnewest]
      exact ⟨entry, rfl, by simp [hview], by simp [hview]⟩

/-! ## The charge -/

def firstOfSeveral : List (Candidate K) → Option (Candidate K)
  | first :: _ :: _ => some first
  | _ => none

namespace FileLookup

/-- The seek is charged to the first file when a second one is searched. -/
structure Charged (lookup : FileLookup K V) : Prop where
  previous : lookup.previous = lookup.searched.getLast?
  seek : lookup.seek = firstOfSeveral lookup.searched

variable {lookup : FileLookup K V}

omit [LinearOrder K] in
theorem Charged.push (h : lookup.Charged) (candidate : Candidate K) :
    (lookup.toPointLookup.visit candidate).previous = (lookup.searched ++ [candidate]).getLast? ∧
      (lookup.toPointLookup.visit candidate).seek =
        firstOfSeveral (lookup.searched ++ [candidate]) := by
  refine ⟨by simp [PointLookup.visit], ?_⟩
  show (lookup.seek <|> lookup.previous) = _
  rw [h.seek, h.previous]
  rcases lookup.searched with _ | ⟨first, _ | ⟨second, rest⟩⟩ <;> rfl

theorem visit_cases (tableCache : Nat → Result (Run K V)) (user : K) (limit : Nat)
    (h : lookup.Charged) (candidate : Candidate K) :
    let out := visit tableCache user limit lookup candidate
    out.2.Charged ∧ out.2.searched = lookup.searched ++ [candidate] ∧
    ((∃ error, tableCache candidate.file.number = .error error ∧ out.1 = .error error) ∨
      ∃ run, tableCache candidate.file.number = .ok run ∧
        ((run.newest user limit = none ∧ out.1 = .ok true ∧ out.2.decided = lookup.decided ∧
            out.2.value = lookup.value) ∨
          ∃ entry, run.newest user limit = some entry ∧ out.1 = .ok false ∧
            Answers (some entry) lookup.value out.2.result out.2.value)) := by
  obtain ⟨hprevious, hseek⟩ := h.push candidate
  unfold visit
  cases htable : tableCache candidate.file.number with
  | error error => exact ⟨⟨hprevious, hseek⟩, rfl, .inl ⟨error, rfl, rfl⟩⟩
  | ok run =>
    rcases run.search_cases user limit with ⟨hsearch, hnewest⟩ | ⟨entry, hnewest, hview, hsearch⟩ |
      ⟨entry, found, hnewest, hview, hsearch⟩
    · simp only [hsearch]
      exact ⟨⟨hprevious, hseek⟩, by simp, .inr ⟨run, rfl, .inl ⟨hnewest, by simp⟩⟩⟩
    · simp only [hsearch]
      exact ⟨⟨hprevious, hseek⟩, by simp, .inr ⟨run, rfl, .inr ⟨entry, hnewest, trivial,
        by simp [result, hview], by simp [hview]⟩⟩⟩
    · simp only [hsearch]
      exact ⟨⟨hprevious, hseek⟩, by simp, .inr ⟨run, rfl, .inr ⟨entry, hnewest, trivial,
        by simp [result, hview], by simp [hview]⟩⟩⟩

end FileLookup

/-- The search of the files: it fails only with the error of a file it searched, and otherwise answers
with the first file that has a visible entry. -/
theorem forEachOverlapping_visit (tableCache : Nat → Result (Run K V)) {tables : Nat → Run K V}
    (user : K) (limit : Nat) (files : List (Candidate K))
    (hcache : ∀ c ∈ files, ∀ run, tableCache c.file.number = .ok run → run = tables c.file.number)
    {lookup : FileLookup K V} (h : lookup.Charged) (hdecided : lookup.decided = false) :
    let out := forEachOverlapping (FileLookup.visit tableCache user limit) files lookup
    out.2.Charged ∧ (∃ n, out.2.searched = lookup.searched ++ files.take n) ∧
    match out.1 with
    | .error error => ∃ c ∈ out.2.searched, tableCache c.file.number = .error error
    | .ok _ => Answers (files.findSome? (fun c => (tables c.file.number).newest user limit))
        lookup.value out.2.result out.2.value := by
  induction files generalizing lookup with
  | nil =>
    refine ⟨h, ⟨0, by simp [forEachOverlapping]⟩, ?_⟩
    exact ⟨by simp [FileLookup.result, hdecided, forEachOverlapping], rfl⟩
  | cons candidate rest ih =>
    have hvisit := FileLookup.visit_cases tableCache user limit h candidate
    rw [forEachOverlapping]
    rcases hout : FileLookup.visit tableCache user limit lookup candidate with ⟨outcome, next⟩
    rw [hout] at hvisit
    dsimp only at hvisit
    obtain ⟨hcharged, hsearched, ⟨error, htable, rfl⟩ | ⟨run, htable, hrun⟩⟩ := hvisit
    · exact ⟨hcharged, ⟨1, by simpa using hsearched⟩, candidate, by simp [hsearched], htable⟩
    · have htables : run = tables candidate.file.number :=
        hcache candidate (by simp) run htable
      rcases hrun with ⟨hnewest, rfl, hsame, hvalue⟩ | ⟨entry, hnewest, rfl, hanswers⟩
      · obtain ⟨hcharged, ⟨n, htake⟩, hanswers⟩ := ih
          (fun c hc => hcache c (by simp [hc])) hcharged (hsame.trans hdecided)
        refine ⟨hcharged, ⟨n + 1, ?_⟩, ?_⟩
        · rw [htake, hsearched, List.append_assoc]
          rfl
        · rw [List.findSome?_cons, ← htables, hnewest]
          rw [hvalue] at hanswers
          exact hanswers
      · refine ⟨hcharged, ⟨1, by simpa using hsearched⟩, ?_⟩
        rw [List.findSome?_cons, ← htables, hnewest]
        exact hanswers

/-! ## The whole read -/

section Whole

variable (tables : Nat → Run K V) (mutableTable : Run K V) (immutableTable : Option (Run K V))
  (version : Levels K)

/-- The mutable table is newer than the immutable one, and both than the files. -/
structure SourcesByRecency : Prop where
  memory : ∀ run ∈ immutableTable, mutableTable.Newer run
  files : ∀ run ∈ mutableTable :: immutableTable.toList, ∀ level, ∀ f ∈ version.files level,
    run.Newer (tables f.number)
  version : version.Recency tables

def sourcesContents : Set (Entry K V) :=
  {entry | ∃ run ∈ mutableTable :: immutableTable.toList, entry ∈ run.contents} ∪
    version.contents tables

variable {tables mutableTable immutableTable version}

theorem isNewest_memory
    (hrecency : SourcesByRecency tables mutableTable immutableTable version) (user : K) (limit : Nat) :
    Newest.IsNewest Entry.sequence (Entry.Visible user limit)
      {entry | ∃ run ∈ mutableTable :: immutableTable.toList, entry ∈ run.contents}
      ((mutableTable :: immutableTable.toList).findSome? (·.newest user limit)) := by
  refine Newest.isNewest_findSome? Run.contents (·.newest user limit)
    (fun run _ => run.isNewest_newest user limit) (List.pairwise_cons.mpr ⟨?_, ?_⟩)
  · intro run hrun a ha
    have hnewest := mutableTable.isNewest_newest user limit
    rw [ha] at hnewest
    exact ((hrecency.memory run (by simpa using hrun)).above user limit).le_newest hnewest
  · cases immutableTable with
    | none => exact .nil
    | some run => exact List.pairwise_singleton _ _

variable {files : List (TableFile K)} {target : InternalKey K}

theorem levelCandidate_mem {file : TableFile K} (h : levelCandidate files target = some file) :
    file ∈ files := by
  obtain ⟨hhead, _⟩ := Option.filter_eq_some_iff.mp h
  exact (List.dropWhile_sublist _).subset (List.mem_of_mem_head? hhead)

theorem mem_of_mem_candidates {c : Candidate K} (h : c ∈ candidates version target) :
    c.file ∈ version.files c.level := by
  rcases List.mem_append.mp h with h | h
  · obtain ⟨file, hfile, rfl⟩ := List.mem_map.mp h
    exact (mem_levelZeroCandidates.mp hfile).1
  · obtain ⟨level, _, h⟩ := List.mem_filterMap.mp h
    obtain ⟨file, hfile, rfl⟩ := Option.map_eq_some_iff.mp h
    exact levelCandidate_mem hfile

/-- The file that `LevelCandidate` chooses holds the newest visible entry of its level. -/
theorem levelCandidate_newest (hsorted : files.Pairwise (fun f g => f.largest < g.smallest))
    (htables : ∀ f ∈ files, f.Covers (tables f.number)) {user : K} {limit : Nat}
    (hvisible : ∃ entry ∈ filesContents tables files, entry.Visible user limit) :
    ∃ file ∈ files, levelCandidate files (.lookupKey user limit) = some file ∧
      ∃ entry ∈ tables file.number, Newest.IsNewest Entry.sequence (Entry.Visible user limit)
        (filesContents tables files) (some entry) := by
  have hnewest := isNewest_levelNewest hsorted htables user limit
  unfold levelNewest at hnewest
  cases hcandidate : levelCandidate files (.lookupKey user limit) with
  | none =>
    rw [hcandidate] at hnewest
    obtain ⟨entry, hmem, hv⟩ := hvisible
    exact absurd hv (hnewest entry hmem)
  | some file =>
    rw [hcandidate, Option.bind_some] at hnewest
    have hown := (tables file.number).isNewest_newest user limit
    cases hentry : (tables file.number).newest user limit with
    | none =>
      rw [hentry] at hnewest
      obtain ⟨entry, hmem, hv⟩ := hvisible
      exact absurd hv (hnewest entry hmem)
    | some entry =>
      rw [hentry] at hnewest hown
      exact ⟨file, levelCandidate_mem hcandidate, rfl, entry, hown.1, hnewest⟩

variable (mutableTable immutableTable) in
theorem lookupValue_cases (tableCache : Nat → Result (Run K V)) (user : K) (limit : Nat) (value : V)
    (hcache : ∀ level, ∀ f ∈ version.files level, ∀ run, tableCache f.number = .ok run →
      run = tables f.number) :
    let out := lookupValue tableCache mutableTable immutableTable version user limit value
    let memory := (mutableTable :: immutableTable.toList).findSome? (·.newest user limit)
    out.seek = firstOfSeveral out.searched ∧
    out.searched <+: candidates version (.lookupKey user limit) ∧
    match out.result with
    | .error error => ∃ c ∈ out.searched, tableCache c.file.number = .error error
    | .ok found => Answers (memory.or (versionNewest tables version user limit)) value found
        out.value := by
  have hmemory := searchMemTables_spec user limit (mutableTable :: immutableTable.toList) value
  unfold lookupValue searchMemory
  rcases hsearch : searchMemTables user limit (mutableTable :: immutableTable.toList) value with
    ⟨_ | found, after⟩
  · rw [hsearch] at hmemory
    obtain ⟨hnone, rfl⟩ := hmemory
    have hfiles := forEachOverlapping_visit tableCache user limit
      (candidates version (.lookupKey user limit))
      (fun c hc => hcache c.level c.file (mem_of_mem_candidates hc))
      (show ({ value := after } : FileLookup K V).Charged from ⟨rfl, rfl⟩) rfl
    dsimp only at hfiles ⊢
    rcases hout : forEachOverlapping (FileLookup.visit tableCache user limit)
      (candidates version (.lookupKey user limit)) ({ value := after } : FileLookup K V) with
      ⟨error | _, lookup⟩
    · rw [hout] at hfiles
      dsimp only at hfiles ⊢
      obtain ⟨hcharged, ⟨n, htake⟩, herror⟩ := hfiles
      exact ⟨hcharged.seek, htake.symm ▸ List.take_prefix n _, herror⟩
    · rw [hout] at hfiles
      dsimp only at hfiles ⊢
      obtain ⟨hcharged, ⟨n, htake⟩, hanswers⟩ := hfiles
      refine ⟨hcharged.seek, htake.symm ▸ List.take_prefix n _, ?_⟩
      rw [hnone, Option.none_or]
      exact hanswers
  · rw [hsearch] at hmemory
    obtain ⟨entry, hsome, hanswers⟩ := hmemory
    refine ⟨rfl, List.nil_prefix, ?_⟩
    dsimp only
    rw [hsome, Option.some_or]
    exact hanswers

theorem isNewest_sources (hsorted : version.SortedBelow)
    (htables : ∀ level, ∀ f ∈ version.files level, f.Covers (tables f.number))
    (hrecency : SourcesByRecency tables mutableTable immutableTable version) (user : K) (limit : Nat) :
    Newest.IsNewest Entry.sequence (Entry.Visible user limit)
      (sourcesContents tables mutableTable immutableTable version)
      (((mutableTable :: immutableTable.toList).findSome? (·.newest user limit)).or
        (versionNewest tables version user limit)) := by
  have hmemory := isNewest_memory hrecency user limit
  have hversion := isNewest_versionNewest hsorted htables hrecency.version user limit
  revert hmemory
  cases (mutableTable :: immutableTable.toList).findSome? (·.newest user limit) with
  | none => exact fun hmemory => hmemory.union_of_none hversion
  | some entry =>
    refine fun hmemory => hmemory.union_of_some ?_
    rintro a ⟨run, hrun, ha⟩ b ⟨level, f, hf, hb⟩
    exact (hrecency.files run hrun level f hf).above user limit a ha b hb

variable (mutableTable immutableTable) in
/-- A point read of sorted levels needs one file of each, and `LookupValue` finds the newest visible
entry of all sources. Only a file it searched can make it fail. -/
theorem lookupValue_newest (tableCache : Nat → Result (Run K V)) (user : K) (limit : Nat) (value : V)
    (hsorted : version.SortedBelow)
    (htables : ∀ level, ∀ f ∈ version.files level, f.Covers (tables f.number))
    (hcache : ∀ level, ∀ f ∈ version.files level, ∀ run, tableCache f.number = .ok run →
      run = tables f.number) :
    (∀ level : Level, level ≠ 0 →
      (∃ entry ∈ filesContents tables (version.files level), entry.Visible user limit) →
      ∃ file ∈ version.files level,
        levelCandidate (version.files level) (.lookupKey user limit) = some file ∧
        ∃ entry ∈ tables file.number, Newest.IsNewest Entry.sequence (Entry.Visible user limit)
          (filesContents tables (version.files level)) (some entry)) ∧
    let out := lookupValue tableCache mutableTable immutableTable version user limit value
    out.seek = firstOfSeveral out.searched ∧
    out.searched <+: candidates version (.lookupKey user limit) ∧
    (SourcesByRecency tables mutableTable immutableTable version →
      match out.result with
      | .error error => ∃ c ∈ out.searched, tableCache c.file.number = .error error
      | .ok found => ∃ newest, Newest.IsNewest Entry.sequence (Entry.Visible user limit)
          (sourcesContents tables mutableTable immutableTable version) newest ∧
          Answers newest value found out.value) := by
  have hcases := lookupValue_cases mutableTable immutableTable tableCache user limit value hcache
  refine ⟨fun level hlevel => levelCandidate_newest (hsorted level hlevel) (htables level),
    hcases.1, hcases.2.1, fun hrecency => ?_⟩
  have hanswers := hcases.2.2
  revert hanswers
  cases (lookupValue tableCache mutableTable immutableTable version user limit value).result with
  | error error => exact id
  | ok found => exact fun hanswers => ⟨_, isNewest_sources hsorted htables hrecency user limit, hanswers⟩

end Whole

/-! A user key that goes on in the next file, below a level-0 file whose range holds it. -/

def splitRun : Nat → Run Nat Nat
  | 1 => ⟨[⟨⟨7, 5, .value⟩, 50⟩], List.pairwise_singleton _ _⟩
  | 2 => ⟨[⟨⟨7, 3, .value⟩, 30⟩], List.pairwise_singleton _ _⟩
  | 3 => ⟨[⟨⟨6, 8, .value⟩, 80⟩, ⟨⟨8, 9, .deletion⟩, 0⟩], by decide⟩
  | _ => .empty

def overlappingFile : TableFile Nat :=
  { number := 3, fileSize := 1, smallest := ⟨6, 8, .value⟩, largest := ⟨8, 9, .deletion⟩ }

def splitFiles : List (TableFile Nat) :=
  [{ number := 1, fileSize := 1, smallest := ⟨7, 5, .value⟩, largest := ⟨7, 5, .value⟩ },
    { number := 2, fileSize := 1, smallest := ⟨7, 3, .value⟩, largest := ⟨7, 3, .value⟩ }]

def splitVersion : Levels Nat :=
  ⟨fun level => if level = 0 then [overlappingFile] else if level = 1 then splitFiles else []⟩

theorem splitVersion_files {level : Level} {f : TableFile Nat} (hf : f ∈ splitVersion.files level) :
    (level = 0 ∧ f = overlappingFile) ∨ (level = 1 ∧ f ∈ splitFiles) := by
  unfold splitVersion at hf
  dsimp only at hf
  split at hf
  · next hlevel => exact .inl ⟨hlevel, List.mem_singleton.mp hf⟩
  · split at hf
    · next hlevel => exact .inr ⟨hlevel, hf⟩
    · cases hf

theorem splitVersion_covers : ∀ level, ∀ f ∈ splitVersion.files level, f.Covers (splitRun f.number) := by
  intro level f hf
  rcases splitVersion_files hf with ⟨_, rfl⟩ | ⟨_, hf⟩
  · refine ⟨?_, ?_, ⟨_, .head _, rfl⟩, ⟨_, .tail _ (.head _), rfl⟩⟩
    all_goals simp only [Run.mem_def]; decide
  · simp only [splitFiles, List.mem_cons, List.not_mem_nil, or_false] at hf
    rcases hf with rfl | rfl
    all_goals
      refine ⟨?_, ?_, ⟨_, .head _, rfl⟩, ⟨_, .head _, rfl⟩⟩
      all_goals simp only [Run.mem_def]; decide

theorem splitVersion_sorted : splitVersion.SortedBelow := by
  intro level hlevel
  unfold splitVersion
  dsimp only
  rw [if_neg hlevel]
  split
  · decide
  · exact .nil

theorem splitVersion_recency : SourcesByRecency splitRun .empty none splitVersion := by
  have hempty : ∀ run : Run Nat Nat, Run.Newer .empty run :=
    fun _ _ ha => absurd ha Run.not_mem_empty
  refine ⟨fun _ h => by simp at h, fun run hrun _ f _ => ?_, fun f hf g hg hlt => ?_,
    fun i j hij f hf g hg => ?_⟩
  · rw [List.mem_singleton.mp hrun]
    exact hempty _
  · rcases splitVersion_files hf with ⟨_, rfl⟩ | ⟨h, _⟩
    · rcases splitVersion_files hg with ⟨_, rfl⟩ | ⟨h, _⟩
      · exact absurd hlt (lt_irrefl _)
      · cases h
    · cases h
  · rcases splitVersion_files hf with ⟨rfl, rfl⟩ | ⟨rfl, _⟩
    · rcases splitVersion_files hg with ⟨rfl, _⟩ | ⟨_, hg⟩
      · exact absurd hij (lt_irrefl _)
      · simp only [splitFiles, List.mem_cons, List.not_mem_nil, or_false] at hg
        unfold Run.Newer
        simp only [Run.mem_def]
        rcases hg with rfl | rfl <;> decide
    · rcases splitVersion_files hg with ⟨rfl, _⟩ | ⟨rfl, _⟩
      · cases hij
      · exact absurd hij (lt_irrefl _)

theorem lookupValue_newest_split :
    let out := lookupValue (fun number => .ok (splitRun number)) .empty none splitVersion 7 4 0
    out.result = .ok true ∧ out.seek = some ⟨0, overlappingFile⟩ ∧
      ∃ newest, Newest.IsNewest Entry.sequence (Entry.Visible 7 4)
        (sourcesContents splitRun .empty none splitVersion) newest ∧
        Answers newest 0 true out.value := by
  have h := lookupValue_newest .empty none (fun number => .ok (splitRun number)) 7 4 0
    splitVersion_sorted splitVersion_covers
    (fun _ _ _ run hrun => (Except.ok.inj hrun).symm)
  exact ⟨rfl, rfl, h.2.2.2 splitVersion_recency⟩

end ModernLevelDB
