import ModernLevelDB.Engine.RunCompaction

/-! # The outputs of a compaction (`Outputs`, `GrandparentOverlap`)

Outputs are cut when they reach the target size, and before an entry whose predecessors have passed too
many bytes of grandparents. Wherever the cuts fall, the outputs are the kept entries in order. The bytes
passed while an output is open are counted in `overlapped`, which also counts those passed before it was
opened, so that an output that was not cut has passed no more than the limit. -/
namespace ModernLevelDB
set_option autoImplicit false

variable {K V : Type*} [LinearOrder K]

/-! ## The run over any input -/

def keptEntries (c : Compaction K) (smallestSnapshot : Nat) :
    VisibleHistory K → BaseLevel K → List (Entry K V) → List (Entry K V)
  | _, _, [] => []
  | history, base, entry :: rest =>
      let (drop, history, base) := history.shouldDrop base (BaseLevel.levelsBelow c.level)
        smallestSnapshot entry.key
      if drop then keptEntries c smallestSnapshot history base rest
      else entry :: keptEntries c smallestSnapshot history base rest

theorem keptEntries_sublist (c : Compaction K) (smallestSnapshot : Nat) (history : VisibleHistory K)
    (base : BaseLevel K) (input : List (Entry K V)) :
    (keptEntries c smallestSnapshot history base input).Sublist input := by
  induction input generalizing history base with
  | nil => exact .slnil
  | cons entry rest ih =>
    unfold keptEntries
    dsimp only
    split
    · exact (ih _ _).cons _
    · exact (ih _ _).cons_cons _

/-! ## The bytes of grandparents -/

def fileBytes (files : List (TableFile K)) : Nat := (files.map (·.fileSize)).sum

/-- The grandparents that a table with these first and last keys passes. -/
def passedBetween (files : List (TableFile K)) (first last : InternalKey K) : List (TableFile K) :=
  files.filter (fun file => first ≤ file.largest ∧ file.largest < last)

omit [LinearOrder K] in
theorem fileBytes_cons (file : TableFile K) (files : List (TableFile K)) :
    fileBytes (file :: files) = file.fileSize + fileBytes files := by
  simp [fileBytes]

omit [LinearOrder K] in
theorem fileBytes_filter_split (files : List (TableFile K)) (p : TableFile K → Bool) :
    fileBytes files = fileBytes (files.filter p) + fileBytes (files.filter (fun file => !p file)) := by
  induction files with
  | nil => rfl
  | cons file files ih =>
    cases hp : p file
    · simp only [List.filter_cons, hp, fileBytes_cons, Bool.false_eq_true, if_false, Bool.not_false,
        if_true]
      omega
    · simp only [List.filter_cons, hp, fileBytes_cons, Bool.false_eq_true, if_false, Bool.not_true,
        if_true]
      omega

theorem fileBytes_passedBetween {first middle last : InternalKey K} (hfirst : first ≤ middle)
    (hlast : middle ≤ last) (files : List (TableFile K)) :
    fileBytes (passedBetween files first last) = fileBytes (passedBetween files first middle) +
      fileBytes (passedBetween files middle last) := by
  unfold passedBetween
  induction files with
  | nil => rfl
  | cons file files ih =>
    by_cases hmiddle : file.largest < middle
    · have hnot : ¬ middle ≤ file.largest := not_le.mpr hmiddle
      have hlt := hmiddle.trans_le hlast
      by_cases hle : first ≤ file.largest
      · simp only [List.filter_cons, hle, hlt, hmiddle, hnot, fileBytes_cons, decide_true, and_self,
          false_and, decide_false, if_true, Bool.false_eq_true, if_false]
        omega
      · simp only [List.filter_cons, hle, hnot, false_and, decide_false, Bool.false_eq_true, if_false]
        exact ih
    · have hge : middle ≤ file.largest := not_lt.mp hmiddle
      have hle := hfirst.trans hge
      by_cases hlt : file.largest < last
      · simp only [List.filter_cons, hle, hlt, hmiddle, hge, fileBytes_cons, decide_true, and_self,
          and_false, decide_false, if_true, Bool.false_eq_true, if_false]
        omega
      · simp only [List.filter_cons, hlt, hmiddle, and_false, decide_false, Bool.false_eq_true, if_false]
        exact ih

theorem GrandparentOverlap.passed_spec (key : InternalKey K) (seenKey : Bool)
    {files : List (TableFile K)} (hsorted : files.Pairwise (fun f g => f.largest ≤ g.largest))
    {overlapped : Nat} (hfits : overlapped + fileBytes files < 2 ^ 64) :
    passed key seenKey files overlapped =
      (files.filter (fun file => key ≤ file.largest), overlapped +
        if seenKey then fileBytes (files.filter (fun file => file.largest < key)) else 0) := by
  induction files generalizing overlapped with
  | nil => cases seenKey <;> rfl
  | cons file files ih =>
    rw [fileBytes_cons] at hfits
    unfold passed
    by_cases hlt : file.largest < key
    · rw [if_pos hlt, List.filter_cons_of_neg (by simpa using hlt),
        List.filter_cons_of_pos (by simpa using hlt), fileBytes_cons]
      cases seenKey with
      | false => exact ih hsorted.of_cons (by simp; omega)
      | true =>
        have hsmall : overlapped + file.fileSize < 2 ^ 64 := by omega
        rw [if_pos rfl, wrap64, Nat.mod_eq_of_lt hsmall, ih hsorted.of_cons (by omega), if_pos rfl,
          if_pos rfl, Nat.add_assoc]
    · have hkeep : ∀ g ∈ file :: files, key ≤ g.largest := by
        intro g hg
        rcases List.mem_cons.mp hg with rfl | hg
        · exact not_lt.mp hlt
        · exact (not_lt.mp hlt).trans (List.rel_of_pairwise_cons hsorted hg)
      rw [if_neg hlt, List.filter_eq_self.mpr (by simpa using hkeep),
        List.filter_eq_nil_iff.mpr (by simpa using hkeep)]
      simp [fileBytes]

/-! ## What the loop keeps -/

/-- The recorded range is that of the first and the last entry. -/
def Output.Recorded (output : Output K V) : Prop :=
  output.run.entries.head?.map (·.key) = some output.file.smallest ∧
    output.run.entries.getLast?.map (·.key) = some output.file.largest

namespace CompactionRun

/-- After the entries up to `last`, with `count` entries to come. An open output has passed no more than
`overlapped` since its first entry. -/
structure Cut (limit : Nat) (numbers : Nat → Nat) (c : Compaction K) (smallestSnapshot : Nat)
    (input : List (Entry K V)) (count : Nat) (last : Option (InternalKey K)) (run : CompactionRun K V) :
    Prop where
  compaction : run.compaction = c
  snapshot : run.smallestSnapshot = smallestSnapshot
  output : run.OpenHasEntries
  kept : run.kept ++ keptEntries c smallestSnapshot run.history run.baseLevel run.remaining =
    keptEntries c smallestSnapshot {} ⟨c.version.files⟩ input
  recorded : ∀ o ∈ run.finished, o.Recorded
  numbered : ∃ calls : List Nat, calls.Nodup ∧ (∀ n ∈ calls, count ≤ n) ∧
    run.finished.map (·.file.number) ++ run.number.toList = calls.map numbers
  first : last = none → run.grandparents = { next := c.grandparents }
  next : ∀ key, last = some key → run.grandparents.seenKey = true ∧
    run.grandparents.next = c.grandparents.filter (fun file => key ≤ file.largest)
  fits : run.grandparents.overlapped + fileBytes run.grandparents.next < 2 ^ 64
  entries : ∀ e ∈ run.entries, ∃ key, last = some key ∧ e.key ≤ key
  passed : ∀ e ∈ run.entries.head?, ∀ key, last = some key →
    fileBytes (passedBetween c.grandparents e.key key) ≤ run.grandparents.overlapped ∧
      run.grandparents.overlapped ≤ limit
  bounded : ∀ o ∈ run.finished,
    fileBytes (passedBetween c.grandparents o.file.smallest o.file.largest) ≤ limit

variable {options : CompactionOptions K V} {limit : Nat} {numbers : Nat → Nat} {c : Compaction K}
  {smallestSnapshot : Nat} {input : List (Entry K V)} {count : Nat} {last : Option (InternalKey K)}
  {run : CompactionRun K V}

theorem finishOutput_eq (options : CompactionOptions K V) (houtput : run.OpenHasEntries) {number : Nat}
    (hnumber : run.number = some number) : ∃ file first final,
      run.finishOutput options = run.finish file ∧ file.number = number ∧
      run.entries.head? = some first ∧ run.entries.getLast? = some final ∧
      file.smallest = first.key ∧ file.largest = final.key := by
  have hentries : run.entries ≠ [] := by
    intro hnil
    have hnone := houtput.mpr hnil
    rw [hnumber] at hnone
    cases hnone
  obtain ⟨first, hfirst⟩ := Option.ne_none_iff_exists'.mp (mt List.head?_eq_none_iff.mp hentries)
  obtain ⟨final, hfinal⟩ := Option.ne_none_iff_exists'.mp (mt List.getLast?_eq_none_iff.mp hentries)
  refine ⟨{ number, fileSize := options.tableSize run.openTable, smallest := first.key
            largest := final.key }, first, final, ?_, rfl, hfirst, hfinal, rfl, rfl⟩
  unfold finishOutput tableMetadata
  rw [hnumber]
  simp only [Option.bind_some, openTable, hfirst, hfinal]

theorem Cut.finishOutput (options : CompactionOptions K V)
    (h : run.Cut limit numbers c smallestSnapshot input count last) (hopen : run.number.isSome) :
    (run.finishOutput options).Cut limit numbers c smallestSnapshot input count last := by
  obtain ⟨number, hnumber⟩ := Option.isSome_iff_exists.mp hopen
  obtain ⟨file, first, final, heq, hfile, hfirst, hfinal, hsmallest, hlargest⟩ :=
    finishOutput_eq options h.output hnumber
  rw [heq]
  have hkept : (run.finish file).kept = run.kept := by
    simp [CompactionRun.kept, CompactionRun.finish, openTable]
  refine { h with output := ?_, kept := ?_, recorded := ?_, numbered := ?_, entries := ?_, passed := ?_
                  bounded := ?_ }
  · simp [OpenHasEntries, CompactionRun.finish]
  · rw [hkept]
    exact h.kept
  · refine List.forall_mem_append.mpr ⟨h.recorded, List.forall_mem_singleton.mpr ?_⟩
    exact ⟨by rw [hsmallest]; exact congrArg (Option.map _) hfirst,
      by rw [hlargest]; exact congrArg (Option.map _) hfinal⟩
  · obtain ⟨calls, hnodup, hcount, hcalls⟩ := h.numbered
    refine ⟨calls, hnodup, hcount, ?_⟩
    rw [← hcalls, hnumber]
    simp [CompactionRun.finish, hfile]
  · simp [CompactionRun.finish]
  · simp [CompactionRun.finish]
  · intro o ho
    rcases List.mem_append.mp ho with ho | ho
    · exact h.bounded o ho
    · rw [List.mem_singleton.mp ho]
      show fileBytes (passedBetween c.grandparents file.smallest file.largest) ≤ limit
      rw [hsmallest, hlargest]
      -- The last entry of the output is not after the last entry seen.
      obtain ⟨key, hkey, hle⟩ := h.entries final (List.mem_of_getLast? hfinal)
      obtain ⟨hpassed, hlimit⟩ := h.passed first hfirst key hkey
      have hsorted := run.openTable.sorted
      have hends : first.key ≤ final.key := by
        obtain ⟨rest, hrest⟩ := List.head?_eq_some_iff.mp hfirst
        have hmem : final ∈ first :: rest := hrest ▸ List.mem_of_getLast? hfinal
        rw [show run.openTable.entries = first :: rest from hrest] at hsorted
        rcases List.mem_cons.mp hmem with heq | hmem
        · rw [heq]
        · exact List.rel_of_pairwise_cons hsorted hmem
      have hsplit := fileBytes_passedBetween hends hle c.grandparents
      omega

variable {entry : Entry K V} {rest : List (Entry K V)}

theorem Cut.passed_eq (h : run.Cut limit numbers c smallestSnapshot input count last)
    (hgrandparents : c.grandparents.Pairwise (fun f g => f.largest ≤ g.largest)) {key : InternalKey K}
    (hkey : ∀ k, last = some k → k < key) : ∃ overlapped,
      GrandparentOverlap.passed key run.grandparents.seenKey run.grandparents.next
        run.grandparents.overlapped = (c.grandparents.filter (fun file => key ≤ file.largest), overlapped) ∧
      overlapped + fileBytes (c.grandparents.filter (fun file => key ≤ file.largest)) < 2 ^ 64 ∧
      run.grandparents.overlapped ≤ overlapped ∧
      ∀ e ∈ run.entries.head?, fileBytes (passedBetween c.grandparents e.key key) ≤ overlapped := by
  cases hlast : last with
  | none =>
    have hfirst := h.first hlast
    have hfits := h.fits
    rw [hfirst] at hfits ⊢
    refine ⟨0, GrandparentOverlap.passed_spec key false hgrandparents hfits, ?_, Nat.le_refl _, ?_⟩
    · have hsplit := fileBytes_filter_split c.grandparents (fun file => decide (key ≤ file.largest))
      simp only at hfits
      omega
    · intro e he
      obtain ⟨k, hk, _⟩ := h.entries e (List.mem_of_head? he)
      rw [hlast] at hk
      cases hk
  | some k =>
    obtain ⟨hseen, hnext⟩ := h.next k hlast
    have hfits := h.fits
    have hlt := hkey k hlast
    have hsorted := hgrandparents.filter (fun file => decide (k ≤ file.largest))
    have hspec := GrandparentOverlap.passed_spec key true hsorted (hnext ▸ hfits)
    have hkeep : (c.grandparents.filter (fun file => decide (k ≤ file.largest))).filter
        (fun file => decide (key ≤ file.largest)) =
        c.grandparents.filter (fun file => decide (key ≤ file.largest)) := by
      rw [List.filter_filter]
      refine List.filter_congr (fun file _ => ?_)
      have himp : key ≤ file.largest → k ≤ file.largest := fun hle => hlt.le.trans hle
      by_cases hle : key ≤ file.largest <;> simp [hle, himp]
    have hpast : (c.grandparents.filter (fun file => decide (k ≤ file.largest))).filter
        (fun file => decide (file.largest < key)) = passedBetween c.grandparents k key := by
      rw [List.filter_filter]
      unfold passedBetween
      refine List.filter_congr (fun file _ => ?_)
      rw [Bool.and_comm, Bool.decide_and]
    rw [hkeep, hpast, if_pos rfl] at hspec
    have hsplit := fileBytes_filter_split run.grandparents.next (fun file => decide (key ≤ file.largest))
    have hnot : run.grandparents.next.filter (fun file => !decide (key ≤ file.largest)) =
        passedBetween c.grandparents k key := by
      rw [hnext, ← hpast]
      refine List.filter_congr (fun file _ => ?_)
      rw [← decide_not, decide_eq_decide]
      exact not_le
    rw [hnot, hnext, hkeep] at hsplit
    refine ⟨_, by rw [hseen, hnext]; exact hspec, ?_, Nat.le_add_right _ _, fun e he => ?_⟩
    · rw [hnext] at hfits
      omega
    · have hle := h.entries e (List.mem_of_head? he)
      obtain ⟨k', hk', hle⟩ := hle
      rw [hlast] at hk'
      cases hk'
      have hbetween := fileBytes_passedBetween hle hlt.le c.grandparents
      have hpassed := (h.passed e he k hlast).1
      omega

theorem Cut.setGrandparents (h : run.Cut limit numbers c smallestSnapshot input count last)
    {key : InternalKey K} (hkey : ∀ k, last = some k → k < key) {overlapped : Nat}
    (hfits : overlapped + fileBytes (c.grandparents.filter (fun file => key ≤ file.largest)) < 2 ^ 64)
    (hpassed : ∀ e ∈ run.entries.head?, fileBytes (passedBetween c.grandparents e.key key) ≤ overlapped ∧
      overlapped ≤ limit) :
    ({ run with grandparents := ⟨c.grandparents.filter (fun file => key ≤ file.largest), true, overlapped⟩ } :
      CompactionRun K V).Cut limit numbers c smallestSnapshot input count (some key) := by
  refine { h with first := by simp, next := ?_, fits := hfits, entries := ?_, passed := ?_ }
  · rintro k hk
    cases hk
    exact ⟨rfl, rfl⟩
  · intro e he
    obtain ⟨k, hk, hle⟩ := h.entries e he
    exact ⟨key, rfl, hle.trans (hkey k hk).le⟩
  · intro e he k hk
    cases hk
    exact hpassed e he

theorem finishOutput_setGrandparents (run : CompactionRun K V) (grandparents : GrandparentOverlap K) :
    ({ run with grandparents } : CompactionRun K V).finishOutput options =
      { run.finishOutput options with grandparents } := by
  unfold CompactionRun.finishOutput
  rw [show ({ run with grandparents } : CompactionRun K V).openTable = run.openTable from rfl]
  cases run.number.bind (fun number => tableMetadata options.tableSize number run.openTable) <;> rfl

theorem Cut.stopped (hlimit : limit = wrap64 (grandparentOverlapFactor * options.targetFileSize))
    (h : run.Cut limit numbers c smallestSnapshot input count last)
    (hgrandparents : c.grandparents.Pairwise (fun f g => f.largest ≤ g.largest))
    (hkey : ∀ k, last = some k → k < entry.key) :
    (run.stopped options entry).Cut limit numbers c smallestSnapshot input count (some entry.key) ∧
      (run.stopped options entry).grandparents.overlapped ≤ limit ∧
      (run.stopped options entry).remaining = run.remaining := by
  obtain ⟨overlapped, hpassed, hfits, _, hopen⟩ := h.passed_eq hgrandparents hkey
  unfold CompactionRun.stopped CompactionRun.stopBefore GrandparentOverlap.shouldStopBefore
  dsimp only
  rw [hpassed, ← hlimit]
  dsimp only
  by_cases hstop : limit < overlapped
  · rw [if_pos hstop]
    dsimp only
    rw [Bool.true_and]
    by_cases hsome : run.number.isSome
    · rw [if_pos hsome, finishOutput_setGrandparents]
      obtain ⟨number, hnumber⟩ := Option.isSome_iff_exists.mp hsome
      obtain ⟨file, _, _, heq, _⟩ := finishOutput_eq options h.output hnumber
      have hfinished := h.finishOutput options hsome
      refine ⟨hfinished.setGrandparents hkey (by omega) ?_, Nat.zero_le _, ?_⟩
      · rw [heq]
        simp [CompactionRun.finish]
      · rw [heq]
        rfl
    · rw [if_neg hsome]
      have hnil := h.output.mp (by simpa using hsome)
      refine ⟨h.setGrandparents hkey (by omega) ?_, Nat.zero_le _, rfl⟩
      simp [hnil]
  · rw [if_neg hstop]
    dsimp only
    rw [Bool.false_and, if_neg (by simp)]
    have hle := not_lt.mp hstop
    exact ⟨h.setGrandparents hkey hfits (fun e he => ⟨hopen e he, hle⟩), hle, rfl⟩

theorem keptEntries_judge (run : CompactionRun K V) (entry : Entry K V) (rest : List (Entry K V)) :
    keptEntries run.compaction run.smallestSnapshot run.history run.baseLevel (entry :: rest) =
      (if (run.judge entry).1 then [] else [entry]) ++ keptEntries run.compaction run.smallestSnapshot
        (run.judge entry).2.history (run.judge entry).2.baseLevel rest := by
  show (if (run.judge entry).1 = true then keptEntries run.compaction run.smallestSnapshot
      (run.judge entry).2.history (run.judge entry).2.baseLevel rest
    else entry :: keptEntries run.compaction run.smallestSnapshot (run.judge entry).2.history
      (run.judge entry).2.baseLevel rest) = _
  cases (run.judge entry).1 <;> rfl

theorem Cut.skip (h : run.Cut limit numbers c smallestSnapshot input count last)
    (hremaining : run.remaining = entry :: rest) (hdrop : (run.judge entry).1 = true) :
    (run.judge entry).2.skip.Cut limit numbers c smallestSnapshot input count last := by
  obtain rfl := h.compaction
  obtain rfl := h.snapshot
  refine { h with kept := ?_ }
  have hkept := h.kept
  rw [hremaining, keptEntries_judge, hdrop, if_pos rfl, List.nil_append] at hkept
  rw [← hkept]
  show _ ++ keptEntries _ _ _ _ run.remaining.tail = _
  rw [hremaining]
  rfl

theorem append_grandparents (run : CompactionRun K V) : run.append.grandparents = run.grandparents := by
  unfold CompactionRun.append
  split <;> rfl

theorem Cut.append (h : run.Cut limit numbers c smallestSnapshot input (count + 1) last)
    (hremaining : run.remaining = entry :: rest) (hlast : last = some entry.key)
    (hoverlapped : run.grandparents.overlapped ≤ limit) (hkeep : (run.judge entry).1 = false)
    {number : Nat} (hnumber : run.number = some number ∨ run.number = none ∧ number = numbers count) :
    ({ (run.judge entry).2.append with number := some number } : CompactionRun K V).Cut limit numbers c
      smallestSnapshot input count last := by
  obtain rfl := h.compaction
  obtain rfl := h.snapshot
  obtain ⟨hrest, hentries, hfinished, hcompaction, hsnapshot, hhistory, hlevels, _⟩ :=
    @append_eq K V _ (run.judge entry).2 entry rest hremaining
  have hgrandparents : (run.judge entry).2.append.grandparents = run.grandparents :=
    append_grandparents _
  constructor
  · exact hcompaction
  · exact hsnapshot
  · show some number = none ↔ (run.judge entry).2.append.entries = []
    rw [hentries]
    simp
  · have hkept := h.kept
    rw [hremaining, keptEntries_judge, hkeep, if_neg (by simp), ← List.append_assoc] at hkept
    rw [← hkept]
    show (_ ++ (run.judge entry).2.append.entries) ++ keptEntries _ _ (run.judge entry).2.append.history
      (run.judge entry).2.append.baseLevel (run.judge entry).2.append.remaining = _
    show ((run.judge entry).2.append.finished.flatMap (·.run.entries) ++ _) ++ _ = _
    rw [hfinished, hentries, hhistory, hlevels, hrest, ← List.append_assoc]
    rfl
  · show ∀ o ∈ (run.judge entry).2.append.finished, _
    rw [hfinished]
    exact h.recorded
  · obtain ⟨calls, hnodup, hcount, hcalls⟩ := h.numbered
    show ∃ calls : List Nat, _ ∧ _ ∧ (run.judge entry).2.append.finished.map (·.file.number) ++ [number] = _
    rw [hfinished]
    rcases hnumber with hsome | ⟨hnone, rfl⟩
    · refine ⟨calls, hnodup, fun n hn => (Nat.le_succ _).trans (hcount n hn), ?_⟩
      rw [← hcalls, hsome]
      rfl
    · refine ⟨calls ++ [count], ?_, ?_, ?_⟩
      · refine List.nodup_append.mpr ⟨hnodup, List.nodup_singleton _, fun n hn m hm heq => ?_⟩
        have hle := hcount n hn
        rw [heq, List.mem_singleton.mp hm] at hle
        omega
      · exact List.forall_mem_append.mpr ⟨fun n hn => (Nat.le_succ _).trans (hcount n hn),
          List.forall_mem_singleton.mpr le_rfl⟩
      · rw [List.map_append, ← hcalls, hnone]
        simp
        rfl
  · intro hnone
    rw [hlast] at hnone
    cases hnone
  · show ∀ key, last = some key → (run.judge entry).2.append.grandparents.seenKey = true ∧ _
    rw [hgrandparents]
    exact h.next
  · show (run.judge entry).2.append.grandparents.overlapped + _ < _
    rw [hgrandparents]
    exact h.fits
  · show ∀ e ∈ (run.judge entry).2.append.entries, _
    rw [hentries]
    exact List.forall_mem_append.mpr
      ⟨h.entries, List.forall_mem_singleton.mpr ⟨entry.key, hlast, le_refl _⟩⟩
  · show ∀ e ∈ (run.judge entry).2.append.entries.head?, ∀ key, last = some key →
      _ ≤ (run.judge entry).2.append.grandparents.overlapped ∧ _
    rw [hentries, hgrandparents]
    intro e he key hkey
    cases hopen : run.entries with
    | nil =>
      have hentry : e = entry := by
        rw [show (run.judge entry).2.entries = [] from hopen] at he
        simpa using he.symm
      rw [hlast] at hkey
      cases hkey
      rw [hentry]
      refine ⟨?_, hoverlapped⟩
      have hnone : passedBetween run.compaction.grandparents entry.key entry.key = [] :=
        List.filter_eq_nil_iff.mpr (by simp)
      rw [hnone]
      exact Nat.zero_le _
    | cons first others =>
      rw [show (run.judge entry).2.entries = first :: others from hopen] at he
      exact h.passed e (by rw [hopen]; exact he) key hkey
  · show ∀ o ∈ (run.judge entry).2.append.finished, _
    rw [hfinished]
    exact h.bounded

theorem Cut.weaken (h : run.Cut limit numbers c smallestSnapshot input (count + 1) last) :
    run.Cut limit numbers c smallestSnapshot input count last := by
  obtain ⟨calls, hnodup, hcount, hcalls⟩ := h.numbered
  exact { h with numbered := ⟨calls, hnodup, fun n hn => (Nat.le_succ _).trans (hcount n hn), hcalls⟩ }

theorem Cut.processEntry
    (hlimit : limit = wrap64 (grandparentOverlapFactor * options.targetFileSize))
    (h : run.Cut limit numbers c smallestSnapshot input (count + 1) last)
    (hgrandparents : c.grandparents.Pairwise (fun f g => f.largest ≤ g.largest))
    (hremaining : run.remaining = entry :: rest) (hkey : ∀ k, last = some k → k < entry.key) :
    (run.processEntry options (numbers count)).Cut limit numbers c smallestSnapshot input count
        (some entry.key) ∧ (run.processEntry options (numbers count)).remaining = rest := by
  obtain ⟨hstopped, hoverlapped, hrem⟩ := h.stopped hlimit hgrandparents hkey
  rw [processEntry_eq options hremaining]
  generalize run.stopped options entry = before at hstopped hoverlapped hrem
  rw [hremaining] at hrem
  by_cases hdrop : (before.judge entry).1 = true
  · rw [if_pos hdrop]
    refine ⟨(hstopped.skip hrem hdrop).weaken, ?_⟩
    show before.remaining.tail = rest
    rw [hrem]
    rfl
  · rw [if_neg hdrop]
    have hnumber : before.number = some (before.number.getD (numbers count)) ∨
        before.number = none ∧ before.number.getD (numbers count) = numbers count := by
      cases before.number <;> simp
    have happend := hstopped.append hrem rfl hoverlapped (by simpa using hdrop) hnumber
    have hrest : (before.judge entry).2.append.remaining = rest :=
      (@append_eq K V _ (before.judge entry).2 entry rest hrem).1
    unfold CompactionRun.addEntry
    dsimp only
    rw [append_opened]
    split
    · refine ⟨happend.finishOutput options rfl, ?_⟩
      obtain ⟨file, _, _, heq, _⟩ := finishOutput_eq options happend.output rfl
      exact (congrArg CompactionRun.remaining heq).trans hrest
    · exact ⟨happend, hrest⟩

theorem Cut.runEntries (hlimit : limit = wrap64 (grandparentOverlapFactor * options.targetFileSize))
    (hgrandparents : c.grandparents.Pairwise (fun f g => f.largest ≤ g.largest)) (count : Nat)
    (h : run.Cut limit numbers c smallestSnapshot input count last)
    (hlength : run.remaining.length = count)
    (hstrict : run.remaining.Pairwise (fun a b => a.key < b.key))
    (hafter : ∀ k, last = some k → ∀ e ∈ run.remaining, k < e.key) :
    ∃ last', (run.runEntries options numbers count).Cut limit numbers c smallestSnapshot input 0 last' ∧
      (run.runEntries options numbers count).remaining = [] := by
  induction count generalizing run last with
  | zero => exact ⟨last, h, List.length_eq_zero_iff.mp hlength⟩
  | succ count ih =>
    cases hremaining : run.remaining with
    | nil =>
      rw [hremaining] at hlength
      cases hlength
    | cons entry rest =>
      rw [hremaining] at hlength hstrict hafter
      obtain ⟨hnext, hrest⟩ := h.processEntry hlimit hgrandparents hremaining
        (fun k hk => hafter k hk entry List.mem_cons_self)
      refine ih hnext ?_ ?_ ?_
      · rw [hrest]
        simpa using hlength
      · rw [hrest]
        exact hstrict.of_cons
      · rintro k hk e he
        cases hk
        rw [hrest] at he
        exact List.rel_of_pairwise_cons hstrict he

theorem cut_over (numbers : Nat → Nat) (c : Compaction K) (smallestSnapshot : Nat) (input : Run K V)
    (limit count : Nat) (hsizes : fileBytes c.grandparents < 2 ^ 64) :
    (start input c smallestSnapshot).Cut limit numbers c smallestSnapshot input.entries count none where
  compaction := rfl
  snapshot := rfl
  output := ⟨fun _ => rfl, fun _ => rfl⟩
  kept := rfl
  recorded := by simp [start]
  numbered := ⟨[], List.nodup_nil, by simp, rfl⟩
  first _ := rfl
  next := by simp
  fits := by simpa [start] using hsizes
  entries := by simp [start]
  passed := by simp [start]
  bounded := by simp [start]

theorem cut_complete (options : CompactionOptions K V) (numbers : Nat → Nat) (c : Compaction K)
    (smallestSnapshot : Nat) (input : Run K V)
    (hinput : input.entries.Pairwise (fun a b => a.key < b.key))
    (hgrandparents : c.grandparents.Pairwise (fun f g => f.largest ≤ g.largest))
    (hsizes : fileBytes c.grandparents < 2 ^ 64) : ∃ last,
      ((start input c smallestSnapshot).complete options numbers).Cut
        (wrap64 (grandparentOverlapFactor * options.targetFileSize)) numbers c smallestSnapshot
        input.entries 0 last ∧
      ((start input c smallestSnapshot).complete options numbers).remaining = [] ∧
      ((start input c smallestSnapshot).complete options numbers).number = none := by
  obtain ⟨last, hcut, hrest⟩ := (cut_over numbers c smallestSnapshot input
    (wrap64 (grandparentOverlapFactor * options.targetFileSize)) input.entries.length hsizes).runEntries
    rfl hgrandparents input.entries.length rfl hinput (by simp)
  refine ⟨last, ?_⟩
  unfold complete
  dsimp only
  split
  · next hopen =>
    obtain ⟨number, hnumber⟩ := Option.isSome_iff_exists.mp hopen
    obtain ⟨file, _, _, heq, _⟩ := finishOutput_eq options hcut.output hnumber
    refine ⟨hcut.finishOutput options hopen, (congrArg CompactionRun.remaining heq).trans hrest, ?_⟩
    exact congrArg CompactionRun.number heq
  · next hopen => exact ⟨hcut, hrest, by simpa using hopen⟩

end CompactionRun

/-! ## The edit -/

omit [LinearOrder K] in
theorem compactPointers_replaceEdit (c : Compaction K) (outputs : List (TableFile K)) :
    (replaceEdit c outputs).compactPointers = [(c.level.level, c.compactPointer)] := by
  have hremove : ∀ (level : Level) (files : List (TableFile K)) (edit : VersionEdit (InternalKey K)),
      (removeFiles level files edit).compactPointers = edit.compactPointers := by
    intro level files
    induction files with
    | nil => exact fun _ => rfl
    | cons file files ih =>
      intro edit
      refine (ih _).trans ?_
      unfold VersionEdit.removeFile
      dsimp only
      split <;> rfl
  have hadd : ∀ (files : List (TableFile K)) (edit : VersionEdit (InternalKey K)),
      (addFiles c.level.next files edit).compactPointers = edit.compactPointers := by
    intro files
    induction files with
    | nil => exact fun _ => rfl
    | cons file files ih =>
      intro edit
      refine (ih _).trans ?_
      unfold VersionEdit.addFile
      dsimp only
      split <;> rfl
  refine (hadd outputs _).trans ?_
  exact (hremove c.level.next c.nextInputs _).trans (hremove c.level.level c.inputs _)

theorem CompactionRun.edit_eq (run : CompactionRun K V) :
    run.edit = replaceEdit run.compaction (run.finished.map (·.file)) := by
  unfold CompactionRun.edit replaceEdit addFiles
  rw [List.foldl_map]

/-! ## The outputs -/

theorem Output.Recorded.mem {output : Output K V} (h : output.Recorded) :
    (∃ e ∈ output.run.entries, e.key = output.file.smallest) ∧
      ∃ e ∈ output.run.entries, e.key = output.file.largest := by
  obtain ⟨first, hfirst, hsmallest⟩ := Option.map_eq_some_iff.mp h.1
  obtain ⟨final, hfinal, hlargest⟩ := Option.map_eq_some_iff.mp h.2
  exact ⟨⟨first, List.mem_of_head? hfirst, hsmallest⟩, final, List.mem_of_getLast? hfinal, hlargest⟩

/-- The outputs are the kept entries, cut into tables that no grandparent range makes too wide, and the
edit puts them in the place of the inputs. The sizes of the grandparents are summed in 64 bits. -/
theorem compactInput_outputs (options : CompactionOptions K V) (numbers : Nat → Nat)
    (c : Compaction K) (smallestSnapshot : Nat) (input : Run K V)
    (hinput : input.entries.Pairwise (fun a b => a.key < b.key))
    (hgrandparents : c.grandparents.Pairwise (fun f g => f.largest ≤ g.largest))
    (hsizes : fileBytes c.grandparents < 2 ^ 64)
    (hnumbers : numbers.Injective ∧ ∀ n, numbers n ≠ 0)
    (hfiles : ∀ f, f ∈ c.inputs ∨ f ∈ c.nextInputs → f.number ≠ 0) :
    let (outputs, edit) := CompactionRun.compactInput options numbers c smallestSnapshot input
    (∀ o ∈ outputs, o.run.entries ≠ []) ∧
    outputs.flatMap (·.run.entries) =
      keptEntries c smallestSnapshot {} ⟨c.version.files⟩ input.entries ∧
    outputs.Pairwise (fun o o' => o.file.largest < o'.file.smallest) ∧
    (∀ o ∈ outputs, o.Recorded) ∧
    (outputs.map (·.file.number)).Nodup ∧ (∀ o ∈ outputs, ∃ n, o.file.number = numbers n) ∧
    edit.newFiles = outputs.map (fun o => (c.level.next, o.file)) ∧
    (∀ level number, DeletedFile.mk level number ∈ edit.deletedFiles ↔
      ∃ f, c.IsInput level f ∧ f.number = number) ∧
    edit.compactPointers = [(c.level.level, c.compactPointer)] ∧
    ∀ o ∈ outputs, fileBytes (passedBetween c.grandparents o.file.smallest o.file.largest) ≤
      grandparentOverlapFactor * options.targetFileSize := by
  obtain ⟨last, hcut, hrest, hnumber⟩ := CompactionRun.cut_complete options numbers c smallestSnapshot
    input hinput hgrandparents hsizes
  unfold CompactionRun.compactInput
  dsimp only
  generalize (CompactionRun.start input c smallestSnapshot).complete options numbers = run at *
  have hkept : run.finished.flatMap (·.run.entries) =
      keptEntries c smallestSnapshot {} ⟨c.version.files⟩ input.entries := by
    have hkept := hcut.kept
    rw [hrest] at hkept
    unfold CompactionRun.kept at hkept
    rw [hcut.output.mp hnumber] at hkept
    simpa [keptEntries] using hkept
  have hstrict : (run.finished.flatMap (·.run.entries)).Pairwise (fun a b => a.key < b.key) := by
    rw [hkept]
    exact hinput.sublist (keptEntries_sublist _ _ _ _ _)
  obtain ⟨calls, hnodup, _, hcalls⟩ := hcut.numbered
  rw [hnumber, Option.toList_none, List.append_nil] at hcalls
  have hfresh : ∀ o ∈ run.finished, ∃ n, o.file.number = numbers n := by
    intro o ho
    have hmem : o.file.number ∈ calls.map numbers := hcalls ▸ List.mem_map_of_mem ho
    obtain ⟨n, _, hn⟩ := List.mem_map.mp hmem
    exact ⟨n, hn.symm⟩
  have hedit := CompactionRun.edit_eq run
  rw [hcut.compaction] at hedit
  have houtputs : ∀ f ∈ run.finished.map (·.file), f.number ≠ 0 := by
    intro f hf
    obtain ⟨o, ho, rfl⟩ := List.mem_map.mp hf
    obtain ⟨n, hn⟩ := hfresh o ho
    rw [hn]
    exact hnumbers.2 n
  obtain ⟨hnew, hdeleted⟩ := replaceEdit_spec hfiles houtputs
  rw [hedit]
  refine ⟨fun o ho hnil => ?_, hkept, ?_, hcut.recorded, ?_, hfresh, ?_, hdeleted,
    compactPointers_replaceEdit c _, fun o ho => ?_⟩
  · obtain ⟨⟨e, he, _⟩, _⟩ := (hcut.recorded o ho).mem
    rw [hnil] at he
    cases he
  · refine (List.pairwise_flatMap.mp hstrict).2.imp_of_mem (fun {o o'} ho ho' hlt => ?_)
    obtain ⟨_, e, he, hlargest⟩ := (hcut.recorded o ho).mem
    obtain ⟨⟨e', he', hsmallest⟩, _⟩ := (hcut.recorded o' ho').mem
    rw [← hlargest, ← hsmallest]
    exact hlt e he e' he'
  · rw [hcalls]
    exact hnodup.map hnumbers.1
  · rw [hnew, List.map_map]
    rfl
  · exact (hcut.bounded o ho).trans (Nat.mod_le _ _)

/-! ## Two keys with grandparents between them -/

/-- Two versions of one key, and another key. -/
def apartInput : Run Nat Nat :=
  ⟨[⟨⟨1, 5, .value⟩, 0⟩, ⟨⟨1, 4, .value⟩, 0⟩, ⟨⟨3, 6, .value⟩, 0⟩], by decide⟩

/-- Two grandparents of this size end between the two keys. -/
def apartCompaction (size : Nat) : Compaction Nat where
  level := 0
  version := ⟨fun _ => []⟩
  inputs := [{ number := 2, fileSize := 10, smallest := ⟨1, 5, .value⟩, largest := ⟨3, 6, .value⟩ }]
  nextInputs := []
  grandparents :=
    [{ number := 3, fileSize := size, smallest := ⟨2, 4, .value⟩, largest := ⟨2, 3, .value⟩ },
     { number := 4, fileSize := size, smallest := ⟨2, 2, .value⟩, largest := ⟨2, 1, .value⟩ }]
  compactPointer := ⟨3, 6, .value⟩

def unflushedTables : CompactionOptions Nat Nat := ⟨1, fun _ => 0, fun run => run.entries.length⟩

/-- Sizes that sum to `2 ^ 64` are not seen, and one output passes all of them. -/
theorem compactInput_overlap_wraps :
    apartInput.entries.Pairwise (fun a b => a.key < b.key) ∧
    (apartCompaction (2 ^ 63)).grandparents.Pairwise (fun f g => f.largest ≤ g.largest) ∧
    ∃ o ∈ (CompactionRun.compactInput unflushedTables (· + 5) (apartCompaction (2 ^ 63)) 0 apartInput).1,
      grandparentOverlapFactor * unflushedTables.targetFileSize <
        fileBytes (passedBetween (apartCompaction (2 ^ 63)).grandparents o.file.smallest
          o.file.largest) := by
  decide

/-- Sizes of 6 that are seen: the first output ends before the second key. The older version is not
kept. -/
theorem compactInput_outputs_apart :
    let (outputs, edit) :=
      CompactionRun.compactInput unflushedTables (· + 5) (apartCompaction 6) 5 apartInput
    outputs.map (·.run.entries.map (·.key)) = [[⟨1, 5, .value⟩], [⟨3, 6, .value⟩]] ∧
    outputs.Pairwise (fun o o' => o.file.largest < o'.file.smallest) ∧ (∀ o ∈ outputs, o.Recorded) ∧
    edit.newFiles = outputs.map (fun o => (1, o.file)) ∧ DeletedFile.mk 0 2 ∈ edit.deletedFiles ∧
    ∀ o ∈ outputs, fileBytes (passedBetween (apartCompaction 6).grandparents o.file.smallest
      o.file.largest) ≤ 10 := by
  obtain ⟨_, _, hapart, hrecorded, _, _, hnew, hdeleted, _, hbounded⟩ :=
    compactInput_outputs unflushedTables (· + 5) (apartCompaction 6) 5 apartInput (by decide) (by decide)
      (by decide) ⟨fun _ _ h => Nat.add_right_cancel h, fun _ => Nat.succ_ne_zero _⟩
      (by simp [apartCompaction])
  exact ⟨by decide, hapart, hrecorded, hnew,
    (hdeleted 0 2).mpr ⟨_, .inl ⟨rfl, List.mem_singleton_self _⟩, rfl⟩, hbounded⟩

end ModernLevelDB
