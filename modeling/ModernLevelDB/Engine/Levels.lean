import ModernLevelDB.Engine.Compaction

/-! # Installing background edits

A compaction is computed against an older version than the one it is installed into. `Grown` says how
the two differ: by newer files that, below level 0, overlap nothing at their level or above. Readers at
or above the snapshot of the compaction see the same in what it leaves as before. -/
namespace ModernLevelDB
set_option autoImplicit false

variable {K V : Type*} [LinearOrder K]

/-- What a compaction needs of a version: valid levels, tables that match their files, newer entries
of a user key in shallower levels, and one entry for a user key and a sequence. Level 0 may be in any
order of recency. -/
structure Version.Layered (tables : Nat → Run K V) (version : Levels K) : Prop where
  valid : version.Valid compare
  covers : ∀ level, ∀ f ∈ version.files level, f.Covers (tables f.number)
  strict : ∀ level, ∀ f ∈ version.files level,
    (tables f.number).entries.Pairwise (fun a b => a.key < b.key)
  newer : ∀ i j : Level, i < j → ∀ f ∈ version.files i, ∀ g ∈ version.files j,
    (tables f.number).Newer (tables g.number)
  determined : ∀ i, ∀ f ∈ version.files i, ∀ j, ∀ g ∈ version.files j, ∀ a ∈ tables f.number,
    ∀ b ∈ tables g.number, a.key.userKey = b.key.userKey → a.sequence = b.sequence →
      f.number = g.number ∧ a = b

/-! ## Edits -/

section Edits

variable {κ : Type*}

def removeFiles (level : Level) (files : List (FileMetadata κ)) (edit : VersionEdit κ) :
    VersionEdit κ :=
  files.foldl (fun edit file => VersionSet.orKeep edit (edit.removeFile level file.number)) edit

def addFiles (level : Level) (files : List (FileMetadata κ)) (edit : VersionEdit κ) :
    VersionEdit κ :=
  files.foldl (fun edit file => VersionSet.orKeep edit (edit.addFile level file)) edit

variable {files : List (FileMetadata κ)}

theorem removeFiles_spec (level : Level) (edit : VersionEdit κ) (h : ∀ f ∈ files, f.number ≠ 0) :
    (removeFiles level files edit).newFiles = edit.newFiles ∧
      ∀ d, d ∈ (removeFiles level files edit).deletedFiles ↔
        d ∈ edit.deletedFiles ∨ ∃ f ∈ files, d = DeletedFile.mk level f.number := by
  induction files generalizing edit with
  | nil => exact ⟨rfl, by simp [removeFiles]⟩
  | cons f files ih =>
    have hf : f.number ≠ 0 := h f (by simp)
    obtain ⟨hnew, hdeleted⟩ := ih (VersionSet.orKeep edit (edit.removeFile level f.number))
      (fun g hg => h g (by simp [hg]))
    have hstep : VersionSet.orKeep edit (edit.removeFile level f.number) =
        { edit with
          deletedFiles := VersionEdit.insertDeleted (DeletedFile.mk level f.number) edit.deletedFiles
          deleted_sorted := VersionEdit.insertDeleted_sorted edit.deleted_sorted } := by
      unfold VersionEdit.removeFile
      rw [if_neg hf]
      rfl
    refine ⟨hnew.trans (by rw [hstep]), fun d => (hdeleted d).trans ?_⟩
    rw [hstep]
    simp only [VersionEdit.mem_insertDeleted, List.mem_cons, exists_eq_or_imp]
    tauto

theorem addFiles_spec (level : Level) (edit : VersionEdit κ) (h : ∀ f ∈ files, f.number ≠ 0) :
    (addFiles level files edit).newFiles = edit.newFiles ++ files.map (level, ·) ∧
      (addFiles level files edit).deletedFiles = edit.deletedFiles := by
  induction files generalizing edit with
  | nil => exact ⟨by simp [addFiles], rfl⟩
  | cons f files ih =>
    have hf : f.number ≠ 0 := h f (by simp)
    obtain ⟨hnew, hdeleted⟩ := ih (VersionSet.orKeep edit (edit.addFile level f))
      (fun g hg => h g (by simp [hg]))
    have hstep : VersionSet.orKeep edit (edit.addFile level f) =
        { edit with newFiles := edit.newFiles ++ [(level, f)] } := by
      unfold VersionEdit.addFile
      rw [if_neg hf]
      rfl
    refine ⟨hnew.trans ?_, hdeleted.trans (by rw [hstep])⟩
    rw [hstep]
    simp

end Edits

/-- The file is an input at this level. -/
def Compaction.IsInput (c : Compaction K) (level : Level) (f : TableFile K) : Prop :=
  level = c.level.level ∧ f ∈ c.inputs ∨ level = c.level.next ∧ f ∈ c.nextInputs

theorem SourceLevel.level_ne_next (level : SourceLevel) : level.level ≠ level.next := by
  revert level
  decide

def replaceEdit (c : Compaction K) (outputs : List (TableFile K)) : VersionEdit (InternalKey K) :=
  addFiles c.level.next outputs (compactionEdit c)

omit [LinearOrder K] in
theorem replaceEdit_spec {c : Compaction K} {outputs : List (TableFile K)}
    (hinputs : ∀ f, f ∈ c.inputs ∨ f ∈ c.nextInputs → f.number ≠ 0)
    (houtputs : ∀ f ∈ outputs, f.number ≠ 0) :
    (replaceEdit c outputs).newFiles = outputs.map (c.level.next, ·) ∧
      ∀ level number, DeletedFile.mk level number ∈ (replaceEdit c outputs).deletedFiles ↔
        ∃ f, c.IsInput level f ∧ f.number = number := by
  have hedit : compactionEdit c = removeFiles c.level.next c.nextInputs
      (removeFiles c.level.level c.inputs
        (VersionEdit.addCompactPointer {} c.level.level c.compactPointer)) := rfl
  obtain ⟨hnew₁, hdeleted₁⟩ := removeFiles_spec c.level.level
    (VersionEdit.addCompactPointer {} c.level.level c.compactPointer)
    (fun f hf => hinputs f (.inl hf))
  obtain ⟨hnew₂, hdeleted₂⟩ := removeFiles_spec c.level.next
    (removeFiles c.level.level c.inputs
      (VersionEdit.addCompactPointer {} c.level.level c.compactPointer))
    (fun f hf => hinputs f (.inr hf))
  obtain ⟨hnew, hdeleted⟩ := addFiles_spec c.level.next (compactionEdit c) houtputs
  have hmk : ∀ (l l' : Level) (n n' : Nat), DeletedFile.mk l n = DeletedFile.mk l' n' ↔
      l = l' ∧ n = n' := by
    intro l l' n n'
    exact ⟨fun h => Prod.mk.inj (toLex.injective h), fun ⟨h, h'⟩ => by rw [h, h']⟩
  refine ⟨?_, fun level number => ?_⟩
  · unfold replaceEdit
    rw [hnew, hedit, hnew₂, hnew₁]
    rfl
  · unfold replaceEdit
    rw [hdeleted, hedit, hdeleted₂, hdeleted₁]
    unfold Compaction.IsInput
    constructor
    · rintro ((h | ⟨f, hf, h⟩) | ⟨f, hf, h⟩)
      · exact absurd h (by simp [VersionEdit.addCompactPointer])
      · obtain ⟨hl, hn⟩ := (hmk _ _ _ _).mp h
        exact ⟨f, .inl ⟨hl, hf⟩, hn.symm⟩
      · obtain ⟨hl, hn⟩ := (hmk _ _ _ _).mp h
        exact ⟨f, .inr ⟨hl, hf⟩, hn.symm⟩
    · rintro ⟨f, ⟨rfl, hf⟩ | ⟨rfl, hf⟩, rfl⟩
      · exact .inl (.inr ⟨f, hf, rfl⟩)
      · exact .inr ⟨f, hf, rfl⟩

/-! ## Versions that differ by flushes -/

/-- The current version holds the base version and newer files, which below level 0 overlap nothing
of the base at their level or above. -/
structure Grown (tables : Nat → Run K V) (base current : Levels K) : Prop where
  kept : ∀ level, ∀ f ∈ base.files level, f ∈ current.files level
  newer : ∀ level, ∀ f ∈ current.files level, f ∉ base.files level →
    ∀ level', ∀ g ∈ base.files level', (tables f.number).Newer (tables g.number)
  avoids : ∀ level, level ≠ 0 → ∀ f ∈ current.files level, f ∉ base.files level →
    ∀ level' ≤ level, ∀ g ∈ base.files level', ¬ f.Meets g

theorem Grown.refl (tables : Nat → Run K V) (version : Levels K) : Grown tables version version where
  kept _ _ hf := hf
  newer _ _ hf hnot := absurd hf hnot
  avoids _ _ _ hf hnot := absurd hf hnot

section Replace

variable {tables : Nat → Run K V} {c : Compaction K} {current : Levels K}

variable {f : TableFile K}

variable {level : Level}

theorem Compaction.Closed.mem (h : c.Closed) (hf : c.IsInput level f) :
    f ∈ c.version.files level := by
  rcases hf with ⟨rfl, hf⟩ | ⟨rfl, hf⟩
  · exact h.inputs_mem f hf
  · exact h.next_mem f hf

variable {g : TableFile K}

theorem Run.newer_of_not_meets {r s : Run K V} (hf : f.Covers r) (hg : g.Covers s) (h : ¬ f.Meets g) :
    r.Newer s :=
  fun _ ha _ hb hu => absurd (hf.meets hg ha hb hu) h

theorem Version.Layered.newer_of_before (h : current.Layered tables) (hf : f ∈ current.files level)
    (hg : g ∈ current.files level) (hlt : f.largest < g.smallest) :
    (tables f.number).Newer (tables g.number) := by
  intro a ha b hb hu
  have hkey : a.key < b.key := ((h.covers level f hf).upper a ha).trans_lt
    (hlt.trans_le ((h.covers level g hg).lower b hb))
  refine lt_of_le_of_ne (InternalKey.sequence_le_of_le hkey.le hu) (fun heq => ?_)
  have hba := (h.determined level g hg level f hf b hb a ha hu.symm heq).2
  rw [hba] at hkey
  exact absurd hkey (lt_irrefl _)

theorem Compaction.Closed.newer (h : c.Closed) (hcurrent : current.Layered tables)
    (hgrown : Grown tables c.version current) {level' : Level} (hf : c.IsInput level f)
    (hg : g ∈ current.files level') (hlevel : level' ≤ c.level.next) (hnot : ¬ c.IsInput level' g) :
    (tables g.number).Newer (tables f.number) := by
  have hfbase := h.mem hf
  have hfcurrent := hgrown.kept level f hfbase
  by_cases hold : g ∈ c.version.files level'
  case neg => exact hgrown.newer level' g hg hold level f hfbase
  rcases lt_trichotomy level' level with hlt | heq | hgt
  · exact hcurrent.newer level' level hlt g hg f hfcurrent
  · subst heq
    have hsegment : ∀ files : List (TableFile K), f ∈ files → g ∉ files →
        SegmentClosed (c.version.files level') files → (tables g.number).Newer (tables f.number) := by
      intro files hmem hout hclosed
      rcases hclosed g hold hout with hbefore | hafter
      · exact hcurrent.newer_of_before hg hfcurrent (hbefore f hmem)
      · refine Run.newer_of_not_meets (hcurrent.covers _ g hg) (hcurrent.covers _ f hfcurrent) ?_
        exact fun hmeets => absurd hmeets.1 (hafter f hmem).not_ge
    rcases hf with ⟨hl, hf⟩ | ⟨hl, hf⟩
    · have hout : g ∉ c.inputs := fun hin => hnot (.inl ⟨hl, hin⟩)
      by_cases hzero : c.level = 0
      · refine Run.newer_of_not_meets (hcurrent.covers _ g hg) (hcurrent.covers _ f hfcurrent) ?_
        exact fun hmeets => hout (h.zero hzero f hf g (hl ▸ hold) hmeets.symm)
      · exact hsegment c.inputs hf hout (hl ▸ h.segment hzero)
    · exact hsegment c.nextInputs hf (fun hin => hnot (.inr ⟨hl, hin⟩)) (hl ▸ h.next_segment)
  · -- Only a source input has a smaller level than a file at or above the next level.
    rcases hf with ⟨hl, hf⟩ | ⟨hl, _⟩
    · have hnext : level' = c.level.next := by
        refine le_antisymm hlevel (Fin.le_def.mpr ?_)
        have := Fin.lt_def.mp (hl ▸ hgt)
        show c.level.val + 1 ≤ level'.val
        exact this
      refine Run.newer_of_not_meets (hcurrent.covers _ g hg) (hcurrent.covers _ f hfcurrent) ?_
      intro hmeets
      exact hnot (.inr ⟨hnext, h.next_meets f hf g (hnext ▸ hold) hmeets.symm⟩)
    · exact absurd (hl ▸ hgt) hlevel.not_gt

/-! ## What readers see -/

def Compaction.stays (tables : Nat → Run K V) (c : Compaction K) (current : Levels K) :
    Set (Entry K V) :=
  {e | ∃ level, ∃ f ∈ current.files level, ¬ c.IsInput level f ∧ e ∈ tables f.number}

theorem Compaction.Closed.mem_input (hc : c.Closed) (hgrown : Grown tables c.version current)
    {e : Entry K V} : e ∈ (mergedInput tables c).entries ↔
      ∃ level f, c.IsInput level f ∧ f ∈ current.files level ∧ e ∈ tables f.number := by
  refine mem_mergedInput.trans ⟨?_, ?_⟩
  · rintro ⟨f, hf, he⟩
    rcases List.mem_append.mp hf with hf | hf
    · exact ⟨_, f, .inl ⟨rfl, hf⟩, hgrown.kept _ f (hc.inputs_mem f hf), he⟩
    · exact ⟨_, f, .inr ⟨rfl, hf⟩, hgrown.kept _ f (hc.next_mem f hf), he⟩
  · rintro ⟨level, f, hf, _, he⟩
    exact ⟨f, List.mem_append.mpr (hf.imp And.right And.right), he⟩

variable {kept : List (Entry K V)}

theorem Compacted.newer_of_dropped {snapshot : Nat}
    (hcompacted : Compacted c snapshot (mergedInput tables c).entries kept) (hc : c.Closed)
    (hcurrent : current.Layered tables) (hgrown : Grown tables c.version current) {n x : Entry K V}
    (hn : n ∈ (mergedInput tables c).entries) (hle : n.sequence ≤ snapshot)
    (hbase : c.BaseFor n.key.userKey) (hx : x ∈ c.stays tables current ∪ {e | e ∈ kept})
    (huser : x.key.userKey = n.key.userKey) : n.sequence ≤ x.sequence := by
  obtain ⟨level, f, hf, _, hnf⟩ := (hc.mem_input hgrown).mp hn
  rcases hx with ⟨level', g, hg, hnot, hxg⟩ | hkept
  · by_cases hlevel : level' ≤ c.level.next
    · exact (hc.newer hcurrent hgrown hf hg hlevel hnot x hxg n hnf huser).le
    · by_cases hold : g ∈ c.version.files level'
      · -- The deletion was dropped because no deeper file has its key.
        have hbelow : level' ∈ BaseLevel.levelsBelow c.level := by
          refine List.mem_filter.mpr ⟨List.mem_finRange _, decide_eq_true ?_⟩
          have := Fin.lt_def.mp (not_le.mp hlevel)
          show c.level.val + 2 ≤ level'.val
          exact this
        have hcovers := hcurrent.covers level' g hg
        have hrange := hbase level' hbelow g hold
        rw [← huser] at hrange
        exact absurd ⟨InternalKey.userKey_mono (hcovers.lower x hxg),
          InternalKey.userKey_mono (hcovers.upper x hxg)⟩ hrange
      · exact (hgrown.newer level' g hg hold level f (hc.mem hf) x hxg n hnf huser).le
  · by_contra hlt
    have hbefore : n.key < x.key := InternalKey.lt_of_sequence_lt huser.symm (not_le.mp hlt)
    have := hcompacted.above x hkept n hn huser.symm hbefore
    omega

/-- Readers at or above the snapshot of a compaction see the same in what it leaves as before. A
newest entry can only be dropped as a deletion; everything older of its key is then gone as well. -/
theorem agree_compacted (hc : c.Closed) (hcurrent : current.Layered tables)
    (hgrown : Grown tables c.version current) {snapshot : Nat}
    (hcompacted : Compacted c snapshot (mergedInput tables c).entries kept) (user : K) {limit : Nat}
    (hlimit : snapshot ≤ limit) :
    Newest.Agree Entry.sequence (Entry.Visible user limit) Entry.view
      (c.stays tables current ∪ {e | e ∈ kept}) (current.contents tables) := by
  have hinput : ∀ e ∈ (mergedInput tables c).entries, e ∈ current.contents tables := by
    intro e he
    obtain ⟨level, f, _, hf, hef⟩ := (hc.mem_input hgrown).mp he
    exact ⟨level, f, hf, hef⟩
  have hsub : c.stays tables current ∪ {e | e ∈ kept} ⊆ current.contents tables := by
    rintro e (⟨level, f, hf, _, he⟩ | he)
    · exact ⟨level, f, hf, he⟩
    · exact hinput e (hcompacted.sublist.subset he)
  have hdetermined : ∀ a ∈ current.contents tables, ∀ b ∈ current.contents tables,
      a.key.userKey = b.key.userKey → a.sequence = b.sequence → a = b := by
    rintro a ⟨i, f, hf, ha⟩ b ⟨j, g, hg, hb⟩ huser hseq
    exact (hcurrent.determined i f hf j g hg a ha b hb huser hseq).2
  intro o' o ho' ho
  cases o with
  | none =>
    cases o' with
    | none => rfl
    | some x => exact absurd ho'.2.1 (ho x (hsub ho'.1))
  | some n =>
    obtain ⟨hmem, hvisible, hmax⟩ := ho
    by_cases hstays : n ∈ c.stays tables current ∪ {e | e ∈ kept}
    · -- The newest entry is still there, and is the newest of fewer entries.
      cases o' with
      | none => exact absurd hvisible (ho' n hstays)
      | some x =>
        have heq : x.sequence = n.sequence :=
          le_antisymm (hmax x (hsub ho'.1) ho'.2.1) (ho'.2.2 n hstays hvisible)
        rw [hdetermined x (hsub ho'.1) n hmem (ho'.2.1.1.trans hvisible.1.symm) heq]
    · obtain ⟨level, f, hf, hn⟩ := hmem
      have hdropped : n ∈ (mergedInput tables c).entries ∧ n ∉ kept := by
        refine ⟨(hc.mem_input hgrown).mpr ⟨level, f, ?_, hf, hn⟩, fun h => hstays (.inr h)⟩
        by_contra hnot
        exact hstays (.inl ⟨level, f, hf, hnot, hn⟩)
      rcases hcompacted.dropped n hdropped.1 hdropped.2 with
        ⟨m, hm, hu, hlt, hle⟩ | ⟨hdeletion, hle, hbase⟩
      · -- A newer visible entry would be the newest.
        have hmn := hmax m (hinput m hm) ⟨hu.trans hvisible.1, hle.trans hlimit⟩
        have hnm : n.sequence ≤ m.sequence := InternalKey.sequence_le_of_le hlt.le hu
        rw [hdetermined m (hinput m hm) n ⟨level, f, hf, hn⟩ hu (le_antisymm hmn hnm)] at hlt
        exact absurd hlt (lt_irrefl _)
      · have hview : n.view = none := by
          unfold Entry.view
          rw [hdeletion]
        rw [Option.bind_some, hview]
        cases o' with
        | none => rfl
        | some x =>
          obtain ⟨hx, hxvisible, _⟩ := ho'
          have huser : x.key.userKey = n.key.userKey := hxvisible.1.trans hvisible.1.symm
          have hnx := hcompacted.newer_of_dropped hc hcurrent hgrown hdropped.1 hle hbase hx huser
          have hxn : x.sequence ≤ n.sequence := hmax x (hsub hx) hxvisible
          have heq := hdetermined x (hsub hx) n ⟨level, f, hf, hn⟩ huser (le_antisymm hxn hnx)
          exact absurd (heq ▸ hx) hstays

end Replace

end ModernLevelDB
