import ModernLevelDB.Lib.Transition
import ModernLevelDB.Metadata.LogAndApply

/-! # Sequences of `LogAndApply` calls

What a version set holds in memory, its core, changes only when a call reports success, and then by
the whole edit. The first failed write is recorded, and from then on every call returns it without
touching a file. -/
namespace ModernLevelDB.VersionSet
set_option autoImplicit false

/-- What edits change in a set. -/
structure Core where
  current : Version ByteKey
  compactPointers : Level → Option ByteKey
  logNumber : Nat
  prevLogNumber : Nat

def core (set : VersionSet ByteKey) : Core :=
  ⟨set.current, set.compactPointers, set.logNumber, set.prevLogNumber⟩

variable (extend : CrcExtend) (comparator : Comparator)

/-- The core after an edit: the version that the overload builds, with the edit's pointers and log
numbers. -/
def Core.applyEdit (core : Core) (call : Overload × VersionEdit ByteKey) : Core where
  current := (buildVersion comparator call.1 core.current call.2).toOption.getD core.current
  compactPointers := applyCompactPointerEdits call.2 core.compactPointers
  logNumber := call.2.logNumber.getD core.logNumber
  prevLogNumber := call.2.prevLogNumber.getD core.prevLogNumber

/-- A set, its files and the edits that succeeded. -/
structure Run where
  set : VersionSet ByteKey
  world : World
  succeeded : List (Overload × VersionEdit ByteKey) := []

def Run.call (r : Run) (overload : Overload) (edit : VersionEdit ByteKey) : Outcome Unit × Run :=
  match logAndApply extend comparator overload r.set edit r.world with
  | (.returned (), set, world) => (.returned (), ⟨set, world, r.succeeded ++ [(overload, edit)]⟩)
  | (outcome, set, world) => (outcome, ⟨set, world, r.succeeded⟩)

/-- A call of `LogAndApply`, whatever comes of it, or of a counter. -/
inductive Step : Run → Run → Prop where
  | logAndApply (r : Run) (overload : Overload) (edit : VersionEdit ByteKey) :
      Step r (r.call extend comparator overload edit).2
  | counter (r : Run) (call : CounterCall) : Step r { r with set := call.apply r.set }

/-! ## One call -/

section Call

variable {comparator}

theorem counter_eq (set : VersionSet ByteKey) (call : CounterCall) :
    ∃ next last, set.nextFileNumber ≤ next ∧
      call.apply set = { set with nextFileNumber := next, lastSequence := last } := by
  cases call with
  | newFileNumber => exact ⟨set.nextFileNumber + 1, set.lastSequence, by omega, rfl⟩
  | markFileNumberUsed number =>
    by_cases h : fileNumberLimit ≤ number
    · exact ⟨set.nextFileNumber, set.lastSequence, le_rfl,
        by simp [CounterCall.apply, markFileNumberUsed, h]⟩
    · exact ⟨max set.nextFileNumber (number + 1), set.lastSequence, le_max_left _ _,
        by simp [CounterCall.apply, markFileNumberUsed, h]⟩
  | setLastSequence sequence => exact ⟨set.nextFileNumber, sequence, le_rfl, rfl⟩

theorem during_eq (calls : List CounterCall) (set : VersionSet ByteKey) :
    ∃ next last, set.nextFileNumber ≤ next ∧
      calls.foldl CounterCall.apply set = { set with nextFileNumber := next, lastSequence := last } := by
  induction calls generalizing set with
  | nil => exact ⟨_, _, le_rfl, rfl⟩
  | cons call calls ih =>
    obtain ⟨next, last, hnext, hcall⟩ := counter_eq set call
    obtain ⟨next', last', hnext', hrest⟩ := ih (call.apply set)
    refine ⟨next', last', ?_, ?_⟩
    · rw [hcall] at hnext'
      exact hnext.trans hnext'
    · rw [List.foldl_cons, hrest, hcall]

variable {overload : Overload} {set : VersionSet ByteKey} {edit : VersionEdit ByteKey}

/-- A call that stops before its first file operation changes nothing. -/
theorem logAndApply_of_error {error : Error}
    (h : accept comparator overload set edit = .error error) (world : World) :
    logAndApply extend comparator overload set edit world = (.failed error, set, world) := by
  unfold logAndApply
  rw [h]

variable {prepared : Prepared ByteKey}

/-- A call that reaches its file operations publishes its edit when they succeed, and otherwise
keeps the core and records the error. -/
theorem logAndApply_of_ok (h : accept comparator overload set edit = .ok prepared) (world : World) :
    (∃ set' world', logAndApply extend comparator overload set edit world =
        (.returned (), set', world') ∧
      set'.failure = set.failure ∧ core set' = ⟨prepared.version, prepared.compactPointers,
        prepared.logNumber, prepared.prevLogNumber⟩) ∨
    ∃ outcome set' world' error, logAndApply extend comparator overload set edit world =
        (outcome, set', world') ∧
      (outcome = .failed error ∨ outcome = .threw ∧ error = persistenceException) ∧
      set'.failure = some error ∧ core set' = core set := by
  unfold logAndApply
  rw [h]
  obtain ⟨next, last, _, hduring⟩ := during_eq overload.during set
  simp only [hduring]
  rcases write extend set.manifest set.manifestFileNumber
    ((prepared.snapshot.map VersionEdit.encode).getD []) prepared.edit.encode world with
    ⟨outcome, world'⟩
  cases outcome with
  | returned manifest => exact .inl ⟨_, _, rfl, rfl, rfl⟩
  | failed error => exact .inr ⟨_, _, _, error, rfl, .inl rfl, rfl, rfl⟩
  | threw => exact .inr ⟨_, _, _, _, rfl, .inr ⟨rfl, rfl⟩, rfl, rfl⟩

theorem accept_of_failure {error : Error} (h : set.failure = some error) :
    accept comparator overload set edit = .error error := by
  unfold accept acceptEdit
  rw [h]

theorem prepare_compactPointers (comparatorName : Bytes) (set : VersionSet ByteKey)
    (edit : VersionEdit ByteKey) (version : Version ByteKey) :
    (set.prepare comparatorName edit version).compactPointers =
      applyCompactPointerEdits edit set.compactPointers := by
  have hnext : ∀ (e : VersionEdit ByteKey) (n : Nat),
      (orKeep e (e.setNextFileNumber n)).compactPointers = e.compactPointers := by
    intro e n
    unfold VersionEdit.setNextFileNumber
    split <;> rfl
  have hlast : ∀ (e : VersionEdit ByteKey) (n : Nat),
      (orKeep e (e.setLastSequence n)).compactPointers = e.compactPointers := by
    intro e n
    unfold VersionEdit.setLastSequence
    split <;> rfl
  unfold prepare applyCompactPointerEdits
  simp only [hnext, hlast]
  rfl

theorem accept_core (h : accept comparator overload set edit = .ok prepared) :
    (⟨prepared.version, prepared.compactPointers, prepared.logNumber, prepared.prevLogNumber⟩ : Core) =
      (core set).applyEdit comparator (overload, edit) := by
  unfold accept acceptEdit at h
  split at h
  · cases h
  · obtain ⟨_, _, h⟩ := Result.bind_eq_ok.mp h
    obtain ⟨version, hversion, h⟩ := Result.bind_eq_ok.mp h
    cases h
    rw [prepare_compactPointers]
    unfold Core.applyEdit core
    simp only [hversion]
    rfl

end Call

/-! ## Every sequence of calls -/

section Runs

variable {extend comparator}

/-- The set is the start with the edits that succeeded. -/
def Tracks (comparator : Comparator) (start : VersionSet ByteKey) (r : Run) : Prop :=
  core r.set = r.succeeded.foldl (Core.applyEdit comparator) (core start)

theorem step_tracks {start : VersionSet ByteKey} {r r' : Run} (h : Tracks comparator start r)
    (hst : Step extend comparator r r') : Tracks comparator start r' := by
  cases hst with
  | counter call =>
    obtain ⟨next, last, _, hcall⟩ := counter_eq r.set call
    unfold Tracks
    simp only [hcall]
    exact h
  | logAndApply overload edit =>
    unfold Run.call
    cases hacc : accept comparator overload r.set edit with
    | error error =>
      rw [logAndApply_of_error extend hacc]
      exact h
    | ok prepared =>
      rcases logAndApply_of_ok extend hacc r.world with
        ⟨set', world', hres, _, hcore⟩ | ⟨outcome, set', world', error, hres, hout, _, hcore⟩
      · rw [hres]
        unfold Tracks at h ⊢
        rw [List.foldl_append, ← h, hcore, accept_core hacc]
        rfl
      · rw [hres]
        rcases hout with rfl | ⟨rfl, _⟩
        · exact hcore.trans h
        · exact hcore.trans h

variable {error : Error}

theorem step_failure {r r' : Run} (h : r.set.failure = some error)
    (hst : Step extend comparator r r') : r'.set.failure = some error := by
  cases hst with
  | counter call =>
    obtain ⟨next, last, _, hcall⟩ := counter_eq r.set call
    simp only [hcall]
    exact h
  | logAndApply overload edit =>
    unfold Run.call
    rw [logAndApply_of_error extend (accept_of_failure h)]
    exact h

variable {overload : Overload} {set : VersionSet ByteKey} {edit : VersionEdit ByteKey}

theorem accept_of_rejected (hf : set.failure = none)
    (h : set.validate comparator.name edit = .error error ∨
      set.validate comparator.name edit = .ok () ∧
        buildVersion comparator overload set.current edit = .error error) :
    accept comparator overload set edit = .error error := by
  unfold accept acceptEdit
  rw [hf]
  rcases h with h | ⟨h, hb⟩
  · simp only [h]
    rfl
  · simp only [h, hb]
    rfl

theorem accept_of_checked {version : Version ByteKey} (hf : set.failure = none)
    (h : set.validate comparator.name edit = .ok ())
    (hb : buildVersion comparator overload set.current edit = .ok version) :
    accept comparator overload set edit = .ok (set.prepare comparator.name edit version) := by
  unfold accept acceptEdit
  rw [hf]
  simp only [h, hb]
  rfl

/-- In every sequence of calls and under every failure of a file operation: the core is that of the
edits reported successful; a call that the checks reject changes nothing and touches no file; a call
whose write fails keeps the core, and every later call then returns its error and touches no file. -/
theorem logAndApply_atomic (extend : CrcExtend) (comparator : Comparator)
    (start : VersionSet ByteKey) (world : World) {r : Run}
    (h : Relation.ReflTransGen (Step extend comparator) ⟨start, world, []⟩ r)
    (overload : Overload) (edit : VersionEdit ByteKey) :
    core r.set = r.succeeded.foldl (Core.applyEdit comparator) (core start) ∧
    (∀ error, r.set.failure = none →
      (r.set.validate comparator.name edit = .error error ∨
        r.set.validate comparator.name edit = .ok () ∧
          buildVersion comparator overload r.set.current edit = .error error) →
      r.call extend comparator overload edit = (.failed error, r)) ∧
    (∀ version, r.set.failure = none → r.set.validate comparator.name edit = .ok () →
      buildVersion comparator overload r.set.current edit = .ok version →
      (∃ r₁, r.call extend comparator overload edit = (.returned (), r₁) ∧
        r₁.succeeded = r.succeeded ++ [(overload, edit)] ∧
        core r₁.set = (core r.set).applyEdit comparator (overload, edit) ∧ r₁.set.failure = none) ∨
      ∃ outcome r₁ error, r.call extend comparator overload edit = (outcome, r₁) ∧
        (outcome = .failed error ∨ outcome = .threw ∧ error = persistenceException) ∧
        core r₁.set = core r.set ∧ r₁.succeeded = r.succeeded ∧
        ∀ r₂, Relation.ReflTransGen (Step extend comparator) r₁ r₂ →
          ∀ overload₂ edit₂, r₂.call extend comparator overload₂ edit₂ = (.failed error, r₂)) := by
  refine ⟨?_, ?_, ?_⟩
  · have htracks : Tracks comparator start r := by
      induction h with
      | refl => rfl
      | tail _ hst ih => exact step_tracks ih hst
    exact htracks
  · intro error hf hrej
    unfold Run.call
    rw [logAndApply_of_error extend (accept_of_rejected hf hrej)]
  · intro version hf hv hb
    have hacc := accept_of_checked hf hv hb
    unfold Run.call
    rcases logAndApply_of_ok extend hacc r.world with
      ⟨set', world', hres, hfail, hcore⟩ | ⟨outcome, set', world', error, hres, hout, hfail, hcore⟩
    · rw [hres]
      exact .inl ⟨_, rfl, rfl, hcore.trans (accept_core hacc), hfail.trans hf⟩
    · rw [hres]
      -- The error is recorded, and no step removes it.
      have hlater : ∀ r₂, Relation.ReflTransGen (Step extend comparator)
          ⟨set', world', r.succeeded⟩ r₂ → r₂.set.failure = some error := by
        intro r₂ h₂
        induction h₂ with
        | refl => exact hfail
        | tail _ hst ih => exact step_failure ih hst
      refine .inr ⟨outcome, ⟨set', world', r.succeeded⟩, error, ?_, hout, hcore, rfl,
        fun r₂ h₂ overload₂ edit₂ => ?_⟩
      · rcases hout with rfl | ⟨rfl, _⟩
        · rfl
        · rfl
      · rw [logAndApply_of_error extend (accept_of_failure (hlater r₂ h₂))]

/-- A world in which every file operation fails. -/
def brokenWorld (error : Error) : World :=
  { disk := fun _ => none, outcomes := fun _ => .fails error (fun _ => none) }

/-- The first edit of a new version set in the broken world: the write of its MANIFEST fails, and the
next call gets the same error. -/
theorem logAndApply_atomic_broken :
    ∃ r₁, (Run.mk {} (brokenWorld (Error.io "full")) []).call (fun c _ => c) ⟨[], fun _ _ => .eq⟩
        (.trusted []) {} = (.failed (Error.io "full"), r₁) ∧
      r₁.call (fun c _ => c) ⟨[], fun _ _ => .eq⟩ .checked {} = (.failed (Error.io "full"), r₁) := by
  have hout : ((Run.mk {} (brokenWorld (Error.io "full")) []).call (fun c _ => c)
      ⟨[], fun _ _ => .eq⟩ (.trusted []) {}).1 = .failed (Error.io "full") := rfl
  rcases (logAndApply_atomic (fun c _ => c) ⟨[], fun _ _ => .eq⟩ {} (brokenWorld (Error.io "full"))
    .refl (.trusted []) {}).2.2 _ rfl rfl rfl with
    ⟨r₁, hcall, _⟩ | ⟨outcome, r₁, error, hcall, hcase, _, _, hlater⟩
  · rw [hcall] at hout
    cases hout
  · rw [hcall] at hout
    rcases hcase with rfl | ⟨rfl, _⟩
    · cases hout
      exact ⟨r₁, hcall, hlater r₁ .refl .checked {}⟩
    · cases hout

end Runs

end ModernLevelDB.VersionSet
