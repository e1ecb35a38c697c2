import ModernLevelDB.Engine.WriteQueue

/-! # Every run of the write queue

The invariant `Inv` ties the deque to the callers' records: the callers in arrival order are those
that `Complete` removed followed by the deque, only the front can lead, and a front that does not
lead has been notified. `step_inv` keeps it through each critical section, by way of closed forms of
`Complete` and `BuildGroup`; the contract of the queue is read off the invariant. -/
namespace ModernLevelDB.WriteQueue
set_option autoImplicit false

/-! ## Closed forms of the record updates -/

theorem modify_self (records : CallerId → Option Writer) (i : CallerId) (f : Writer → Writer) :
    modify records i f i = (records i).map f := by
  simp [modify]

variable {i j : CallerId}

theorem modify_of_ne (records : CallerId → Option Writer) (f : Writer → Writer) (h : j ≠ i) :
    modify records i f j = records j := by
  simp [modify, h]

variable {w : Writer}

/-- The records after `Complete` removed `members`: everyone but the leader has the result. -/
def publishAll (leader : CallerId) (result : Option Status) (members : List CallerId)
    (records : CallerId → Option Writer) : CallerId → Option Writer :=
  fun j => if j ∈ members ∧ j ≠ leader then (records j).map (publishFollowerResult result)
    else records j

theorem popThrough_eq (leader last : CallerId) (result : Option Status) (members : List CallerId) :
    ∀ (rest : List CallerId) (s : State), members.Nodup → members.getLast? = some last →
      popThrough leader last result (members ++ rest) s =
        { s with
          writers := rest
          completed := s.completed ++ members
          records := publishAll leader result members s.records } := by
  induction members with
  | nil => intro rest s _ hl; simp at hl
  | cons i members ih =>
    intro rest s hn hl
    obtain ⟨hi, hn'⟩ := List.nodup_cons.mp hn
    have hrec : (if i = leader then s.records
        else modify s.records i (publishFollowerResult result)) =
        publishAll leader result [i] s.records := by
      funext j
      by_cases hL : i = leader <;> by_cases hj : j = i <;>
        simp_all [publishAll, modify_self, modify_of_ne]
    by_cases hm : members = []
    · subst hm
      have hlast : i = last := by simpa using hl
      simp [popThrough, hlast.symm, hrec]
    · have hl' : members.getLast? = some last := by
        rwa [List.getLast?_cons_of_ne_nil hm] at hl
      have hne : i ≠ last := by
        rintro rfl
        exact hi (List.mem_of_getLast? hl')
      rw [List.cons_append, popThrough]
      simp only [hne, if_false, hrec]
      rw [ih rest _ hn' hl']
      have hcomp : publishAll leader result members (publishAll leader result [i] s.records) =
          publishAll leader result (i :: members) s.records := by
        funext j
        by_cases hj : j = i
        · subst hj; simp [publishAll, hi]
        · simp [publishAll, hj]
      simp [hcomp]

/-- The records after the caller `i` left the queue with its followers: `i` returned, each follower
has the result, and the new front is notified. -/
def finishRecords (records : CallerId → Option Writer) (i : CallerId)
    (followers rest : List CallerId) (result : Option Status) (returned : Returned) :
    CallerId → Option Writer :=
  fun j =>
    if j = i then (records j).map (fun w => { w with phase := .returned returned })
    else if j ∈ followers then (records j).map (publishFollowerResult result)
    else if rest.head? = some j then (records j).map notifyOne
    else records j

theorem finish_eq (s : State) (i last : CallerId) (followers rest : List CallerId)
    (result : Option Status) (returned : Returned) (hw : s.writers = i :: followers ++ rest)
    (hn : s.writers.Nodup) (hl : (i :: followers).getLast? = some last) :
    setPhase (complete i last result s) i (.returned returned) =
      { s with
        writers := rest
        completed := s.completed ++ (i :: followers)
        records := finishRecords s.records i followers rest result returned } := by
  rw [hw] at hn
  have hsplit := List.nodup_append.mp hn
  have hpop := popThrough_eq i last result (i :: followers) rest s hsplit.1 hl
  have hif : i ∉ followers := (List.nodup_cons.mp hsplit.1).1
  unfold complete
  rw [hw, hpop]
  cases rest with
  | nil =>
    simp only [wakeNextWriter, setPhase]
    congr 1
    funext j
    by_cases hj : j = i
    · subst hj; simp [modify_self, finishRecords, publishAll]
    · simp [modify_of_ne _ _ hj, finishRecords, publishAll, hj]
  | cons n rest =>
    have hni : n ≠ i := fun h => hsplit.2.2 i (by simp) n (by simp) h.symm
    have hnf : n ∉ followers := fun h => hsplit.2.2 n (by simp [h]) n (by simp) rfl
    simp only [wakeNextWriter, setPhase]
    congr 1
    funext j
    by_cases hj : j = i
    · subst hj
      rw [modify_self, modify_of_ne _ _ hni.symm]
      simp [finishRecords, publishAll]
    · rw [modify_of_ne _ _ hj]
      by_cases hjn : j = n
      · subst hjn
        rw [modify_self]
        simp [finishRecords, publishAll, hni, hnf]
      · rw [modify_of_ne _ _ hjn]
        simp [finishRecords, publishAll, hj, Ne.symm hjn]

/-! ## What `BuildGroup` selects -/

/-- The batch a group commits: the leader's own one, or all of them appended in order. -/
def groupBatch : List EncodedWriteBatch → EncodedWriteBatch
  | [batch] => batch
  | batches => batches.foldl EncodedWriteBatch.append .cleared

def passedBatches (records : CallerId → Option Writer) (members : List CallerId) :
    List EncodedWriteBatch :=
  members.filterMap (fun j => (records j).bind Writer.passed)

/-- A leader takes writers that have a batch, and with a sync only when it syncs itself. -/
def Admissible (records : CallerId → Option Writer) (leaderSync : Bool) (j : CallerId) : Prop :=
  ∃ w b, records j = some w ∧ w.passed = some b ∧ (w.sync = true → leaderSync = true)

/-- A group of the leader and `pre`, with their batches. -/
structure Described (records : CallerId → Option Writer) (leaderSync : Bool)
    (leaderBatch : EncodedWriteBatch) (leader : CallerId) (pre : List CallerId) (group : Group) :
    Prop where
  members : group.members = leader :: pre
  last : (leader :: pre).getLast? = some group.last
  scratch : group.scratch = true ↔ pre ≠ []
  batch : group.batch = groupBatch (leaderBatch :: passedBatches records pre)
  admissible : ∀ j ∈ pre, Admissible records leaderSync j

theorem compatibleFollower_eq_some {leaderSync : Bool} {b : EncodedWriteBatch}
    (h : compatibleFollower leaderSync w = some b) :
    w.batch = some b ∧ (w.sync = true → leaderSync = true) := by
  unfold compatibleFollower at h
  split at h
  · cases h
  · next batch hb =>
    split at h
    · next hc =>
      cases h
      refine ⟨hb, fun hs => ?_⟩
      simpa [hs] using hc
    · cases h

theorem groupBatch_append (leaderBatch b : EncodedWriteBatch) (batches : List EncodedWriteBatch) :
    groupBatch (leaderBatch :: (batches ++ [b])) =
      if batches = [] then (EncodedWriteBatch.cleared.append leaderBatch).append b
      else (groupBatch (leaderBatch :: batches)).append b := by
  cases batches with
  | nil => simp [groupBatch]
  | cons c batches => simp [groupBatch]

theorem addFollowers_spec (records : CallerId → Option Writer) (leaderSync : Bool)
    (leaderBatch : EncodedWriteBatch) (maximumSize : Nat) (leader : CallerId)
    (fs : List CallerId) (hpass : ∀ j ∈ fs, ∀ w, records j = some w → w.batch = w.passed) :
    ∀ (pre : List CallerId) (size : Nat) (group : Group),
      Described records leaderSync leaderBatch leader pre group →
      ∃ added, added <+: fs ∧ Described records leaderSync leaderBatch leader (pre ++ added)
        (addFollowers records leaderSync leaderBatch maximumSize fs size group) := by
  induction fs with
  | nil =>
    intro pre size group hd
    exact ⟨[], List.prefix_rfl, by simpa [addFollowers] using hd⟩
  | cons f fs ih =>
    intro pre size group hd
    have hstop : ∃ added, added <+: f :: fs ∧
        Described records leaderSync leaderBatch leader (pre ++ added) group :=
      ⟨[], List.nil_prefix, by simpa using hd⟩
    rw [addFollowers]
    split
    · exact hstop
    · next b hb =>
      split
      · obtain ⟨w, hw, hc⟩ := Option.bind_eq_some_iff.mp hb
        obtain ⟨hwb, hsync⟩ := compatibleFollower_eq_some hc
        have hwp : w.passed = some b := by rw [← hpass f (by simp) w hw, hwb]
        have hbatches : passedBatches records (pre ++ [f]) = passedBatches records pre ++ [b] := by
          simp [passedBatches, hw, hwp]
        have hd' : Described records leaderSync leaderBatch leader (pre ++ [f])
            { scratch := true, batch := appendFollowerBatch group leaderBatch b, last := f,
              members := group.members ++ [f] } := by
          refine ⟨by simp [hd.members], ?_, by simp, ?_, ?_⟩
          · rw [← List.cons_append, List.getLast?_append]; simp
          · rw [hbatches, groupBatch_append]
            by_cases hpre : pre = []
            · have hs : group.scratch = false := by
                simpa [hpre] using hd.scratch
              simp [appendFollowerBatch, hs, hpre, passedBatches]
            · have hs : group.scratch = true := hd.scratch.mpr hpre
              have hne : passedBatches records pre ≠ [] := by
                obtain ⟨j, pre', rfl⟩ := List.exists_cons_of_ne_nil hpre
                obtain ⟨v, c, hv, hvp, _⟩ := hd.admissible j (by simp)
                simp [passedBatches, hv, hvp]
              simp [appendFollowerBatch, hs, hne, hd.batch]
          · intro j hj
            rcases List.mem_append.mp hj with hj | hj
            · exact hd.admissible j hj
            · have hjf : j = f := by simpa using hj
              exact hjf ▸ ⟨w, b, hw, hwp, hsync⟩
        obtain ⟨added, hadd, hd''⟩ := ih (fun j hj => hpass j (by simp [hj])) _ (size + b.encodedSize) _ hd'
        exact ⟨f :: added, by simpa using hadd, by simpa using hd''⟩
      · exact hstop

theorem buildGroup_spec (s : State) (i : CallerId) (rest : List CallerId)
    (batch : EncodedWriteBatch) (sync : Bool) (hw : s.writers = i :: rest)
    (hpass : ∀ j ∈ rest, ∀ w, s.records j = some w → w.batch = w.passed) :
    ∃ added, added <+: rest ∧
      Described s.records sync batch i added (buildGroup s i batch sync) := by
  have h := addFollowers_spec s.records sync batch (groupSizeLimit batch.encodedSize) i rest hpass []
    batch.encodedSize { scratch := false, batch, last := i, members := [i] }
    ⟨rfl, rfl, by simp, rfl, by simp⟩
  simpa [buildGroup, hw] using h

/-! ## The invariant -/

def settled (c : Commit) (i : CallerId) : CallOutcome → Returned
  | .returns status => .status status
  | .throws => if i = c.leader then .exception else .status aborted

/-- What a caller that joined no group returns: a forced one returns whatever `prepare` gave, any
other one only a failure of its own `prepare`. -/
def OwnResult (passed : Option EncodedWriteBatch) (r : Returned) : CallOutcome → Prop
  | .throws => r = .exception
  | .returns (.error e) => r = .status (.error e)
  | .returns (.ok u) => passed = none ∧ r = .status (.ok u)

/-- The result is that of the one call with this writer, or the own one of a writer in no call. -/
def Observes (s : State) (i : CallerId) (w : Writer) (r : Returned) : Prop :=
  (∃ c ∈ s.commits, i ∈ c.members ∧ ∃ o, c.outcome = some o ∧ r = settled c i o) ∨
  ((∀ c ∈ s.commits, i ∉ c.members) ∧ ∃ o, s.prepared i = some o ∧ OwnResult w.passed r o)

/-- The phases of the writer at the front. -/
def Fronting : Phase → Prop
  | .waiting notified => notified = true
  | .preparing => True
  | .committing _ _ _ => True
  | .returned _ => False

/-- Outside a commit on the caller's own batch the batch is as it was passed; inside, the guard's
sequence gives it back. -/
def BatchKept (w : Writer) : Prop :=
  match w.phase with
  | .committing _ false saved => w.batch.map (·.setSequence saved) = w.passed
  | _ => w.batch = w.passed

/-- A group call: a run of the queue from the leader on, with the batches of its members. -/
structure CallOk (records : CallerId → Option Writer) (c : Commit) : Prop where
  run : c.members <+: c.queue
  leader : c.members.head? = some c.leader
  admissible : ∀ j ∈ c.members, Admissible records c.sync j
  batch : c.batch = groupBatch (passedBatches records c.members)

/-- The calls of `commit`: all ended, or the last one is the front caller's and still running. -/
def Calls (s : State) : Prop :=
  ((∀ c ∈ s.commits, c.outcome.isSome) ∧
    (s.commits.flatMap Commit.members).Sublist s.completed ∧
    ∀ i w l b q, s.records i = some w → w.phase ≠ .committing l b q) ∨
  ∃ ended c, s.commits = ended ++ [c] ∧ (∀ d ∈ ended, d.outcome.isSome) ∧
    (ended.flatMap Commit.members).Sublist s.completed ∧ c.outcome = none ∧
    c.members <+: s.writers ∧
    ∃ w last scratch saved, s.records c.leader = some w ∧
      w.phase = .committing last scratch saved ∧ c.members.getLast? = some last

/-- The writer has returned, or is about to return what the leader left for it. -/
def Finished (s : State) (i : CallerId) (w : Writer) : Prop :=
  ∃ r, Observes s i w r ∧ (w.phase = .returned r ∨
    w.phase = .waiting true ∧ w.done = true ∧ ∃ st, w.result = some st ∧ r = .status st)

/-- What holds between the steps of a call, too. -/
structure Queued (s : State) : Prop where
  arrivals : s.arrivals = s.completed ++ s.writers
  nodup : s.arrivals.Nodup
  arrived : ∀ i, (s.records i).isSome ↔ i ∈ s.arrivals
  finished : ∀ i ∈ s.completed, ∀ w, s.records i = some w → Finished s i w
  call : ∀ c ∈ s.commits, CallOk s.records c

/-- The invariant of the queue. -/
structure Inv (s : State) : Prop extends Queued s where
  front : ∀ i rest w, s.writers = i :: rest → s.records i = some w →
    w.done = false ∧ Fronting w.phase
  behind : ∀ i ∈ s.writers.tail, ∀ w, s.records i = some w →
    w.done = false ∧ ∃ n, w.phase = .waiting n
  batch : ∀ i w, s.records i = some w → BatchKept w
  calls : Calls s

/-- Records stay, with the batch and the sync flag that were passed. -/
def Keeps (r r' : CallerId → Option Writer) : Prop :=
  ∀ i w, r i = some w → ∃ w', r' i = some w' ∧ w'.passed = w.passed ∧ w'.sync = w.sync

variable {r r' : CallerId → Option Writer}

theorem Admissible.mono (hk : Keeps r r') {sync : Bool} (h : Admissible r sync j) :
    Admissible r' sync j := by
  obtain ⟨w, b, hw, hb, hs⟩ := h
  obtain ⟨w', hw', hp, hs'⟩ := hk j w hw
  exact ⟨w', b, hw', hp.trans hb, fun h => hs (hs' ▸ h)⟩

theorem CallOk.mono (hk : Keeps r r') {c : Commit} (h : CallOk r c) : CallOk r' c := by
  refine ⟨h.run, h.leader, fun j hj => (h.admissible j hj).mono hk, ?_⟩
  have hsame : passedBatches r' c.members = passedBatches r c.members := by
    unfold passedBatches
    apply List.filterMap_congr
    intro j hj
    obtain ⟨w, b, hw, hb, _⟩ := h.admissible j hj
    obtain ⟨w', hw', hp, _⟩ := hk j w hw
    simp [hw, hw', hp]
  rw [hsame]
  exact h.batch

variable {s : State}

theorem Inv.writers_nodup (h : Inv s) : s.writers.Nodup := by
  have hn := h.nodup
  rw [h.arrivals] at hn
  exact (List.nodup_append.mp hn).2.1

theorem Inv.not_completed (h : Inv s) (hi : i ∈ s.writers) : i ∉ s.completed := by
  have hn := h.nodup
  rw [h.arrivals] at hn
  exact fun hc => (List.nodup_append.mp hn).2.2 i hc i hi rfl

theorem Inv.place (h : Inv s) (hw : s.records i = some w) :
    (∃ rest, s.writers = i :: rest ∧ w.done = false ∧ Fronting w.phase) ∨
      (i ∈ s.writers.tail ∧ w.done = false ∧ ∃ n, w.phase = .waiting n) ∨
      i ∈ s.completed ∧ Finished s i w := by
  have harr : i ∈ s.completed ++ s.writers := by
    rw [← h.arrivals]
    exact (h.arrived i).mp (by simp [hw])
  rcases List.mem_append.mp harr with hc | hq
  · exact .inr (.inr ⟨hc, h.finished i hc w hw⟩)
  · obtain ⟨j, rest, hws⟩ := List.exists_cons_of_ne_nil (List.ne_nil_of_mem hq)
    rw [hws] at hq
    rcases List.mem_cons.mp hq with rfl | hq
    · exact .inl ⟨rest, hws, h.front i rest w hws hw⟩
    · have htail : i ∈ s.writers.tail := by rwa [hws]
      exact .inr (.inl ⟨htail, h.behind i htail w hw⟩)

theorem Inv.leading_front (h : Inv s) (hw : s.records i = some w)
    (hl : w.phase = .preparing ∨ ∃ l b q, w.phase = .committing l b q) :
    ∃ rest, s.writers = i :: rest := by
  rcases h.place hw with ⟨rest, hws, _⟩ | ⟨_, _, n, hn⟩ | ⟨_, r, _, hr | ⟨hr, _⟩⟩
  · exact ⟨rest, hws⟩
  · simp [hn] at hl
  · simp [hr] at hl
  · simp [hr] at hl

/-- The record of a caller fits its place. -/
structure Placed (s : State) (i : CallerId) (w : Writer) : Prop where
  front : ∀ rest, s.writers = i :: rest → w.done = false ∧ Fronting w.phase
  behind : i ∈ s.writers.tail → w.done = false ∧ ∃ n, w.phase = .waiting n
  finished : i ∈ s.completed → Finished s i w

variable {rest : List CallerId}

theorem Inv.placed_front (h : Inv s) (hws : s.writers = i :: rest) (hd : w.done = false)
    (hf : Fronting w.phase) : Placed s i w := by
  have hn := h.writers_nodup
  refine ⟨fun _ _ => ⟨hd, hf⟩, fun htail => ?_, fun hc => ?_⟩
  · rw [hws] at hn htail
    exact absurd htail (List.nodup_cons.mp hn).1
  · exact absurd hc (h.not_completed (by simp [hws]))

theorem Inv.placed_behind (h : Inv s) (htail : i ∈ s.writers.tail) (hd : w.done = false) {n : Bool}
    (hp : w.phase = .waiting n) : Placed s i w := by
  have hn := h.writers_nodup
  refine ⟨fun rest hws => ?_, fun _ => ⟨hd, n, hp⟩, fun hc => ?_⟩
  · rw [hws] at hn htail
    exact absurd htail (List.nodup_cons.mp hn).1
  · exact absurd hc (h.not_completed (List.mem_of_mem_tail htail))

theorem Inv.placed_finished (h : Inv s) (hc : i ∈ s.completed) (hf : Finished s i w) :
    Placed s i w := by
  refine ⟨fun rest hws => ?_, fun htail => ?_, fun _ => hf⟩
  · exact absurd hc (h.not_completed (by simp [hws]))
  · exact absurd hc (h.not_completed (List.mem_of_mem_tail htail))

/-- The record of one caller changes, and what the callback did is recorded. -/
theorem Inv.setWriter {t : State} {v : Writer} (h : Inv s) (hw : s.records i = some w)
    (hwriters : t.writers = s.writers) (harrivals : t.arrivals = s.arrivals)
    (hcompleted : t.completed = s.completed)
    (hrecords : t.records = Function.update s.records i (some v))
    (hkept : v.passed = w.passed ∧ v.sync = w.sync) (hplaced : Placed s i v)
    (hobserves : ∀ j ∈ s.completed, ∀ u r, Observes s j u r → Observes t j u r)
    (hbatch : BatchKept v) (hcall : ∀ c ∈ t.commits, CallOk s.records c) (hcalls : Calls t) :
    Inv t := by
  have hcases : ∀ {j u}, t.records j = some u → (j = i ∧ u = v) ∨ (j ≠ i ∧ s.records j = some u) := by
    intro j u hu
    rw [hrecords] at hu
    by_cases hj : j = i
    · rw [hj, Function.update_self] at hu
      exact .inl ⟨hj, (Option.some.inj hu).symm⟩
    · exact .inr ⟨hj, by rwa [Function.update_of_ne hj] at hu⟩
  have hkeep : Keeps s.records t.records := by
    intro j u hu
    rw [hrecords]
    by_cases hj : j = i
    · subst hj
      cases hw.symm.trans hu
      exact ⟨v, Function.update_self .., hkept⟩
    · exact ⟨u, by rw [Function.update_of_ne hj, hu], rfl, rfl⟩
  refine ⟨⟨?_, harrivals ▸ h.nodup, fun j => ?_, fun j hj u hu => ?_,
    fun c hc => (hcall c hc).mono hkeep⟩, fun j rest u hws hu => ?_, fun j hj u hu => ?_,
    fun j u hu => ?_, hcalls⟩
  · rw [harrivals, hcompleted, hwriters, h.arrivals]
  · rw [harrivals, ← h.arrived j, hrecords]
    by_cases hj : j = i
    · simp [hj, hw]
    · rw [Function.update_of_ne hj]
  · rw [hcompleted] at hj
    have hfinished : Finished s j u := by
      rcases hcases hu with ⟨rfl, rfl⟩ | ⟨_, hu⟩
      · exact hplaced.finished hj
      · exact h.finished j hj u hu
    obtain ⟨r, hob, hr⟩ := hfinished
    exact ⟨r, hobserves j hj u r hob, hr⟩
  · rcases hcases hu with ⟨rfl, rfl⟩ | ⟨_, hu⟩
    · exact hplaced.front rest (hwriters ▸ hws)
    · exact h.front j rest u (hwriters ▸ hws) hu
  · rcases hcases hu with ⟨rfl, rfl⟩ | ⟨_, hu⟩
    · exact hplaced.behind (hwriters ▸ hj)
    · exact h.behind j (hwriters ▸ hj) u hu
  · rcases hcases hu with ⟨rfl, rfl⟩ | ⟨_, hu⟩
    · exact hbatch
    · exact h.batch j u hu

/-! ## Arrivals and wake-ups -/

theorem arrive_inv (h : Inv s) (i : CallerId) (batch : Option EncodedWriteBatch) (sync : Bool)
    (hi : s.records i = none) : Inv (arrive s i batch sync) := by
  have hnew : i ∉ s.arrivals := fun hm => by
    have := (h.arrived i).mpr hm
    simp [hi] at this
  have hother : ∀ {j w}, (arrive s i batch sync).records j = some w → j ≠ i → s.records j = some w := by
    intro j w hw hj
    simpa [arrive, Function.update_of_ne hj] using hw
  have hself : ∀ {w}, (arrive s i batch sync).records i = some w →
      w = { batch, sync, passed := batch,
            phase := if s.writers = [] then .preparing else .waiting false } := by
    intro w hw
    simpa [arrive, eq_comm] using hw
  have hkeep : Keeps s.records (arrive s i batch sync).records := by
    intro j w hw
    have hj : j ≠ i := by rintro rfl; simp [hi] at hw
    exact ⟨w, by simp [arrive, Function.update_of_ne hj, hw], rfl, rfl⟩
  refine ⟨⟨?_, ?_, ?_, ?_, ?_⟩, ?_, ?_, ?_, ?_⟩
  · simp [arrive, h.arrivals]
  · show (s.arrivals ++ [i]).Nodup
    rw [List.nodup_append_comm]
    exact List.nodup_cons.mpr ⟨hnew, h.nodup⟩
  · intro j
    by_cases hj : j = i
    · subst hj; simp [arrive]
    · simpa [arrive, Function.update_of_ne hj, hj] using h.arrived j
  · intro j hj w hw
    have hji : j ≠ i := by
      rintro rfl
      exact hnew (by rw [h.arrivals]; exact List.mem_append_left _ hj)
    exact h.finished j hj w (hother hw hji)
  · intro c hc
    exact (h.call c hc).mono hkeep
  · intro j rest w hws hw
    by_cases hj : j = i
    · subst hj
      have hempty : s.writers = [] := by
        cases hs : s.writers with
        | nil => rfl
        | cons a l =>
          have hja : a = j ∧ l ++ [j] = rest := by simpa [arrive, hs] using hws
          exact absurd (by rw [h.arrivals, hs]; simp [hja.1]) hnew
      rw [hself hw]
      simp [hempty, Fronting]
    · have hw' := hother hw hj
      cases hs : s.writers with
      | nil =>
        have : i = j ∧ [] = rest := by simpa [arrive, hs] using hws
        exact absurd this.1.symm hj
      | cons a l =>
        have hja : a = j ∧ l ++ [i] = rest := by simpa [arrive, hs] using hws
        exact h.front j l w (by rw [hs, hja.1]) hw'
  · intro j hjt w hw
    by_cases hj : j = i
    · subst hj
      cases hs : s.writers with
      | nil => simp [arrive, hs] at hjt
      | cons a l =>
        rw [hself hw]
        simp [hs]
    · refine h.behind j ?_ w (hother hw hj)
      cases hs : s.writers with
      | nil => simp [arrive, hs] at hjt
      | cons a l => simpa [arrive, hs, hj] using hjt
  · intro j w hw
    by_cases hj : j = i
    · subst hj
      rw [hself hw]
      by_cases hs : s.writers = [] <;> simp [BatchKept, hs]
    · exact h.batch j w (hother hw hj)
  · rcases h.calls with ⟨h1, h2, h3⟩ | ⟨ended, c, h1, h2, h3, h4, h5, w, l, b, q, hw, hp, hl⟩
    · refine .inl ⟨h1, h2, ?_⟩
      intro j w l b q hw
      by_cases hj : j = i
      · subst hj
        rw [hself hw]
        by_cases hs : s.writers = [] <;> simp [hs]
      · exact h3 j w l b q (hother hw hj)
    · have hne : c.leader ≠ i := by intro hc; rw [hc] at hw; simp [hi] at hw
      exact .inr ⟨ended, c, h1, h2, h3, h4, h5.trans (List.prefix_append _ _), w, l, b, q,
        by simp [arrive, Function.update_of_ne hne, hw], hp, hl⟩

theorem setPhase_records (hw : s.records i = some w) (phase : Phase) :
    (setPhase s i phase).records = Function.update s.records i (some { w with phase }) := by
  simp [setPhase, modify, hw]

theorem wake_inv (h : Inv s) (i : CallerId) (w : Writer) (n : Bool) (hw : s.records i = some w)
    (hn : w.phase = .waiting n) : Inv (wake s i w) := by
  -- The caller goes to a phase that fits its place: `ph` is one of the three of `wake`.
  obtain ⟨ph, hph, hcommit, hplaced⟩ : ∃ ph, wake s i w = setPhase s i ph ∧
      (∀ l b q, ph ≠ .committing l b q) ∧ Placed s i { w with phase := ph } := by
    rcases h.place hw with ⟨rest, hws, hd, _⟩ | ⟨htail, hd, _⟩ | ⟨hc, r, hob, hp | ⟨_, hd, st, hst, rfl⟩⟩
    · exact ⟨.preparing, by simp [wake, hd, hws], by simp, h.placed_front hws hd trivial⟩
    · have hhead : s.writers.head? ≠ some i := fun hhead => by
        obtain ⟨rest, hws⟩ := List.head?_eq_some_iff.mp hhead
        have hnodup := h.writers_nodup
        rw [hws] at hnodup htail
        exact (List.nodup_cons.mp hnodup).1 htail
      exact ⟨.waiting false, by simp [wake, hd, hhead], by simp, h.placed_behind htail hd rfl⟩
    · rw [hn] at hp
      cases hp
    · exact ⟨.returned (.status st), by simp [wake, hd, hst], by simp,
        h.placed_finished hc ⟨_, hob, .inl rfl⟩⟩
  rw [hph]
  have hrecords := setPhase_records hw ph
  refine h.setWriter hw rfl rfl rfl hrecords ⟨rfl, rfl⟩ hplaced (fun _ _ _ _ hob => hob) ?_
    h.call ?_
  · have hb : w.batch = w.passed := by simpa [BatchKept, hn] using h.batch i w hw
    cases ph with
    | committing l b q => exact absurd rfl (hcommit l b q)
    | _ => simpa [BatchKept] using hb
  · rcases h.calls with ⟨h1, h2, h3⟩ | ⟨ended, c, h1, h2, h3, h4, h5, v, l, b, q, hv, hp, hl⟩
    · refine .inl ⟨h1, h2, fun j v l b q hv => ?_⟩
      rw [hrecords] at hv
      by_cases hj : j = i
      · rw [hj, Function.update_self] at hv
        cases hv
        exact hcommit l b q
      · exact h3 j v l b q (by rwa [Function.update_of_ne hj] at hv)
    · have hne : c.leader ≠ i := by
        rintro rfl
        cases hw.symm.trans hv
        rw [hn] at hp
        cases hp
      exact .inr ⟨ended, c, h1, h2, h3, h4, h5, v, l, b, q,
        by rw [hrecords, Function.update_of_ne hne, hv], hp, hl⟩

/-! ## Completing the front caller and its followers -/

theorem notifyOne_fields (w : Writer) :
    (notifyOne w).batch = w.batch ∧ (notifyOne w).passed = w.passed ∧
      (notifyOne w).sync = w.sync ∧ (notifyOne w).done = w.done := by
  unfold notifyOne
  split <;> simp

section
variable {followers rest : List CallerId} {result : Option Status} {returned : Returned}

theorem finishRecords_keeps (records : CallerId → Option Writer) :
    Keeps records (finishRecords records i followers rest result returned) := by
  intro j w hw
  simp only [finishRecords, hw, Option.map_some]
  split
  · exact ⟨_, rfl, rfl, rfl⟩
  · split
    · exact ⟨_, rfl, (notifyOne_fields _).2.1, (notifyOne_fields _).2.2.1⟩
    · split
      · exact ⟨_, rfl, (notifyOne_fields _).2.1, (notifyOne_fields _).2.2.1⟩
      · exact ⟨_, rfl, rfl, rfl⟩

/-- The state in which the front caller `i` and its followers are about to be completed: their
results are due, every call of `commit` has ended, and `i` no longer changes its batch. -/
structure Ready (s : State) (i : CallerId) (followers rest : List CallerId)
    (result : Option Status) (returned : Returned) : Prop extends Queued s where
  writers : s.writers = i :: followers ++ rest
  behind : ∀ j ∈ followers ++ rest, ∀ w, s.records j = some w →
    w.done = false ∧ ∃ n, w.phase = .waiting n
  batch : ∀ j w, s.records j = some w → w.batch = w.passed
  ended : ∀ c ∈ s.commits, c.outcome.isSome
  order : (s.commits.flatMap Commit.members).Sublist (s.completed ++ (i :: followers))
  leader : ∀ w, s.records i = some w → Observes s i w returned
  shared : ∀ j ∈ followers, ∀ w, s.records j = some w →
    ∃ st, result = some st ∧ Observes s j w (.status st)

theorem notifyOne_waiting {n : Bool} (hn : w.phase = .waiting n) :
    notifyOne w = { w with phase := .waiting true } := by
  simp [notifyOne, hn]

/-- Each caller of the deque is the leader, a follower or behind the group; the others stay as they
are. -/
theorem Ready.cases (h : Ready s i followers rest result returned) {v : Writer}
    (hv : finishRecords s.records i followers rest result returned j = some v) :
    ∃ w, s.records j = some w ∧
      (j = i ∧ v = { w with phase := .returned returned } ∨
        j ∈ followers ∧ v = { w with result, done := true, phase := .waiting true } ∨
        j ∈ rest ∧ w.done = false ∧
          (∃ n, v = { w with phase := .waiting n } ∧ (rest.head? = some j → n = true)) ∨
        j ∈ s.completed ∧ v = w) := by
  unfold finishRecords at hv
  split at hv
  · next hj =>
    obtain ⟨w, hw, rfl⟩ := Option.map_eq_some_iff.mp hv
    exact ⟨w, hw, .inl ⟨hj, rfl⟩⟩
  next hj =>
  split at hv
  · next hf =>
    obtain ⟨w, hw, rfl⟩ := Option.map_eq_some_iff.mp hv
    obtain ⟨_, n, hn⟩ := h.behind j (by simp [hf]) w hw
    exact ⟨w, hw, .inr (.inl ⟨hf, notifyOne_waiting hn⟩)⟩
  next hf =>
  split at hv
  · next hhead =>
    obtain ⟨w, hw, rfl⟩ := Option.map_eq_some_iff.mp hv
    have hr : j ∈ rest := List.mem_of_head? hhead
    obtain ⟨hd, n, hn⟩ := h.behind j (by simp [hr]) w hw
    exact ⟨w, hw, .inr (.inr (.inl ⟨hr, hd, true, notifyOne_waiting hn, fun _ => rfl⟩))⟩
  next hhead =>
  refine ⟨v, hv, .inr (.inr ?_)⟩
  by_cases hr : j ∈ rest
  · obtain ⟨hd, n, hn⟩ := h.behind j (by simp [hr]) v hv
    exact .inl ⟨hr, hd, n, by rw [← hn], fun he => absurd he hhead⟩
  · have hjs : j ∈ s.completed ++ (i :: followers ++ rest) := by
      rw [← h.writers, ← h.arrivals]
      exact (h.arrived j).mp (by simp [hv])
    exact .inr ⟨by simpa [hj, hf, hr] using hjs, rfl⟩

variable {last : CallerId}

theorem Ready.finish_inv (h : Ready s i followers rest result returned)
    (hl : (i :: followers).getLast? = some last) :
    Inv (setPhase (complete i last result s) i (.returned returned)) := by
  have hnd : (s.completed ++ (i :: followers ++ rest)).Nodup := by
    rw [← h.writers, ← h.arrivals]; exact h.nodup
  obtain ⟨_, hq, hcompleted⟩ := List.nodup_append.mp hnd
  have hgroup := (List.nodup_append.mp hq).2.2
  rw [finish_eq s i last followers rest result returned h.writers (h.writers ▸ hq) hl]
  -- A caller behind the group keeps waiting, and the new front is notified.
  have hrest : ∀ j ∈ rest, ∀ v, finishRecords s.records i followers rest result returned j = some v →
      v.done = false ∧ ∃ n, v.phase = .waiting n ∧ (rest.head? = some j → n = true) := by
    intro j hj v hv
    obtain ⟨w, hw, ⟨rfl, _⟩ | ⟨hf, _⟩ | ⟨_, hd, n, rfl, hn⟩ | ⟨hc, _⟩⟩ := h.cases hv
    · exact absurd rfl (hgroup j (by simp) j hj)
    · exact absurd rfl (hgroup j (by simp [hf]) j hj)
    · exact ⟨hd, n, rfl, hn⟩
    · exact absurd rfl (hcompleted j hc j (by simp [hj]))
  refine ⟨⟨?_, h.nodup, fun j => ?_, fun j hj v hv => ?_,
    fun c hc => (h.call c hc).mono (finishRecords_keeps s.records)⟩, fun j l v hws hv => ?_,
    fun j hj v hv => ?_, fun j v hv => ?_, .inl ⟨h.ended, h.order, fun j v l b q hv hphase => ?_⟩⟩
  · simpa [h.writers] using h.arrivals
  · rw [← h.arrived j]
    simp only [finishRecords]
    split_ifs <;> simp
  · obtain ⟨w, hw, ⟨rfl, rfl⟩ | ⟨hf, rfl⟩ | ⟨hr, _⟩ | ⟨hc, rfl⟩⟩ := h.cases hv
    · exact ⟨returned, h.leader w hw, .inl rfl⟩
    · obtain ⟨st, hst, hob⟩ := h.shared j hf w hw
      exact ⟨.status st, hob, .inr ⟨rfl, rfl, st, hst, rfl⟩⟩
    · rcases List.mem_append.mp hj with hc | hf
      · exact absurd rfl (hcompleted j hc j (by simp [hr]))
      · exact absurd rfl (hgroup j hf j hr)
    · exact h.finished j hc v hw
  · have hws' : rest = j :: l := hws
    obtain ⟨hd, n, hn, hhead⟩ := hrest j (by simp [hws']) v hv
    rw [hn]
    exact ⟨hd, hhead (by simp [hws'])⟩
  · obtain ⟨hd, n, hn, _⟩ := hrest j (List.mem_of_mem_tail hj) v hv
    exact ⟨hd, n, hn⟩
  · obtain ⟨w, hw, ⟨_, rfl⟩ | ⟨_, rfl⟩ | ⟨_, _, n, rfl, _⟩ | ⟨hc, rfl⟩⟩ := h.cases hv
    · exact h.batch j w hw
    · exact h.batch j w hw
    · exact h.batch j w hw
    · obtain ⟨r, _, hp | ⟨hp, _⟩⟩ := h.finished j hc v hw <;>
        simpa [BatchKept, hp] using h.batch j v hw
  · obtain ⟨w, hw, ⟨_, rfl⟩ | ⟨_, rfl⟩ | ⟨_, _, n, rfl, _⟩ | ⟨hc, rfl⟩⟩ := h.cases hv
    · cases hphase
    · cases hphase
    · cases hphase
    · obtain ⟨r, _, hp | ⟨hp, _⟩⟩ := h.finished j hc v hw <;> rw [hp] at hphase <;> cases hphase

end

variable {last : CallerId}

/-! ## The end of `prepare` -/

theorem batch_eq_passed (hk : BatchKept w) (hp : ∀ l b q, w.phase ≠ .committing l b q) :
    w.batch = w.passed := by
  unfold BatchKept at hk
  split at hk
  · next l q hph => exact absurd hph (hp l false q)
  · exact hk

section

variable (h : Inv s) (hw : s.records i = some w) (hp : w.phase = .preparing)

include h hw hp

theorem Inv.idle_of_preparing :
    (∀ c ∈ s.commits, c.outcome.isSome) ∧
      (s.commits.flatMap Commit.members).Sublist s.completed ∧
      ∀ j v l b q, s.records j = some v → v.phase ≠ .committing l b q := by
  rcases h.calls with hidle | ⟨ended, c, _, _, _, _, _, v, l, b, q, hv, hvp, _⟩
  · exact hidle
  · obtain ⟨rest, hr⟩ := h.leading_front hw (.inl hp)
    obtain ⟨rest', hr'⟩ := h.leading_front hv (.inr ⟨l, b, q, hvp⟩)
    have hci : c.leader = i := by rw [hr] at hr'; exact (List.cons.inj hr').1.symm
    rw [hci, hw] at hv
    cases hv
    rw [hp] at hvp
    cases hvp

theorem prepareFinish_inv (outcome : CallOutcome) (result : Option Status) (returned : Returned)
    (hown : OwnResult w.passed returned outcome) :
    Inv (setPhase (complete i i result
      { s with prepared := Function.update s.prepared i (some outcome) }) i (.returned returned)) := by
  obtain ⟨rest, hr⟩ := h.leading_front hw (.inl hp)
  obtain ⟨hended, horder, hidle⟩ := h.idle_of_preparing hw hp
  have hic : i ∉ s.completed := h.not_completed (by simp [hr])
  suffices hready : Ready { s with prepared := Function.update s.prepared i (some outcome) } i []
      rest result returned from hready.finish_inv rfl
  refine ⟨⟨h.arrivals, h.nodup, h.arrived, ?_, h.call⟩, by simpa using hr, ?_, ?_, hended,
    horder.trans (List.sublist_append_left _ _), ?_, by simp⟩
  · intro j hj v hv
    obtain ⟨r, hob, hph⟩ := h.finished j hj v hv
    have hji : j ≠ i := fun he => hic (he ▸ hj)
    refine ⟨r, ?_, hph⟩
    simpa [Observes, Function.update_of_ne hji] using hob
  · intro j hj v hv
    exact h.behind j (by simpa [hr] using hj) v hv
  · intro j v hv
    exact batch_eq_passed (h.batch j v hv) (fun l b q => hidle j v l b q hv)
  · intro v hv
    cases hw.symm.trans hv
    refine .inr ⟨?_, outcome, by simp, hown⟩
    intro c hc hm
    exact hic (horder.subset (List.mem_flatMap.mpr ⟨c, hc, hm⟩))

theorem beginCommit_inv (batch : EncodedWriteBatch) (hb : w.batch = some batch) (outcome : CallOutcome) :
    Inv (beginCommit { s with prepared := Function.update s.prepared i (some outcome) } i w batch) := by
  obtain ⟨rest, hr⟩ := h.leading_front hw (.inl hp)
  obtain ⟨hended, horder, hidle⟩ := h.idle_of_preparing hw hp
  have hkept : ∀ j v, s.records j = some v → v.batch = v.passed := fun j v hv =>
    batch_eq_passed (h.batch j v hv) (fun l b q => hidle j v l b q hv)
  have hwp : w.passed = some batch := by rw [← hkept i w hw, hb]
  obtain ⟨added, hadd, hd⟩ := buildGroup_spec
    { s with prepared := Function.update s.prepared i (some outcome) } i rest batch w.sync hr
    (fun j _ v hv => hkept j v hv)
  unfold beginCommit
  generalize buildGroup _ i batch w.sync = group at hd ⊢
  have hmem : group.members <+: s.writers := by
    rw [hd.members, hr]
    simpa using hadd
  set call : Commit :=
    { leader := i, members := group.members, sync := w.sync, batch := group.batch,
      queue := s.writers, outcome := none } with hcall
  refine h.setWriter hw rfl rfl rfl (setPhase_records hw _) ⟨rfl, rfl⟩
    (h.placed_front hr (h.front i rest w hr hw).1 trivial) ?_ ?_ ?_ ?_
  · intro j hj v r hob
    have hji : j ≠ i := by
      rintro rfl
      exact h.not_completed (by simp [hr]) hj
    rcases hob with ⟨c, hc, hjc⟩ | ⟨hno, o, ho, hown⟩
    · exact .inl ⟨c, List.mem_append_left _ hc, hjc⟩
    · refine .inr ⟨?_, o, by simpa [setPhase, Function.update_of_ne hji] using ho, hown⟩
      intro c hc
      rcases List.mem_append.mp hc with hc | hc
      · exact hno c hc
      · cases List.mem_singleton.mp hc
        exact fun hm => h.not_completed (hmem.subset hm) hj
  · cases hs : group.scratch with
    | true => simp [BatchKept, hb, hwp]
    | false =>
      have hnil : added = [] := by
        by_contra hne
        have := hd.scratch.mpr hne
        simp [hs] at this
      have hgb : group.batch = batch := by rw [hd.batch, hnil]; rfl
      simp [BatchKept, hb, hwp, hgb]
  · intro c hc
    rcases List.mem_append.mp hc with hc | hc
    · exact h.call c hc
    · cases List.mem_singleton.mp hc
      refine ⟨hmem, by simp [hd.members], ?_, ?_⟩
      · intro j hj
        rw [hd.members] at hj
        rcases List.mem_cons.mp hj with rfl | hj
        · exact ⟨w, batch, hw, hwp, id⟩
        · exact hd.admissible j hj
      · show group.batch = groupBatch (passedBatches s.records group.members)
        rw [hd.batch, hd.members]
        simp [passedBatches, hw, hwp]
  · refine .inr ⟨s.commits, call, rfl, hended, horder, rfl, hmem, ?_⟩
    refine ⟨{ w with phase := .committing group.last group.scratch group.batch.sequence },
      group.last, group.scratch, group.batch.sequence, ?_, rfl, ?_⟩
    · simp [setPhase, hcall, modify_self, hw]
    · rw [← hd.last, hcall, hd.members]

theorem prepareEnds_inv (outcome : CallOutcome) : Inv (prepareEnds s i w outcome) := by
  cases outcome with
  | throws => exact prepareFinish_inv h hw hp .throws _ _ rfl
  | returns status =>
    cases status with
    | error e => exact prepareFinish_inv h hw hp (.returns (.error e)) _ _ rfl
    | ok u =>
      obtain ⟨_, _, hidle⟩ := h.idle_of_preparing hw hp
      have hkept := batch_eq_passed (h.batch i w hw) (fun l b q => hidle i w l b q hw)
      simp only [prepareEnds]
      split
      · next hb => exact prepareFinish_inv h hw hp (.returns (.ok u)) _ _ ⟨hkept ▸ hb, rfl⟩
      · next batch hb => exact beginCommit_inv h hw hp batch hb _

end

/-! ## The commit callback -/

variable {scratch : Bool} {saved : UInt64}

theorem setGroupSequence_eq (hw : s.records i = some w) (scratch : Bool) (q : UInt64) :
    setGroupSequence s i scratch q = { s with
      group := if scratch then s.group.setSequence q else s.group
      records := Function.update s.records i (some { w with
        batch := if scratch then w.batch else w.batch.map (·.setSequence q) }) } := by
  cases scratch with
  | true => simp [setGroupSequence, ← hw]
  | false => simp [setGroupSequence, modify, hw]

theorem recordOutcome_append (ended : List Commit) (c : Commit) (outcome : CallOutcome)
    (hended : ∀ d ∈ ended, d.outcome.isSome) (hc : c.outcome = none) :
    recordOutcome (ended ++ [c]) outcome = ended ++ [{ c with outcome := some outcome }] := by
  unfold recordOutcome
  rw [List.map_append]
  congr 1
  · refine (List.map_congr_left fun d hd => ?_).trans (List.map_id' ended)
    obtain ⟨o, ho⟩ := Option.isSome_iff_exists.mp (hended d hd)
    simp [ho]
  · simp [hc]

variable {outcome : CallOutcome}

theorem Inv.ready_of_committed (h : Inv s) (hw : s.records i = some w) (hb : w.batch = w.passed)
    {ended : List Commit} {c : Commit} {followers : List CallerId} (hcs : s.commits = ended ++ [c])
    (hended : ∀ d ∈ ended, d.outcome.isSome)
    (horder : (ended.flatMap Commit.members).Sublist s.completed) (hc : c.outcome = none)
    (hm : c.members = i :: followers) (hws : s.writers = i :: followers ++ rest)
    {result : Option Status} {returned : Returned} (hret : returned = settled c i outcome)
    (hres : ∀ j ∈ followers, ∃ st, result = some st ∧ Returned.status st = settled c j outcome) :
    Ready { s with commits := recordOutcome s.commits outcome } i followers rest result returned := by
  have hcalls : recordOutcome s.commits outcome = ended ++ [{ c with outcome := some outcome }] := by
    rw [hcs, recordOutcome_append ended c outcome hended hc]
  rw [hcalls]
  have hobs : ∀ j ∈ i :: followers, ∀ v, Observes
      { s with commits := ended ++ [{ c with outcome := some outcome }] } j v
      (settled c j outcome) := by
    intro j hj v
    exact .inl ⟨{ c with outcome := some outcome }, by simp, hm ▸ hj, outcome, rfl, rfl⟩
  refine ⟨⟨h.arrivals, h.nodup, h.arrived, fun j hj v hv => ?_, fun d hd => ?_⟩, hws,
    fun j hj v hv => ?_, fun j v hv => ?_, fun d hd => ?_, ?_, fun v _ => ?_, fun j hj v _ => ?_⟩
  · obtain ⟨r, hob, hph⟩ := h.finished j hj v hv
    refine ⟨r, ?_, hph⟩
    rcases hob with ⟨d, hd, hjd, o, ho, hr⟩ | ⟨hno, o, ho, hown⟩
    · rw [hcs] at hd
      rcases List.mem_append.mp hd with hd | hd
      · exact .inl ⟨d, by simp [hd], hjd, o, ho, hr⟩
      · cases List.mem_singleton.mp hd
        rw [hc] at ho
        cases ho
    · refine .inr ⟨fun d hd => ?_, o, ho, hown⟩
      rcases List.mem_append.mp hd with hd | hd
      · exact hno d (by simp [hcs, hd])
      · cases List.mem_singleton.mp hd
        exact hno c (by simp [hcs])
  · rcases List.mem_append.mp hd with hd | hd
    · exact h.call d (by simp [hcs, hd])
    · cases List.mem_singleton.mp hd
      obtain ⟨h1, h2, h3, h4⟩ := h.call c (by simp [hcs])
      exact ⟨h1, h2, h3, h4⟩
  · exact h.behind j (by rw [hws]; exact hj) v hv
  · by_cases hj : j = i
    · subst hj
      cases hw.symm.trans hv
      exact hb
    · refine batch_eq_passed (h.batch j v hv) fun l b q hph => hj ?_
      obtain ⟨r, hr⟩ := h.leading_front hv (.inr ⟨l, b, q, hph⟩)
      rw [hws] at hr
      exact (List.cons.inj hr).1.symm
  · rcases List.mem_append.mp hd with hd | hd
    · exact hended d hd
    · cases List.mem_singleton.mp hd
      rfl
  · rw [List.flatMap_append]
    exact horder.append (by simp [hm])
  · rw [hret]
    exact hobs i (by simp) v
  · obtain ⟨st, hst, hs⟩ := hres j hj
    exact ⟨st, hst, hs ▸ hobs j (by simp [hj]) v⟩

section

variable (h : Inv s) (hw : s.records i = some w) (hp : w.phase = .committing last scratch saved)

include h hw hp

/-- While caller `i` commits, the last call of `commit` is its own and covers a prefix of the
deque. -/
theorem Inv.running_of_committing :
    ∃ ended c followers rest, s.commits = ended ++ [c] ∧ (∀ d ∈ ended, d.outcome.isSome) ∧
      (ended.flatMap Commit.members).Sublist s.completed ∧ c.outcome = none ∧ c.leader = i ∧
      c.members = i :: followers ∧ s.writers = i :: followers ++ rest ∧
      (i :: followers).getLast? = some last := by
  rcases h.calls with ⟨_, _, hidle⟩ | ⟨ended, c, h1, h2, h3, h4, ⟨rest, h5⟩, v, l, b, q, hv, hvp, hl⟩
  · exact absurd hp (hidle i w last scratch saved hw)
  · obtain ⟨r, hr⟩ := h.leading_front hw (.inr ⟨last, scratch, saved, hp⟩)
    obtain ⟨r', hr'⟩ := h.leading_front hv (.inr ⟨l, b, q, hvp⟩)
    have hci : c.leader = i := by rw [hr] at hr'; exact (List.cons.inj hr').1.symm
    have hhead := (h.call c (by simp [h1])).leader
    rw [hci] at hhead hv
    rw [hw] at hv
    cases hv
    rw [hp] at hvp
    obtain ⟨rfl, rfl, rfl⟩ : last = l ∧ scratch = b ∧ saved = q := by
      injection hvp with e1 e2 e3
      exact ⟨e1, e2, e3⟩
    cases hm : c.members with
    | nil => rw [hm] at hhead; cases hhead
    | cons a followers =>
      have ha : a = i := by simpa [hm] using hhead
      subst ha
      exact ⟨ended, c, followers, rest, h1, h2, h3, h4, hci, hm,
        by rw [← h5, hm], by rw [← hm]; exact hl⟩

theorem commitSets_inv (q : UInt64) : Inv (setGroupSequence s i scratch q) := by
  obtain ⟨ended, c, followers, rest, hcs, hended, horder, hc, hci, hm, hr, hlast⟩ :=
    h.running_of_committing hw hp
  rw [setGroupSequence_eq hw]
  refine h.setWriter hw rfl rfl rfl rfl ⟨rfl, rfl⟩
    (h.placed_front hr (h.front i _ w hr hw).1 (by rw [hp]; trivial)) (fun _ _ _ _ hob => hob) ?_
    h.call ?_
  · have hb := h.batch i w hw
    cases scratch with
    | true => simpa [BatchKept, hp] using hb
    | false =>
      simp only [BatchKept, hp] at hb ⊢
      simpa [Option.map_map, Function.comp_def] using hb
  · subst hci
    refine .inr ⟨ended, c, hcs, hended, horder, hc, ?_, _, last, scratch, saved,
      Function.update_self _ _ _, hp, hm ▸ hlast⟩
    rw [hm]
    exact hr ▸ List.prefix_append _ _

theorem commitEnds_inv (outcome : CallOutcome) :
    Inv (commitEnds s i last scratch saved outcome) := by
  have hset := commitSets_inv h hw hp saved
  have hw' := congrFun (congrArg State.records (setGroupSequence_eq hw scratch saved)) i
  dsimp only at hw'
  rw [Function.update_self] at hw'
  have hb : (if scratch then w.batch else w.batch.map (·.setSequence saved)) = w.passed := by
    have := h.batch i w hw
    cases scratch <;> simpa [BatchKept, hp] using this
  unfold commitEnds
  generalize setGroupSequence s i scratch saved = t at hset hw'
  obtain ⟨ended, c, followers, rest, hcs, hended, horder, hc, hci, hm, hws, hlast⟩ :=
    hset.running_of_committing hw' hp
  have hif : i ∉ followers := by
    have hn := hset.writers_nodup
    rw [hws] at hn
    exact (List.nodup_cons.mp (List.nodup_append.mp hn).1).1
  cases outcome with
  | throws =>
    refine Ready.finish_inv (hset.ready_of_committed hw' hb hcs hended horder hc hm hws
      (by simp [settled, hci]) fun j hj => ?_) hlast
    have hji : j ≠ i := fun he => hif (he ▸ hj)
    exact ⟨aborted, rfl, by simp [settled, hci, hji]⟩
  | returns status =>
    refine Ready.finish_inv (hset.ready_of_committed hw' hb hcs hended horder hc hm hws rfl
      fun j hj => ?_) hlast
    have hli : last ≠ i := by
      rintro rfl
      rw [List.getLast?_cons_of_ne_nil (List.ne_nil_of_mem hj)] at hlast
      exact hif (List.mem_of_getLast? hlast)
    exact ⟨status, by simp [hli], rfl⟩

end

/-! ## Every run -/

theorem step_inv {t : State} (h : Inv s) (hst : Step s t) : Inv t := by
  obtain ⟨e, he⟩ := hst
  cases e with
  | arrive i batch sync =>
    simp only [step] at he
    split at he
    · next hi =>
      cases he
      exact arrive_inv h i batch sync (by simpa using hi)
    · cases he
  | wake i =>
    simp only [step] at he
    split at he
    · next w hw =>
      split at he
      · next n hn =>
        cases he
        exact wake_inv h i w n hw hn
      · cases he
    · cases he
  | prepareEnds i outcome =>
    simp only [step] at he
    split at he
    · next w hw =>
      split at he
      · next hp =>
        cases he
        exact prepareEnds_inv h hw hp outcome
      · cases he
    · cases he
  | commitSets i q =>
    simp only [step] at he
    split at he
    · next w hw =>
      split at he
      · next l b saved hp =>
        cases he
        exact commitSets_inv h hw hp q
      · cases he
    · cases he
  | commitEnds i outcome =>
    simp only [step] at he
    split at he
    · next w hw =>
      split at he
      · next l b saved hp =>
        cases he
        exact commitEnds_inv h hw hp outcome
      · cases he
    · cases he

theorem init_inv : Inv {} := by
  refine ⟨⟨rfl, by simp, by simp, ?_, ?_⟩, ?_, ?_, ?_, ?_⟩
  all_goals simp [Calls]

theorem reachable_inv (h : Reachable s) : Inv s := by
  refine Transition.Reachable.invariant (P := Inv) (fun s₀ h₀ => ?_)
    (fun _ _ hinv hst => step_inv hinv hst) h
  cases h₀
  exact init_inv

def run (s : State) (events : List Event) : Option State := events.foldlM step s

theorem reachable_of_run {events : List Event} (h : run {} events = some s) : Reachable s := by
  suffices hrun : ∀ (events : List Event) (s₀ s : State), Reachable s₀ →
      run s₀ events = some s → Reachable s from hrun events {} s (.start rfl) h
  intro events
  induction events with
  | nil =>
    intro s₀ s h₀ hs
    cases hs
    exact h₀
  | cons e events ih =>
    intro s₀ s h₀ hs
    obtain ⟨s₁, h₁, h₂⟩ := Option.bind_eq_some_iff.mp hs
    exact ih s₁ s (h₀.next ⟨e, h₁⟩) h₂

/-! ## The contract -/

/-- The phases that only the front is in. -/
def Leads : Phase → Prop
  | .preparing => True
  | .committing _ _ _ => True
  | _ => False

/-- Not a success. -/
def Failed : CallOutcome → Prop
  | .returns (.ok _) => False
  | _ => True

theorem prepareEnds_failed (s : State) (i : CallerId) (w : Writer) (hf : Failed outcome) :
    ∃ result returned, prepareEnds s i w outcome =
      setPhase (complete i i result
        { s with prepared := Function.update s.prepared i (some outcome) }) i (.returned returned) := by
  cases outcome with
  | throws => exact ⟨_, _, rfl⟩
  | returns status =>
    cases status with
    | error e => exact ⟨_, _, rfl⟩
    | ok u => exact hf.elim

/-- A failing `prepare` removes only its leader from the deque, and of the other callers only the
new front gets to know. -/
theorem Inv.prepareEnds_alone {t : State} (h : Inv s) (hf : Failed outcome)
    (ht : step s (.prepareEnds i outcome) = some t) :
    s.writers = i :: t.writers ∧ t.completed = s.completed ++ [i] ∧ t.commits = s.commits ∧
      ∀ j, j ≠ i → t.records j = s.records j ∨
        t.writers.head? = some j ∧ t.records j = (s.records j).map notifyOne := by
  simp only [step] at ht
  split at ht
  · next w hw =>
    split at ht
    · next hp =>
      cases ht
      obtain ⟨rest, hr⟩ := h.leading_front hw (.inl hp)
      obtain ⟨result, returned, he⟩ := prepareEnds_failed s i w hf
      rw [he, finish_eq { s with prepared := Function.update s.prepared i (some outcome) } i i [] rest
        result returned hr h.writers_nodup rfl]
      refine ⟨hr, rfl, rfl, fun j hj => ?_⟩
      by_cases hhead : rest.head? = some j
      · exact .inr ⟨hhead, by simp [finishRecords, hj, hhead]⟩
      · exact .inl (by simp [finishRecords, hj, hhead])
    · cases ht
  · cases ht

theorem Inv.returned (h : Inv s) {r : Returned} (hw : s.records i = some w)
    (hp : w.phase = .returned r) :
    Observes s i w r ∧ w.batch = w.passed := by
  refine ⟨?_, by simpa [BatchKept, hp] using h.batch i w hw⟩
  rcases h.place hw with ⟨_, _, _, hf⟩ | ⟨_, _, n, hn⟩ | ⟨_, r', hob, hr | ⟨hr, _⟩⟩
  · rw [hp] at hf
    exact hf.elim
  · rw [hp] at hn
    cases hn
  · rw [hp] at hr
    cases hr
    exact hob
  · rw [hp] at hr
    cases hr

theorem Inv.order (h : Inv s) : (s.commits.flatMap Commit.members).Sublist s.arrivals := by
  rw [h.arrivals]
  rcases h.calls with ⟨_, horder, _⟩ | ⟨ended, c, hcs, _, horder, _, hrun, _⟩
  · exact horder.trans (List.sublist_append_left _ _)
  · rw [hcs, List.flatMap_append]
    exact horder.append (by simpa using hrun.sublist)

theorem Inv.front_woken (h : Inv s) (hne : s.writers ≠ [])
    (hidle : ∀ i w, s.records i = some w → ¬ Leads w.phase) :
    ∃ i w, s.writers.head? = some i ∧ s.records i = some w ∧ w.phase = .waiting true := by
  obtain ⟨i, rest, hws⟩ := List.exists_cons_of_ne_nil hne
  have hi : i ∈ s.arrivals := by rw [h.arrivals, hws]; simp
  obtain ⟨w, hw⟩ := Option.isSome_iff_exists.mp ((h.arrived i).mpr hi)
  refine ⟨i, w, by simp [hws], hw, ?_⟩
  have hfront := (h.front i rest w hws hw).2
  have hnot := hidle i w hw
  cases hp : w.phase with
  | waiting n =>
    rw [hp] at hfront
    rw [show n = true from hfront]
  | preparing => simp [hp, Leads] at hnot
  | committing l b q => simp [hp, Leads] at hnot
  | returned r =>
    rw [hp] at hfront
    exact hfront.elim

/-- In every schedule of the queue: batches reach `commit` in arrival order and at most once, in
runs from the front of the deque that the leader heads; no member of a group is forced or asks for
a sync that the group does not have; a caller returns what its group or its own `prepare` decided,
with its batch as it passed it; a failing `prepare` completes its leader alone; and a queue without
a leader has a front that was woken. -/
theorem write_queue_contract {s : State} (h : Reachable s) :
    s.arrivals.Nodup ∧ (s.commits.flatMap Commit.members).Sublist s.arrivals ∧
    (∀ c ∈ s.commits, c.members <+: c.queue ∧ c.members.head? = some c.leader ∧
      c.batch = groupBatch (passedBatches s.records c.members) ∧
      ∀ j ∈ c.members, ∃ w b, s.records j = some w ∧ w.passed = some b ∧
        (w.sync = true → c.sync = true)) ∧
    (∀ i w r, s.records i = some w → w.phase = .returned r →
      Observes s i w r ∧ w.batch = w.passed) ∧
    (∀ i outcome t, Failed outcome → step s (.prepareEnds i outcome) = some t →
      s.writers = i :: t.writers ∧ t.completed = s.completed ++ [i] ∧ t.commits = s.commits ∧
        ∀ j, j ≠ i → t.records j = s.records j ∨
          t.writers.head? = some j ∧ t.records j = (s.records j).map notifyOne) ∧
    (s.writers ≠ [] → (∀ i w, s.records i = some w → ¬ Leads w.phase) →
      ∃ i w, s.writers.head? = some i ∧ s.records i = some w ∧ w.phase = .waiting true) := by
  have hinv := reachable_inv h
  refine ⟨hinv.nodup, hinv.order, ?_, ?_, ?_, hinv.front_woken⟩
  · intro c hc
    have hok := hinv.call c hc
    exact ⟨hok.run, hok.leader, hok.batch, hok.admissible⟩
  · intro i w r hw hp
    exact hinv.returned hw hp
  · intro i outcome t hf ht
    exact hinv.prepareEnds_alone hf ht

/-- Three writers: the second joins the first one's group, the third asks for sync and stays behind
as the new front. -/
def groupSchedule : List Event :=
  [.arrive 0 (some ⟨7, 1, [1]⟩) false, .arrive 1 (some ⟨8, 1, [2]⟩) false,
    .arrive 2 (some ⟨9, 1, [3]⟩) true, .prepareEnds 0 (.returns (.ok ())), .commitSets 0 41,
    .commitEnds 0 (.returns (.ok ())), .wake 1]

theorem write_queue_contract_group : ∃ s, run {} groupSchedule = some s ∧
    s.commits.flatMap Commit.members = [0, 1] ∧ s.writers = [2] ∧
    (s.commits.flatMap Commit.members).Sublist s.arrivals := by
  obtain ⟨s, hs⟩ : ∃ s, run {} groupSchedule = some s := ⟨_, rfl⟩
  have hseen : (run {} groupSchedule).map (fun s => (s.commits.flatMap Commit.members, s.writers)) =
      some ([0, 1], [2]) := rfl
  rw [hs] at hseen
  obtain ⟨hmembers, hwriters⟩ := Prod.mk.inj (Option.some.inj hseen)
  exact ⟨s, hs, hmembers, hwriters, (write_queue_contract (reachable_of_run hs)).2.1⟩

end ModernLevelDB.WriteQueue
