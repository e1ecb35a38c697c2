import ModernLevelDB.Format.WriteBatch
import ModernLevelDB.Lib.Transition

/-! # The write queue of `engine/write_path.h`

`Write` and `Force` calls queue up under the database mutex. The front caller leads: it prepares,
takes on the callers behind it as one group, commits the group with the mutex released, and then
completes every caller of the group.

A state is what the mutex protects at an instant at which it may be taken by another caller: the
deque, the stack record of every caller that arrived, and the scratch batch `group_`. One event is
one critical section of the source (from taking the mutex to releasing or waiting), so every
interleaving of callers is a list of events. `prepare` and `commit` are the caller's callbacks; both
may release the mutex, so other events can happen between their start and their outcome, and their
outcomes are arbitrary. An allocation that throws while the group is built unwinds through the same
guard as a `prepare` that throws; it is that event. -/
namespace ModernLevelDB.WriteQueue
set_option autoImplicit false

abbrev CallerId := Nat

/-- A group may grow to this size, or by `smallBatchGrowth` when its first batch is at most that
large. -/
def maximumGroupSize : Nat := 2 ^ 20
def smallBatchGrowth : Nat := 128 * 2 ^ 10

/-- How a callback ends. -/
inductive CallOutcome where
  | returns (status : Status)
  | throws

/-- What a caller of `Write` or `Force` observes. `undefined` is the read of a null result pointer,
which the source relies on never happening. -/
inductive Returned where
  | status (status : Status)
  | exception
  | undefined

/-- Where a writer is in its call. -/
inductive Phase where
  /-- In `woken.wait`; `notified` once `notify_one` was called and not yet consumed. -/
  | waiting (notified : Bool)
  | preparing
  /-- The commit callback runs on the leader's own batch, or on `group_` when `scratch` is set;
  `saved` is the sequence the `SequenceGuard` restores. -/
  | committing (last : CallerId) (scratch : Bool) (saved : UInt64)
  | returned (result : Returned)

/-- `WriteQueue::Writer`. `batch` is the caller's batch object (null for `Force`) as it is now;
`passed` is a history variable with its value when the caller passed it. -/
structure Writer where
  batch : Option EncodedWriteBatch
  sync : Bool
  done : Bool := false
  result : Option Status := none
  phase : Phase
  passed : Option EncodedWriteBatch

/-- A call of the commit callback, with the queue at its start. -/
structure Commit where
  leader : CallerId
  members : List CallerId
  sync : Bool
  batch : EncodedWriteBatch
  queue : List CallerId
  outcome : Option CallOutcome

/-- `writers`, `records` and `group` are the source's state. The other fields are history: the
callers in arrival order, those that `Complete` removed, the outcome of each `prepare`, and the
calls of `commit`. -/
structure State where
  writers : List CallerId := []
  records : CallerId → Option Writer := fun _ => none
  group : EncodedWriteBatch := .cleared
  arrivals : List CallerId := []
  completed : List CallerId := []
  prepared : CallerId → Option CallOutcome := fun _ => none
  commits : List Commit := []

/-! ## Building a group -/

def groupSizeLimit (leaderSize : Nat) : Nat :=
  if leaderSize ≤ smallBatchGrowth then leaderSize + smallBatchGrowth else maximumGroupSize

/-- `CompatibleFollower`, with the follower's batch when it has one. -/
def compatibleFollower (leaderSync : Bool) (follower : Writer) : Option EncodedWriteBatch :=
  match follower.batch with
  | none => none
  | some batch => if !follower.sync || leaderSync then some batch else none

/-- `Group`: the batch that `commit` gets and the group's last writer. `members` lists the writers
from the leader through `last`. -/
structure Group where
  scratch : Bool
  batch : EncodedWriteBatch
  last : CallerId
  members : List CallerId

/-- `AppendFollowerBatch`: the first follower moves the group into the cleared scratch batch. -/
def appendFollowerBatch (group : Group) (leaderBatch followerBatch : EncodedWriteBatch) :
    EncodedWriteBatch :=
  if group.scratch then group.batch.append followerBatch
  else (EncodedWriteBatch.cleared.append leaderBatch).append followerBatch

def addFollowers (records : CallerId → Option Writer) (leaderSync : Bool)
    (leaderBatch : EncodedWriteBatch) (maximumSize : Nat) :
    List CallerId → Nat → Group → Group
  | [], _, group => group
  | next :: rest, size, group =>
      match (records next).bind (compatibleFollower leaderSync) with
      | none => group
      | some batch =>
          if size + batch.encodedSize ≤ maximumSize then
            addFollowers records leaderSync leaderBatch maximumSize rest (size + batch.encodedSize)
              { scratch := true, batch := appendFollowerBatch group leaderBatch batch, last := next,
                members := group.members ++ [next] }
          else group

def buildGroup (s : State) (leader : CallerId) (leaderBatch : EncodedWriteBatch)
    (leaderSync : Bool) : Group :=
  addFollowers s.records leaderSync leaderBatch (groupSizeLimit leaderBatch.encodedSize)
    s.writers.tail leaderBatch.encodedSize
    { scratch := false, batch := leaderBatch, last := leader, members := [leader] }

/-! ## Completion -/

def notifyOne (writer : Writer) : Writer :=
  match writer.phase with
  | .waiting _ => { writer with phase := .waiting true }
  | _ => writer

def publishFollowerResult (result : Option Status) (writer : Writer) : Writer :=
  notifyOne { writer with result, done := true }

def modify (records : CallerId → Option Writer) (i : CallerId) (f : Writer → Writer) :
    CallerId → Option Writer :=
  Function.update records i ((records i).map f)

/-- The loop of `Complete`: removes the writers from the front through `last` and gives every one
but the leader the result. -/
def popThrough (leader last : CallerId) (result : Option Status) :
    List CallerId → State → State
  | [], s => { s with writers := [] }
  | ready :: rest, s =>
      let s := { s with
        writers := rest
        completed := s.completed ++ [ready]
        records := if ready = leader then s.records
          else modify s.records ready (publishFollowerResult result) }
      if ready = last then s else popThrough leader last result rest s

def wakeNextWriter (s : State) : State :=
  match s.writers with
  | [] => s
  | next :: _ => { s with records := modify s.records next notifyOne }

def complete (leader last : CallerId) (result : Option Status) (s : State) : State :=
  wakeNextWriter (popThrough leader last result s.writers s)

/-- The result of a group whose commit threw. -/
def aborted : Status :=
  .error (Error.aborted "write aborted by an exception while its group committed")

def setPhase (s : State) (i : CallerId) (phase : Phase) : State :=
  { s with records := modify s.records i (fun w => { w with phase }) }

/-! ## The critical sections -/

/-- The steps of the callers. -/
inductive Event where
  /-- `WaitForTurn` up to the wait, or to its first check when the queue was empty. -/
  | arrive (i : CallerId) (batch : Option EncodedWriteBatch) (sync : Bool)
  /-- A waiting caller gets the mutex back, after a notification or spuriously. -/
  | wake (i : CallerId)
  | prepareEnds (i : CallerId) (outcome : CallOutcome)
  /-- The commit callback sets the hidden sequence of the batch it was given. -/
  | commitSets (i : CallerId) (sequence : UInt64)
  | commitEnds (i : CallerId) (outcome : CallOutcome)

def arrive (s : State) (i : CallerId) (batch : Option EncodedWriteBatch) (sync : Bool) : State :=
  { s with
    writers := s.writers ++ [i]
    arrivals := s.arrivals ++ [i]
    records := Function.update s.records i (some
      { batch, sync, passed := batch,
        phase := if s.writers = [] then .preparing else .waiting false }) }

/-- The predicate of `WaitForTurn`, and the early return of `Run` for a completed follower. -/
def wake (s : State) (i : CallerId) (w : Writer) : State :=
  if w.done then
    setPhase s i (.returned (match w.result with
      | some status => .status status
      | none => .undefined))
  else if s.writers.head? = some i then setPhase s i .preparing
  else setPhase s i (.waiting false)

/-- `Run` after a successful `prepare`: the group is built and passed to `commit`. -/
def beginCommit (s : State) (i : CallerId) (w : Writer) (batch : EncodedWriteBatch) : State :=
  let group := buildGroup s i batch w.sync
  let call : Commit :=
    { leader := i, members := group.members, sync := w.sync, batch := group.batch,
      queue := s.writers, outcome := none }
  let s := { s with
    group := if group.scratch then group.batch else s.group
    commits := s.commits ++ [call] }
  setPhase s i (.committing group.last group.scratch group.batch.sequence)

def prepareEnds (s : State) (i : CallerId) (w : Writer) (outcome : CallOutcome) : State :=
  let s := { s with prepared := Function.update s.prepared i (some outcome) }
  match outcome with
  | .throws => setPhase (complete i i (some aborted) s) i (.returned .exception)
  | .returns (.error e) => setPhase (complete i i none s) i (.returned (.status (.error e)))
  | .returns (.ok u) =>
      match w.batch with
      | none => setPhase (complete i i none s) i (.returned (.status (.ok u)))
      | some batch => beginCommit s i w batch

/-- Writes the hidden sequence of the batch that the group's commit works on. -/
def setGroupSequence (s : State) (i : CallerId) (scratch : Bool) (sequence : UInt64) : State :=
  if scratch then { s with group := s.group.setSequence sequence }
  else { s with
    records := modify s.records i (fun w => { w with batch := w.batch.map (·.setSequence sequence) }) }

def recordOutcome (commits : List Commit) (outcome : CallOutcome) : List Commit :=
  commits.map (fun c => if c.outcome.isNone then { c with outcome := some outcome } else c)

/-- The end of `CommitSingleWriter` and `CommitWriterGroup`: only a group with followers has a
shared result. -/
def commitEnds (s : State) (i last : CallerId) (scratch : Bool) (saved : UInt64)
    (outcome : CallOutcome) : State :=
  let s := setGroupSequence s i scratch saved
  let s := { s with commits := recordOutcome s.commits outcome }
  match outcome with
  | .throws => setPhase (complete i last (some aborted) s) i (.returned .exception)
  | .returns status =>
      setPhase (complete i last (if last = i then none else some status) s) i
        (.returned (.status status))

/-- One event, if the caller it names is at that point of its call. -/
def step (s : State) : Event → Option State
  | .arrive i batch sync => if (s.records i).isNone then some (arrive s i batch sync) else none
  | .wake i =>
      match s.records i with
      | some w =>
          match w.phase with
          | .waiting _ => some (wake s i w)
          | _ => none
      | none => none
  | .prepareEnds i outcome =>
      match s.records i with
      | some w =>
          match w.phase with
          | .preparing => some (prepareEnds s i w outcome)
          | _ => none
      | none => none
  | .commitSets i sequence =>
      match s.records i with
      | some w =>
          match w.phase with
          | .committing _ scratch _ => some (setGroupSequence s i scratch sequence)
          | _ => none
      | none => none
  | .commitEnds i outcome =>
      match s.records i with
      | some w =>
          match w.phase with
          | .committing last scratch saved => some (commitEnds s i last scratch saved outcome)
          | _ => none
      | none => none

/-- Some event happens. -/
def Step (s t : State) : Prop := ∃ e, step s e = some t

/-- The states from an empty queue on. -/
def Reachable (s : State) : Prop := Transition.Reachable (fun s => s = {}) Step s

end ModernLevelDB.WriteQueue
