import ModernLevelDB.Lib.Transition
import Mathlib

/-! # Reuse of table readers (`engine/table_cache.h`)

Threads call `Get` and `Evict` on shared-reader table caches. One event is one atomic step of one
thread: a load, a store or a compare-and-swap of a shard's counters, an operation of the locked cache
of tables, or the locking of a weak owner; what a thread does with its own data belongs to the step
before it. A compare-and-swap may fail without a reason, and a weak owner may have expired: the event
says so.

Caches are known by their identity tokens, which are never equal, and several of them may use one slot
of a thread's hint array. -/
namespace ModernLevelDB.TableCache
set_option autoImplicit false

/-! ## States -/

/-- `Terminal`, the largest value of a generation. -/
def terminal : Nat := 2 ^ 64 - 1

/-- The capacity of the shards of each cache, the shard of a file number, and the slot of its hint. -/
structure Layout (C S P : Type) where
  shardCapacity : C → Nat
  shardOf : Nat → S
  slotOf : C → Nat → P

/-- A table object, with the cache and the file number that it was opened for. -/
structure TableReader (C : Type) where
  id : Nat
  identity : C
  fileNumber : Nat
deriving DecidableEq

/-- A generation, and the instant at which it was loaded. -/
structure Sample where
  generation : Nat
  loaded : Nat
deriving DecidableEq

/-- `ReaderHint`; `found` is history: the instant at which the `Find` of its table started. -/
structure ReaderHint (C : Type) where
  identity : C
  fileNumber : Nat
  sample : Sample
  table : TableReader C
  found : Nat
deriving DecidableEq

/-- A call of `Get`. -/
structure GetCall (C : Type) where
  identity : C
  fileNumber : Nat
  started : Nat
deriving DecidableEq

/-- The next step of `GetShared`. The sample is there if the gate was open, as the source's pointer to
the hint is. -/
inductive GetPhase (C : Type) where
  | gate
  | load
  | lock (hint : ReaderHint C) (sample : Sample)
  | lookup (sample : Option Sample)
  | openTable (sample : Option Sample) (found : Nat)
  | recordLoad (sample : Option Sample) (found : Nat) (table : TableReader C)
  | recordSwap (sample : Option Sample) (found : Nat) (table : TableReader C) (count : Nat)
  | insert (sample : Option Sample) (found : Nat) (table : TableReader C)
  | recheckGate (sample : Sample) (found : Nat) (table : TableReader C)
  | recheckGeneration (sample : Sample) (found : Nat) (table : TableReader C)
  | serve (table : TableReader C) (hint : Option (ReaderHint C × Sample))
deriving DecidableEq

/-- The next step of `Evict`. -/
inductive EvictPhase where
  | erase
  | load (erased : Nat)
  | close (erased observed : Nat)
  | swap (erased observed : Nat)
deriving DecidableEq

/-- What a thread is doing. -/
inductive Phase (C : Type) where
  | idle
  | get (call : GetCall C) (phase : GetPhase C)
  | evict (identity : C) (fileNumber : Nat) (phase : EvictPhase)
deriving DecidableEq

/-- An `Evict` that has returned: when it erased, when it returned. -/
structure Eviction (C : Type) where
  identity : C
  fileNumber : Nat
  erased : Nat
  returned : Nat

/-- `opens` and `generation` are the fields of `ReuseShard`. History: the clock counts the steps,
`ended` is the instant at which a generation became the largest one, and `evictions` are those that
have returned. -/
structure State (C S P T : Type) where
  opens : C → S → Nat
  generation : C → S → Nat
  tables : C → Nat → Option (TableReader C) := fun _ _ => none
  nextTable : Nat := 0
  hints : T → P → Option (ReaderHint C) := fun _ _ => none
  threads : T → Phase C := fun _ => .idle
  clock : Nat := 0
  ended : C → S → Option Nat := fun _ _ => none
  evictions : List (Eviction C) := []

/-! ## Steps -/

section Steps

variable {C S P T : Type} [DecidableEq C] [DecidableEq S] [DecidableEq P] [DecidableEq T]

def set {A B : Type} [DecidableEq A] (f : C → A → B) (c : C) (a : A) (b : B) : C → A → B :=
  Function.update f c (Function.update (f c) a b)

def enabled (capacity opens : Nat) : Bool := capacity ≠ 0 && opens ≤ capacity

def State.goTo (st : State C S P T) (t : T) (phase : Phase C) : State C S P T :=
  { st with threads := Function.update st.threads t phase, clock := st.clock + 1 }

variable (layout : Layout C S P)

def State.shardGeneration (st : State C S P T) (identity : C) (fileNumber : Nat) : Nat :=
  st.generation identity (layout.shardOf fileNumber)

def State.shardOpens (st : State C S P T) (identity : C) (fileNumber : Nat) : Nat :=
  st.opens identity (layout.shardOf fileNumber)

def loadGeneration (st : State C S P T) (t : T) (call : GetCall C) : GetPhase C :=
  let sample : Sample := ⟨st.shardGeneration layout call.identity call.fileNumber, st.clock⟩
  match st.hints t (layout.slotOf call.identity call.fileNumber) with
  | none => .lookup (some sample)
  | some hint =>
      if hint.fileNumber = call.fileNumber ∧ hint.sample.generation = sample.generation ∧
          hint.identity = call.identity then .lock hint sample
      else .lookup (some sample)

def afterFind (sample : Option Sample) (found : Nat) (table : TableReader C) : GetPhase C :=
  match sample with
  | none => .serve table none
  | some sample => .recheckGate sample found table

/-- A step of `GetShared`, of `Find` and `OpenTable` in it, and of `RecordOpen`. -/
def getStep (st : State C S P T) (t : T) (call : GetCall C) (outcome : Bool) :
    GetPhase C → State C S P T
  | .gate =>
      let isEnabled := enabled (layout.shardCapacity call.identity)
        (st.shardOpens layout call.identity call.fileNumber)
      st.goTo t (.get call (if isEnabled then .load else .lookup none))
  | .load => st.goTo t (.get call (loadGeneration layout st t call))
  | .lock hint sample =>
      st.goTo t (.get call (if outcome then .serve hint.table (some (hint, sample))
        else .lookup (some sample)))
  | .lookup sample =>
      match st.tables call.identity call.fileNumber with
      | some table => st.goTo t (.get call (afterFind sample st.clock table))
      | none => st.goTo t (.get call (.openTable sample st.clock))
  | .openTable sample found =>
      if outcome then
        { st with nextTable := st.nextTable + 1 }.goTo t
          (.get call (.recordLoad sample found ⟨st.nextTable, call.identity, call.fileNumber⟩))
      else st.goTo t .idle
  | .recordLoad sample found table =>
      st.goTo t (.get call (.recordSwap sample found table
        (st.shardOpens layout call.identity call.fileNumber)))
  | .recordSwap sample found table count =>
      if count ≤ layout.shardCapacity call.identity then
        if outcome ∧ st.shardOpens layout call.identity call.fileNumber = count then
          { st with
            opens := set st.opens call.identity (layout.shardOf call.fileNumber) (count + 1) }.goTo t
              (.get call (.insert sample found table))
        else
          st.goTo t (.get call (.recordSwap sample found table
            (st.shardOpens layout call.identity call.fileNumber)))
      else st.goTo t (.get call (.insert sample found table))
  | .insert sample found table =>
      if outcome then
        { st with tables := set st.tables call.identity call.fileNumber (some table) }.goTo t
          (.get call (afterFind sample found table))
      else st.goTo t .idle
  | .recheckGate sample found table =>
      let isEnabled := enabled (layout.shardCapacity call.identity)
        (st.shardOpens layout call.identity call.fileNumber)
      st.goTo t (.get call (if isEnabled then .recheckGeneration sample found table
        else .serve table none))
  | .recheckGeneration sample found table =>
      if st.shardGeneration layout call.identity call.fileNumber = sample.generation then
        { st with
          hints := Function.update st.hints t (Function.update (st.hints t)
            (layout.slotOf call.identity call.fileNumber)
            (some ⟨call.identity, call.fileNumber, sample, table, found⟩)) }.goTo t
              (.get call (.serve table none))
      else st.goTo t (.get call (.serve table none))
  | .serve _ _ => st.goTo t .idle

def State.evicted (st : State C S P T) (t : T) (identity : C) (fileNumber erased : Nat) :
    State C S P T :=
  { st with evictions := ⟨identity, fileNumber, erased, st.clock⟩ :: st.evictions }.goTo t .idle

/-- A step of `Evict`, of `BeginInvalidation` and of `CompleteInvalidation`. -/
def evictStep (st : State C S P T) (t : T) (identity : C) (fileNumber : Nat) (outcome : Bool) :
    EvictPhase → State C S P T
  | .erase =>
      { st with tables := set st.tables identity fileNumber none }.goTo t
        (.evict identity fileNumber (.load st.clock))
  | .load erased =>
      let observed := st.shardGeneration layout identity fileNumber
      st.goTo t (.evict identity fileNumber
        (if observed ≥ terminal - 1 then .close erased observed else .swap erased observed))
  | .close erased observed =>
      { st with
        opens := set st.opens identity (layout.shardOf fileNumber)
          (layout.shardCapacity identity + 1) }.goTo t
            (.evict identity fileNumber (.swap erased observed))
  | .swap erased observed =>
      if observed = terminal then st.evicted t identity fileNumber erased
      else if outcome ∧ st.shardGeneration layout identity fileNumber = observed then
        { st with
          generation := set st.generation identity (layout.shardOf fileNumber) (observed + 1)
          ended := if observed + 1 = terminal then
            set st.ended identity (layout.shardOf fileNumber) (some st.clock) else st.ended }.evicted
              t identity fileNumber erased
      else st.goTo t (.evict identity fileNumber (.load erased))

/-- A call begins, or a thread takes its next step. -/
inductive Event (C T : Type) where
  | get (t : T) (identity : C) (fileNumber : Nat)
  | evict (t : T) (identity : C) (fileNumber : Nat)
  | advance (t : T) (outcome : Bool)
  /-- The cache drops a table that it has no room for. -/
  | drop (identity : C) (fileNumber : Nat)

def step (st : State C S P T) : Event C T → Option (State C S P T)
  | .get t identity fileNumber =>
      if st.threads t = .idle then
        some (st.goTo t (.get ⟨identity, fileNumber, st.clock⟩ .gate))
      else none
  | .evict t identity fileNumber =>
      if st.threads t = .idle then some (st.goTo t (.evict identity fileNumber .erase)) else none
  | .advance t outcome =>
      match st.threads t with
      | .idle => none
      | .get call phase => some (getStep layout st t call outcome phase)
      | .evict identity fileNumber phase =>
          some (evictStep layout st t identity fileNumber outcome phase)
  | .drop identity fileNumber =>
      some { st with tables := set st.tables identity fileNumber none, clock := st.clock + 1 }

/-- Some thread takes a step. -/
def Step (st st' : State C S P T) : Prop := ∃ event, step layout st event = some st'

/-- Caches before their first call. Their generations may be near the largest one already, but have
not come to it. -/
structure Initial (st : State C S P T) : Prop where
  fresh : st = { opens := st.opens, generation := st.generation }
  generation_lt : ∀ c s, st.generation c s < terminal

def run (events : List (Event C T)) (st : State C S P T) : Option (State C S P T) :=
  events.foldlM (step layout) st

end Steps

end ModernLevelDB.TableCache
