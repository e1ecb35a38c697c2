import ModernLevelDB.Cache.HandleTable

/-! # A shard of the LRU cache (`cache/sharded_lru_cache_core.h`)

Entries with handles are in the in-use list, entries that only the cache references in the lru list, from
the least to the most recently released. An operation is one critical section of the mutex of the shard.
The entries that it retires are destroyed after that section, and no one else reaches them, so that their
destruction is part of the step. -/
namespace ModernLevelDB
set_option autoImplicit false

open Links

variable {K V : Type*}

/-! ## The shard -/

/-- The objects that the two lists link: their heads, and entries. -/
inductive ListNode where
  | lru
  | inUse
  | entry (entry : Nat)
deriving DecidableEq, Repr

/-- What happens to the mapping of a key. Dropped are the keys that are erased or evicted. -/
inductive CacheEvent (K : Type*) where
  | admitted (key : K) (entry : Nat)
  | dropped (key : K)

/-- The entry that was admitted last under a key, unless the key was dropped since. Events are listed
from the last on. -/
def CacheEvent.latest [DecidableEq K] : List (CacheEvent K) → K → Option Nat
  | [], _ => none
  | .admitted key entry :: events, k => if k = key then some entry else latest events k
  | .dropped key :: events, k => if k = key then none else latest events k

/-- `refs` is the reference count of an entry, and an entry is known by its address in `entries`.

The last five fields are history: the handles of each entry, how often its value was destroyed, the time
of its last release, and the events of the mapping. -/
structure LruShard (K V : Type*) where
  capacity : UInt64
  usage : UInt64 := 0
  table : HandleTable := {}
  links : Heap ListNode :=
    { next := fun node => match node with | .entry _ => none | head => some head
      previous := fun node => match node with | .entry _ => none | head => some head }
  entries : List (CacheEntry K V) := []
  inCache : Nat → Bool := fun _ => false
  refs : Nat → UInt32 := fun _ => 0
  handles : Nat → Nat := fun _ => 0
  destroyed : Nat → Nat := fun _ => 0
  clock : Nat := 0
  lastRelease : Nat → Nat := fun _ => 0
  events : List (CacheEvent K) := []

namespace LruShard

def chargeOf (shard : LruShard K V) (entry : Nat) : UInt64 :=
  (shard.entries[entry]?.map (·.charge)).getD 0

/-! ## References -/

def moveToList (list : ListNode) (entry : Nat) (shard : LruShard K V) : LruShard K V :=
  { shard with links := (shard.links.remove (.entry entry)).append list (.entry entry) }

/-- `Ref`, for a new handle. -/
def ref (entry : Nat) (shard : LruShard K V) : LruShard K V :=
  let shard := if shard.refs entry = 1 then moveToList .inUse entry shard else shard
  { shard with
    refs := Function.update shard.refs entry (shard.refs entry + 1)
    handles := Function.update shard.handles entry (shard.handles entry + 1) }

def retire (entry : Nat) (retired : Option Nat) (shard : LruShard K V) : Option Nat × LruShard K V :=
  (some entry, { shard with table := shard.table.write (.nextHash entry) retired })

def unref (entry : Nat) (retired : Option Nat) (shard : LruShard K V) : Option Nat × LruShard K V :=
  let refs := shard.refs entry - 1
  let shard := { shard with refs := Function.update shard.refs entry refs }
  if refs = 0 then retire entry retired shard
  else if shard.inCache entry = true ∧ refs = 1 then (retired, moveToList .lru entry shard)
  else (retired, shard)

def finishErase (entry : Option Nat) (retired : Option Nat) (shard : LruShard K V) :
    Option Nat × LruShard K V :=
  match entry with
  | none => (retired, shard)
  | some entry =>
      unref entry retired
        { shard with
          links := shard.links.remove (.entry entry)
          inCache := Function.update shard.inCache entry false
          usage := shard.usage - shard.chargeOf entry }

/-- `DeleteEntry` destroys the value. -/
def deleteEntry (entry : Nat) (shard : LruShard K V) : LruShard K V :=
  { shard with destroyed := Function.update shard.destroyed entry (shard.destroyed entry + 1) }

/-- The loop takes at most one round for each entry. -/
def deleteLoop : Nat → Option Nat → LruShard K V → LruShard K V
  | 0, _, shard => shard
  | _ + 1, none, shard => shard
  | rounds + 1, some entry, shard =>
      let next := shard.table.nextHash entry
      deleteLoop rounds next
        (deleteEntry entry { shard with table := shard.table.write (.nextHash entry) none })

def deleteRetired (retired : Option Nat) (shard : LruShard K V) : LruShard K V :=
  deleteLoop (shard.entries.length + 1) retired shard

/-! ## Operations -/

section Operations

variable [DecidableEq K]

/-- `EraseMapping`, with the event. -/
def eraseMapping (key : K) (hash : UInt32) (retired : Option Nat) (shard : LruShard K V) :
    Option Nat × LruShard K V :=
  let (removed, table) := shard.table.remove shard.entries key hash
  finishErase removed retired { shard with table, events := .dropped key :: shard.events }

def evictOldest (retired : Option Nat) (shard : LruShard K V) : Option Nat × LruShard K V :=
  match shard.links.next .lru with
  | some (.entry entry) =>
      match shard.entries[entry]? with
      | some found => eraseMapping found.key found.hash retired shard
      | none => (retired, shard)
  | _ => (retired, shard)

/-- The loop of `Evict` takes at most one round for each entry. -/
def evictLoop : Nat → Option Nat → LruShard K V → Option Nat × LruShard K V
  | 0, retired, shard => (retired, shard)
  | rounds + 1, retired, shard =>
      if shard.capacity < shard.usage ∧ shard.links.next .lru ≠ some .lru then
        let (retired, shard) := evictOldest retired shard
        evictLoop rounds retired shard
      else (retired, shard)

def evict (retired : Option Nat) (shard : LruShard K V) : Option Nat × LruShard K V :=
  evictLoop (shard.entries.length + 1) retired shard

def canAdmit (entry : Nat) (prepared : PreparedInsert) (shard : LruShard K V) : Bool :=
  let baseCharge := shard.usage - (prepared.existing.map shard.chargeOf).getD 0
  shard.capacity ≠ 0 ∧ shard.chargeOf entry ≤ (-1 : UInt64) - baseCharge

def commitAdmission (key : K) (entry : Nat) (prepared : PreparedInsert) (shard : LruShard K V) :
    Option (Option Nat × LruShard K V) :=
  (shard.table.commitInsert shard.entries prepared entry).map fun table =>
    let shard := { shard with
      table
      refs := Function.update shard.refs entry 2
      inCache := Function.update shard.inCache entry true
      links := shard.links.append .inUse (.entry entry)
      events := .admitted key entry :: shard.events }
    let (retired, shard) := finishErase prepared.existing none shard
    evict retired { shard with usage := shard.usage + shard.chargeOf entry }

/-- `CreateEntry`; the reference is the one of the handle that `Insert` returns. -/
def createEntry (key : K) (hash : UInt32) (value : V) (charge : UInt64) (shard : LruShard K V) :
    LruShard K V :=
  { shard with
    entries := shard.entries ++ [⟨key, hash, value, charge⟩]
    refs := Function.update shard.refs shard.entries.length 1
    handles := Function.update shard.handles shard.entries.length 1 }

/-- The result is the entry of the returned handle. When the table has to grow and the allocation of
its buckets fails (`allocates` is false), the entry is destroyed and there is no handle. -/
def insert (hashKey : K → UInt32) (key : K) (value : V) (charge : UInt64) (allocates : Bool)
    (shard : LruShard K V) : Option (Option Nat × LruShard K V) :=
  let entry := shard.entries.length
  let shard := createEntry key (hashKey key) value charge shard
  let prepared := shard.table.prepareInsert shard.entries key (hashKey key)
  if canAdmit entry prepared shard then
    if prepared.needsGrowth = true ∧ shard.table.length * 2 ≠ 0 ∧ allocates = false then
      some (none, deleteEntry entry
        { shard with
          refs := Function.update shard.refs entry 0
          handles := Function.update shard.handles entry 0 })
    else
      (commitAdmission key entry prepared shard).map fun (retired, shard) =>
        (some entry, deleteRetired retired shard)
  else some (some entry, shard)

def lookup (hashKey : K → UInt32) (key : K) (shard : LruShard K V) : Option Nat × LruShard K V :=
  match shard.table.lookup shard.entries key (hashKey key) with
  | none => (none, shard)
  | some entry => (some entry, ref entry shard)

def erase (hashKey : K → UInt32) (key : K) (shard : LruShard K V) : LruShard K V :=
  let (retired, shard) := eraseMapping key (hashKey key) none shard
  deleteRetired retired shard

end Operations

def release (entry : Nat) (shard : LruShard K V) : LruShard K V :=
  let (retired, shard) := unref entry none
    { shard with
      handles := Function.update shard.handles entry (shard.handles entry - 1)
      clock := shard.clock + 1
      lastRelease := Function.update shard.lastRelease entry (shard.clock + 1) }
  deleteRetired retired shard

def destroyLoop : Nat → Option ListNode → Option Nat → LruShard K V → Option Nat × LruShard K V
  | rounds + 1, some (.entry entry), retired, shard =>
      let next := shard.links.next (.entry entry)
      let (retired, shard) := unref entry retired
        { shard with inCache := Function.update shard.inCache entry false }
      destroyLoop rounds next retired shard
  | _, _, retired, shard => (retired, shard)

def destroyShard (shard : LruShard K V) : LruShard K V :=
  let (retired, shard) :=
    destroyLoop (shard.entries.length + 1) (shard.links.next .lru) none shard
  deleteRetired retired { shard with usage := 0 }

end LruShard
end ModernLevelDB
