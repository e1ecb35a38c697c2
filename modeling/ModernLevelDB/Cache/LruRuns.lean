import ModernLevelDB.Cache.LruInsert
import ModernLevelDB.Lib.Transition

/-! # Runs of a shard

The lists, the usage and the mapping are right in every state of a run, as long as no reference count
passes `2 ^ 32 - 1` and the table has fewer than `2 ^ 31` buckets when it grows. Neither is checked: a
count that passes its maximum starts again from zero. -/
namespace ModernLevelDB
set_option autoImplicit false

open Links HandleTable

variable {K V : Type*} [DecidableEq K]

/-- Calls of the shard; `allocates` says whether a growth gets its buckets. -/
inductive CacheOp (K V : Type*) where
  | insert (key : K) (value : V) (charge : UInt64) (allocates : Bool)
  | lookup (key : K)
  | erase (key : K)
  | release (entry : Nat)

namespace LruShard

/-! ## Steps -/

/-- The entry of the handle that the operation returns, and the shard. A handle can be released once. -/
def perform (hashKey : K → UInt32) (op : CacheOp K V) (shard : LruShard K V) :
    Option (Option Nat × LruShard K V) :=
  match op with
  | .insert key value charge allocates => insert hashKey key value charge allocates shard
  | .lookup key => some (lookup hashKey key shard)
  | .erase key => some (none, erase hashKey key shard)
  | .release entry => if 0 < shard.handles entry then some (none, release entry shard) else none

/-- The count of references and the length of the table stay within 32 bits. -/
def Within (hashKey : K → UInt32) (op : CacheOp K V) (shard : LruShard K V) : Prop :=
  match op with
  | .insert key value charge _ => Grows hashKey key value charge shard
  | .lookup key =>
      ∀ entry, shard.table.lookup shard.entries key (hashKey key) = some entry →
        shard.refs entry + 1 ≠ 0
  | _ => True

/-- An allowed call that returns. -/
def Step (hashKey : K → UInt32) (allowed : CacheOp K V → LruShard K V → Prop)
    (shard shard' : LruShard K V) : Prop :=
  ∃ op result, allowed op shard ∧ perform hashKey op shard = some (result, shard')

/-! ## What holds in every state -/

/-- The lists hold the mapped entries, each once. A value is destroyed when its entry has neither a
mapping nor a handle. -/
structure Contract (hashKey : K → UInt32) (shard : LruShard K V) (lru inUse : List Nat) : Prop where
  table : Stores shard.entries shard.table shard.mapping
  lookup : ∀ key, (shard.lookup hashKey key).1 = shard.mapping key
  links : Rings shard.links .lru (lru.map .entry) .inUse (inUse.map .entry)
  mem_lru : ∀ i, i ∈ lru ↔ (∃ key, shard.mapping key = some i) ∧ shard.handles i = 0
  order : lru.Pairwise fun i j => shard.lastRelease i < shard.lastRelease j
  mem_inUse : ∀ i, i ∈ inUse ↔ (∃ key, shard.mapping key = some i) ∧ 0 < shard.handles i
  usage : shard.usage.toNat = shard.charges (lru ++ inUse)
  destroyed : ∀ i < shard.entries.length, shard.destroyed i = 0 ∨ shard.destroyed i = 1 ∧
    (∀ key, shard.mapping key ≠ some i) ∧ shard.handles i = 0
  kept : ∀ i < shard.entries.length, shard.destroyed i = 0 →
    (∃ key, shard.mapping key = some i) ∨ 0 < shard.handles i
  last : (∀ i, shard.handles i = 0) →
    ∀ i < shard.entries.length, (destroyShard shard).destroyed i = 1

/-- What a call returns and changes. -/
def Outcome (hashKey : K → UInt32) (op : CacheOp K V) (shard : LruShard K V) (lru : List Nat)
    (result : Option Nat) (shard' : LruShard K V) (lru' : List Nat) : Prop :=
  match op with
  | .insert key value charge _ =>
      shard'.entries = shard.entries ++ [⟨key, hashKey key, value, charge⟩] ∧
        Inserted shard lru key result shard' lru'
  | .lookup key =>
      result = shard.mapping key ∧ shard'.entries = shard.entries ∧ shard'.events = shard.events ∧
        ∀ i, shard'.handles i = shard.handles i + if result = some i then 1 else 0
  | .erase key =>
      shard'.entries = shard.entries ∧ shard'.handles = shard.handles ∧
        shard'.events = .dropped key :: shard.events
  | .release entry =>
      shard'.entries = shard.entries ∧ shard'.events = shard.events ∧
        shard'.handles = Function.update shard.handles entry (shard.handles entry - 1)

variable {hashKey : K → UInt32} {shard : LruShard K V} {lru inUse : List Nat}

theorem Represents.inCache_iff (h : Represents hashKey shard { lru, inUse }) (i : Nat) :
    shard.inCache i = true ↔ ∃ key, shard.mapping key = some i := by
  rw [h.cached]
  simp

theorem Represents.contract (h : Represents hashKey shard { lru, inUse }) :
    Contract hashKey shard lru inUse where
  table := h.stores
  lookup := by
    intro key
    unfold LruShard.lookup
    rw [h.stores.lookup h.hash key]
    cases shard.mapping key with
    | none => rfl
    | some entry => rfl
  links := h.rings
  mem_lru := fun i => by rw [← h.inCache_iff]; exact h.lru i
  order := h.order
  mem_inUse := fun i => by rw [← h.inCache_iff]; exact h.inUse i
  usage := h.usage
  destroyed := by
    intro i hi
    rw [h.destroyed i]
    split
    · rename_i hall
      exact .inr ⟨rfl, h.unmapped_of_inCache hall.2.1, hall.2.2.1⟩
    · exact .inl rfl
  kept := by
    intro i hi hdestroyed
    rw [h.destroyed i] at hdestroyed
    by_contra hnone
    rw [not_or, ← h.inCache_iff] at hnone
    rw [if_pos ⟨hi, by simpa using hnone.1, by omega, List.not_mem_nil⟩] at hdestroyed
    cases hdestroyed
  last := fun hhandles i hi => h.destroyShard hhandles hi

/-- Each operation within the limits is defined, and keeps the shard right. -/
theorem Represents.perform (h : Represents hashKey shard { lru, inUse }) {op : CacheOp K V}
    (hwithin : Within hashKey op shard) (hlegal : ∀ entry, op = .release entry → 0 < shard.handles entry) :
    ∃ result shard' lru' inUse', perform hashKey op shard = some (result, shard') ∧
      Represents hashKey shard' { lru := lru', inUse := inUse' } ∧
      Outcome hashKey op shard lru result shard' lru' := by
  cases op with
  | insert key value charge allocates =>
    obtain ⟨result, shard', lru', inUse', hinsert, hrep, hentries, hinserted⟩ :=
      h.insert key value charge allocates hwithin
    exact ⟨result, shard', lru', inUse', hinsert, hrep, hentries, hinserted⟩
  | lookup key =>
    have hrefs : ∀ entry, shard.mapping key = some entry → shard.refs entry + 1 ≠ 0 := by
      intro entry hentry
      exact hwithin entry ((h.stores.lookup h.hash key).trans hentry)
    obtain ⟨shard', lru', inUse', hlookup, hrep, hentries, hevents, hhandles⟩ := h.lookup key hrefs
    exact ⟨_, shard', lru', inUse', congrArg some hlookup, hrep, rfl, hentries, hevents, hhandles⟩
  | erase key =>
    obtain ⟨shard', lru', inUse', herase, hrep, hentries, hhandles, hevents⟩ := h.erase key
    exact ⟨none, shard', lru', inUse', congrArg (fun s => some (none, s)) herase, hrep,
      hentries, hhandles, hevents⟩
  | release entry =>
    obtain ⟨lru', inUse', hrep⟩ := h.release (hlegal entry rfl)
    exact ⟨none, _, lru', inUse', if_pos (hlegal entry rfl), hrep, release_frame entry shard⟩

theorem represents_reachable {capacity : UInt64}
    (h : Transition.Reachable (· = ({ capacity } : LruShard K V)) (Step hashKey (Within hashKey)) shard) :
    ∃ lru inUse, Represents hashKey shard { lru, inUse } := by
  refine h.invariant (P := fun s => ∃ lru inUse, Represents hashKey s { lru, inUse }) ?_ ?_
  · rintro _ rfl
    exact ⟨[], [], represents_empty hashKey capacity⟩
  · rintro s t ⟨lru, inUse, hrep⟩ ⟨op, result, hwithin, hperform⟩
    have hlegal : ∀ entry, op = .release entry → 0 < s.handles entry := by
      rintro entry rfl
      by_contra hzero
      have hnone : LruShard.perform hashKey (.release entry) s = none := if_neg hzero
      rw [hnone] at hperform
      cases hperform
    obtain ⟨_, _, lru', inUse', hperform', hrep', -⟩ := hrep.perform hwithin hlegal
    rw [hperform] at hperform'
    cases hperform'
    exact ⟨lru', inUse', hrep'⟩

/-- In every run whose operations stay within 32 bits, every state has the lists, the usage and the
mapping of the operations so far, and every further operation keeps them: it evicts from the front of the
lru list and destroys a value once its entry has neither a mapping nor a handle. -/
theorem lruShard_behaves {capacity : UInt64}
    (h : Transition.Reachable (· = ({ capacity } : LruShard K V)) (Step hashKey (Within hashKey)) shard) :
    ∃ lru inUse, Contract hashKey shard lru inUse ∧
      ∀ op, Within hashKey op shard → (∀ entry, op = .release entry → 0 < shard.handles entry) →
        ∃ result shard' lru' inUse', perform hashKey op shard = some (result, shard') ∧
          Contract hashKey shard' lru' inUse' ∧ Outcome hashKey op shard lru result shard' lru' := by
  obtain ⟨lru, inUse, hrep⟩ := represents_reachable h
  refine ⟨lru, inUse, hrep.contract, fun op hwithin hlegal => ?_⟩
  obtain ⟨result, shard', lru', inUse', hperform, hrep', houtcome⟩ := hrep.perform hwithin hlegal
  exact ⟨result, shard', lru', inUse', hperform, hrep'.contract, houtcome⟩

/-- An entry was inserted and released, and the shard has no room for two: the next insertion evicts
and destroys it. -/
theorem lruShard_behaves_evicting :
    let run (op : CacheOp Nat Unit) (shard : LruShard Nat Unit) :=
      ((perform (fun _ => 0) op shard).map (·.2)).getD shard
    let shard := run (.release 0) (run (.insert 5 () 1 true) { capacity := 1 })
    ∃ lru inUse, Contract (fun _ => 0) shard lru inUse ∧
      ∃ result shard' lru' inUse', perform (fun _ => 0) (.insert 6 () 1 true) shard =
          some (result, shard') ∧ Contract (fun _ => 0) shard' lru' inUse' ∧
        Outcome (fun _ => 0) (.insert 6 () 1 true) shard lru result shard' lru' ∧
        shard'.mapping 5 = none ∧ shard'.mapping 6 = some 1 ∧ shard'.destroyed 0 = 1 := by
  intro run shard
  have hpinned : Transition.Reachable (· = ({ capacity := 1 } : LruShard Nat Unit))
      (Step (fun _ => 0) (Within fun _ => 0)) (run (.insert 5 () 1 true) { capacity := 1 }) :=
    .next (.start rfl) ⟨.insert 5 () 1 true, some 0, fun _ _ => by decide, rfl⟩
  obtain ⟨lru, inUse, hcontract, hnext⟩ :=
    lruShard_behaves (hpinned.next (t := shard) ⟨.release 0, none, trivial, rfl⟩)
  obtain ⟨result, shard', lru', inUse', hperform, hcontract', houtcome⟩ :=
    hnext (.insert 6 () 1 true) (fun _ _ => by decide) (fun _ h => by cases h)
  have hfacts : (perform (fun _ => 0) (.insert 6 () 1 true) shard).map (fun r =>
      (r.2.mapping 5, r.2.mapping 6, r.2.destroyed 0)) = some (none, some 1, 1) := by
    simp only [shard, run]
    decide +kernel
  rw [hperform] at hfacts
  obtain ⟨hold, hnew, hdestroyed⟩ : shard'.mapping 5 = none ∧ shard'.mapping 6 = some 1 ∧
      shard'.destroyed 0 = 1 := by simpa using hfacts
  exact ⟨lru, inUse, hcontract, result, shard', lru', inUse', hperform, hcontract', houtcome, hold,
    hnew, hdestroyed⟩

/-! ## A count that starts again -/

theorem lookups_eq {key : K} {entry : Nat}
    (hlookup : shard.table.lookup shard.entries key (hashKey key) = some entry) (n : Nat)
    (hne : ∀ k < n, shard.refs entry + UInt32.ofNat k ≠ 1) :
    (fun s => (lookup hashKey key s).2)^[n] shard =
      { shard with
        refs := Function.update shard.refs entry (shard.refs entry + UInt32.ofNat n)
        handles := Function.update shard.handles entry (shard.handles entry + n) } := by
  induction n with
  | zero => simp
  | succ n ih =>
    rw [Function.iterate_succ_apply', ih (fun k hk => hne k (Nat.lt_succ_of_lt hk))]
    unfold LruShard.lookup
    simp only [hlookup]
    unfold ref
    simp only [Function.update_self]
    rw [if_neg (hne n (Nat.lt_succ_self n))]
    simp [UInt32.ofNat_add, UInt32.add_assoc, Nat.add_assoc]

omit [DecidableEq K] in
theorem release_destroys {entry : Nat} (hlt : entry < shard.entries.length)
    (hrefs : shard.refs entry = 1) :
    (release entry shard).destroyed entry = shard.destroyed entry + 1 := by
  have hchain : Path (shard.table.write (.nextHash entry) none).nextHash (some entry) [entry] none :=
    ⟨rfl, Function.update_self _ _ _⟩
  unfold release unref retire
  simp only [hrefs]
  obtain ⟨table, hdelete, -⟩ := @deleteLoop_spec K V [entry] (shard.entries.length + 1) (some entry)
    { shard with
      table := shard.table.write (.nextHash entry) none
      refs := Function.update shard.refs entry 0
      handles := Function.update shard.handles entry (shard.handles entry - 1)
      clock := shard.clock + 1
      lastRelease := Function.update shard.lastRelease entry (shard.clock + 1) }
    hchain (List.nodup_singleton entry) (Nat.succ_lt_succ (Nat.zero_lt_of_lt hlt))
  refine (congrArg (·.destroyed entry) hdelete).trans ?_
  simp

theorem reachable_lookups {capacity : UInt64} {key : K}
    (h : Transition.Reachable (· = ({ capacity } : LruShard K V)) (Step hashKey fun _ _ => True) shard)
    (n : Nat) :
    Transition.Reachable (· = ({ capacity } : LruShard K V)) (Step hashKey fun _ _ => True)
      ((fun s => (lookup hashKey key s).2)^[n] shard) := by
  induction n with
  | zero => exact h
  | succ n ih =>
    rw [Function.iterate_succ_apply']
    exact ih.next ⟨.lookup key, _, trivial, rfl⟩

/-- After `2 ^ 32 - 1` more lookups of an inserted key, the count of its entry is one, and the release of
one of the `2 ^ 32` handles destroys the value. -/
theorem lruShard_destroys_pinned :
    ∃ shard : LruShard Nat Unit,
      Transition.Reachable (· = ({ capacity := 1 } : LruShard Nat Unit))
        (Step (fun _ => 0) fun _ _ => True) shard ∧
      0 < shard.handles 0 ∧ shard.destroyed 0 = 1 := by
  obtain ⟨shard, hinsert, hlookup, hlt, hrefs, hdestroyed⟩ : ∃ shard : LruShard Nat Unit,
      perform (fun _ => 0) (.insert 5 () 1 true) { capacity := 1 } = some (some 0, shard) ∧
      shard.table.lookup shard.entries 5 0 = some 0 ∧ 0 < shard.entries.length ∧ shard.refs 0 = 2 ∧
      shard.destroyed 0 = 0 := ⟨_, rfl, rfl, by decide, rfl, rfl⟩
  have hreachable : Transition.Reachable (· = ({ capacity := 1 } : LruShard Nat Unit))
      (Step (fun _ => 0) fun _ _ => True) shard :=
    .next (.start rfl) ⟨.insert 5 () 1 true, some 0, trivial, hinsert⟩
  have hne : ∀ k < 2 ^ 32 - 1, shard.refs 0 + UInt32.ofNat k ≠ 1 := by
    intro k hk heq
    have hcount := congrArg UInt32.toNat heq
    have htwo : (2 : UInt32).toNat = 2 := rfl
    rw [hrefs, UInt32.toNat_add, UInt32.toNat_ofNat', htwo, UInt32.toNat_one] at hcount
    omega
  have hpinned := @reachable_lookups Nat Unit _ (fun _ => 0) shard 1 5 hreachable (2 ^ 32 - 1)
  obtain ⟨pinned, heq⟩ : ∃ pinned,
      (fun s : LruShard Nat Unit => (lookup (fun _ => 0) 5 s).2)^[2 ^ 32 - 1] shard = pinned := ⟨_, rfl⟩
  rw [heq] at hpinned
  rw [lookups_eq hlookup _ hne, hrefs] at heq
  have hlast : pinned.refs 0 = 1 := by
    rw [← heq]
    simp only [Function.update_self]
    decide
  have hhandles : pinned.handles 0 = shard.handles 0 + (2 ^ 32 - 1) := by
    rw [← heq]
    simp only [Function.update_self]
  have hkept : pinned.entries = shard.entries ∧ pinned.destroyed 0 = 0 := by
    rw [← heq]
    exact ⟨rfl, hdestroyed⟩
  refine ⟨release 0 pinned, hpinned.next ⟨.release 0, none, trivial, if_pos (by omega)⟩, ?_, ?_⟩
  · rw [(release_frame _ _).2.2, Function.update_self]
    omega
  · rw [release_destroys (by rwa [hkept.1]) hlast, hkept.2]

end LruShard
end ModernLevelDB
