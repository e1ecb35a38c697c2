import ModernLevelDB.Cache.LruOperations

/-! # Insertion

An admitted entry replaces the entry of its key, and then the shard evicts. -/
namespace ModernLevelDB
set_option autoImplicit false

open Links HandleTable

variable {K V : Type*} [DecidableEq K]

namespace LruShard

variable {hashKey : K → UInt32} {shard : LruShard K V} {view : ShardView} {lru inUse : List Nat}

/-! ## The new entry -/

theorem Represents.createEntry (h : Represents hashKey shard { lru, inUse }) (key : K) (value : V)
    (charge : UInt64) :
    Represents hashKey (createEntry key (hashKey key) value charge shard) { lru, inUse } := by
  have hnew := h.created shard.entries.length (Nat.le_refl _)
  refine { h.counts shard.entries.length (fun i hi => ?_) ?_, h with
    hash := ?_, stores := h.stores.create _, usage := ?_ }
  · have hlt : i < shard.entries.length + 1 ↔ i < shard.entries.length := by omega
    simp [LruShard.createEntry, hi, hlt]
  · constructor <;> simp [LruShard.createEntry, h.lru, h.inUse, h.destroyed, hnew.1]
  · exact List.forall_mem_append.mpr ⟨h.hash, List.forall_mem_singleton.mpr rfl⟩
  · have hcharges : (LruShard.createEntry key (hashKey key) value charge shard).charges (lru ++ inUse) =
        shard.charges (lru ++ inUse) := by
      unfold charges
      congr 1
      refine List.map_congr_left (fun i hi => ?_)
      simp only [chargeOf, LruShard.createEntry]
      rw [List.getElem?_append_left (h.lt_of_mem hi)]
    exact h.usage.trans hcharges.symm

/-! ## Admission -/

variable {entry : Nat} {e : CacheEntry K V}

def linked (key : K) (entry : Nat) (table : HandleTable) (shard : LruShard K V) : LruShard K V :=
  { shard with
    table
    refs := Function.update shard.refs entry 2
    inCache := Function.update shard.inCache entry true
    links := shard.links.append .inUse (.entry entry)
    events := .admitted key entry :: shard.events }

variable (h : Represents hashKey shard { lru, inUse })
  (hentry : shard.entries[entry]? = some e) (hin : shard.inCache entry = false)
  (hhandles : shard.handles entry = 1)
  (hgrowth : (shard.table.prepareInsert shard.entries e.key (hashKey e.key)).needsGrowth = true →
    shard.table.length * 2 ≠ 0)

include h hentry hin hhandles hgrowth in
theorem Represents.link :
    ∃ table, shard.table.commitInsert shard.entries
        (shard.table.prepareInsert shard.entries e.key (hashKey e.key)) entry = some table ∧
      Represents hashKey (linked e.key entry table shard)
        { lru
          inUse := inUse ++ [entry]
          leaving := shard.mapping e.key
          arriving := some entry } := by
  have hunmapped := h.unmapped_of_inCache hin
  obtain ⟨table, hcommit, hstores, hnext⟩ := h.stores.commitInsert h.hash hentry hunmapped hgrowth
  have hlt : entry < shard.entries.length := (List.getElem?_eq_some_iff.mp hentry).1
  have hlru : entry ∉ lru := by
    intro hmem
    rw [((h.lru entry).mp hmem).1] at hin
    cases hin
  have hinUse : entry ∉ inUse := by
    intro hmem
    rw [((h.inUse entry).mp hmem).1] at hin
    cases hin
  have hmapping : (linked e.key entry table shard).mapping =
      Function.update shard.mapping e.key (some entry) := CacheEvent.latest_admitted _ _ _
  refine ⟨table, hcommit, { h.counts entry (fun i hi => ?_) ?_, h with
    stores := ?_, cached := ?_, rings := ?_, leaving := ?_, arriving := ?_, usage := ?_
    retired := rfl }⟩
  · simp [linked, hi]
  · constructor <;> simp [linked, hhandles, h.lru, hin, h.destroyed, hlt]
  · rw [hmapping]
    exact hstores
  · intro i
    rw [hmapping, exists_update]
    by_cases heq : i = entry
    · subst heq
      simp [linked]
    · simp only [linked, Function.update_of_ne heq, h.cached]
      simp [Ne.symm heq]
  · rw [List.map_append]
    refine (h.rings.symm.append ?_ ?_).symm
    · simpa using hinUse
    · simpa using hlru
  · intro i hi k
    rw [hmapping]
    refine h.update_ne hi ?_ k
    rintro ⟨⟩
    exact hunmapped _ hi
  · rintro i ⟨⟩
    exact ⟨by simp, hunmapped _⟩
  · have husage := h.usage
    show shard.usage.toNat + shard.charges [entry] = shard.charges (lru ++ (inUse ++ [entry]))
    rw [← List.append_assoc, charges_append, ← husage]
    rfl

theorem Represents.count (h : Represents hashKey shard view) (harriving : view.arriving = some entry)
    (hfits : shard.usage.toNat + (shard.chargeOf entry).toNat < 2 ^ 64) :
    Represents hashKey { shard with usage := shard.usage + shard.chargeOf entry }
      { view with arriving := none } := by
  refine { h with arriving := by simp, usage := ?_ }
  have husage := h.usage
  rw [harriving] at husage
  simp only [UInt64.toNat_add, Nat.mod_eq_of_lt hfits]
  exact husage

def without (entry : Option Nat) (l : List Nat) : List Nat :=
  match entry with
  | none => l
  | some entry => l.erase entry

theorem lru_finishErase (handles : Nat → Nat) (view : ShardView) :
    (view.finishErase handles).lru = without view.leaving view.lru := by
  unfold ShardView.finishErase without
  cases view.leaving with
  | none => rfl
  | some entry => rfl

omit [DecidableEq K] in
theorem usage_erased (entry retired : Option Nat) (shard : LruShard K V) :
    (erased entry retired shard).usage = shard.usage - (entry.map shard.chargeOf).getD 0 := by
  cases entry with
  | none => exact (UInt64.sub_zero _).symm
  | some entry => rfl

omit [DecidableEq K] in
theorem canAdmit_fits {prepared : PreparedInsert} (h : canAdmit entry prepared shard = true) :
    (shard.usage - (prepared.existing.map shard.chargeOf).getD 0).toNat +
      (shard.chargeOf entry).toNat < 2 ^ 64 := by
  unfold canAdmit at h
  have hfits := (of_decide_eq_true h).2
  have hmax : (-1 : UInt64).toNat = 2 ^ 64 - 1 := rfl
  have hlt := (shard.usage - (prepared.existing.map shard.chargeOf).getD 0).toNat_lt
  rw [UInt64.le_iff_toNat_le, UInt64.toNat_sub_of_le _ _ (UInt64.le_iff_toNat_le.mpr (by omega))]
    at hfits
  omega

/-- What an admitted insertion leaves. Evicted are the first entries of the lru list. -/
structure Admitted (shard : LruShard K V) (lru : List Nat) (key : K) (entry : Nat)
    (shard' : LruShard K V) (lru' : List Nat) : Prop where
  within : shard'.usage ≤ shard'.capacity ∨ lru' = []
  evicted : ∃ n keys, lru' = (without (shard.mapping key) lru).drop n ∧
    List.Forall₂ (fun key i => shard.mapping key = some i ∧ shard.handles i = 0) keys
      ((without (shard.mapping key) lru).take n) ∧
    shard'.events = (keys.map .dropped).reverse ++ .admitted key entry :: shard.events

include h hentry hin hhandles hgrowth in
theorem Represents.commitAdmission
    (hadmits : canAdmit entry (shard.table.prepareInsert shard.entries e.key (hashKey e.key)) shard =
      true) :
    ∃ shard' lru' inUse' retired, commitAdmission e.key entry
        (shard.table.prepareInsert shard.entries e.key (hashKey e.key)) shard =
        some (retired.head?, shard') ∧
      Represents hashKey shard' { lru := lru', inUse := inUse', retired } ∧
      Keeps shard shard' ∧ Admitted shard lru e.key entry shard' lru' := by
  have hexisting := h.stores.prepareInsert_existing h.hash e.key
  have hfits := canAdmit_fits hadmits
  rw [hexisting] at hfits
  obtain ⟨table, hcommit, hlink⟩ := h.link hentry hin hhandles hgrowth
  -- The replaced entry leaves the lists, and then the new charge is counted.
  have herase := hlink.finishErase_eq
  have hlinked : Keeps shard (linked e.key entry table shard) := ⟨rfl, rfl, rfl, rfl, rfl, rfl⟩
  have hkeeps := hlinked.trans
    (keeps_erased (shard.mapping e.key) none (linked e.key entry table shard))
  obtain ⟨hleaving, harriving⟩ := ShardView.leaving_finishErase (linked e.key entry table shard).handles
    { lru, inUse := inUse ++ [entry], leaving := shard.mapping e.key, arriving := some entry }
  have hcharge : (LruShard.erased (shard.mapping e.key) none
      (linked e.key entry table shard)).chargeOf entry = shard.chargeOf entry := by
    unfold chargeOf
    rw [hkeeps.entries]
  have hcount := hlink.erased.count harriving (by
    rw [usage_erased]
    exact (congrArg (_ + UInt64.toNat ·) hcharge).trans_lt hfits)
  obtain ⟨n, shard', keys, hloop, hrep, hkeeps', hkeys, hevents, hwithin⟩ :=
    hcount.evictLoop hleaving rfl (Nat.lt_succ_of_le hcount.lru_length)
  simp only [hleaving, lru_finishErase] at hloop hrep hkeys hwithin hevents
  refine ⟨shard', _, _, _, ?_, hrep, hkeeps.trans ?_, hwithin, n, keys, rfl, ?_, ?_⟩
  · unfold LruShard.commitAdmission
    rw [hcommit, hexisting, Option.map_some]
    refine congrArg some ?_
    have hevict := congrArg (fun erased => LruShard.evict erased.1 { erased.2 with
      usage := erased.2.usage + erased.2.chargeOf entry }) herase
    exact hevict.trans hloop
  · exact ⟨hkeeps'.capacity, hkeeps'.entries, hkeeps'.handles, hkeeps'.clock, hkeeps'.lastRelease,
      hkeeps'.destroyed⟩
  · -- An entry without handles is not the new one.
    refine hkeys.imp fun k i hk => ?_
    have hzero : shard.handles i = 0 := by
      rw [← hkeeps.handles]
      exact hk.2
    have hmapping : Function.update shard.mapping e.key (some entry) k = some i := by
      rw [← hk.1]
      unfold mapping
      simp only [events_erased]
      exact (congrFun (CacheEvent.latest_admitted _ _ _) k).symm
    refine ⟨?_, hzero⟩
    by_cases heq : k = e.key
    · subst heq
      rw [Function.update_self] at hmapping
      cases hmapping
      omega
    · rwa [Function.update_of_ne heq] at hmapping
  · rw [hevents, events_erased]
    rfl

/-! ## `Insert` -/

/-- An insertion fails without memory for a larger table, and then the entry is destroyed. It does not
admit an entry that the shard has no room to account for. -/
inductive Inserted (shard : LruShard K V) (lru : List Nat) (key : K) (result : Option Nat)
    (shard' : LruShard K V) (lru' : List Nat) : Prop where
  | failed (none : result = none) (same : shard'.events = shard.events)
      (destroyed : shard'.destroyed shard.entries.length = 1)
  | uncached (some : result = some shard.entries.length) (same : shard'.events = shard.events)
      (pinned : shard'.handles shard.entries.length = 1)
  | admitted (some : result = some shard.entries.length)
      (pinned : shard'.handles shard.entries.length = 1)
      (admitted : Admitted shard lru key shard.entries.length shard' lru')

/-- A table that grows for an admitted entry has fewer than `2 ^ 31` buckets. -/
def Grows (hashKey : K → UInt32) (key : K) (value : V) (charge : UInt64) (shard : LruShard K V) : Prop :=
  let created := LruShard.createEntry key (hashKey key) value charge shard
  let prepared := created.table.prepareInsert created.entries key (hashKey key)
  canAdmit shard.entries.length prepared created = true → prepared.needsGrowth = true →
    shard.table.length * 2 ≠ 0

theorem Represents.abandon (h : Represents hashKey shard { lru, inUse }) (hin : shard.inCache entry = false)
    (hhandles : shard.handles entry = 1) :
    Represents hashKey
      (deleteEntry entry
        { shard with
          refs := Function.update shard.refs entry 0
          handles := Function.update shard.handles entry 0 }) { lru, inUse } := by
  have hlt := h.lt_of_handles (Nat.lt_of_lt_of_eq Nat.zero_lt_one hhandles.symm)
  refine { h.counts entry (fun i hi => by simp [deleteEntry, hi]) ?_, h with }
  exact ⟨by simp [deleteEntry, h.lru, hin], by simp [deleteEntry, h.inUse, hin],
    by simp [deleteEntry, hin], fun hge => absurd hlt (Nat.not_lt.mpr hge),
    fun hi => absurd hi List.not_mem_nil, by simp [deleteEntry, h.destroyed, hhandles, hin, hlt]⟩

theorem Admitted.of_createEntry {shard' : LruShard K V} {lru' : List Nat} {key : K} {hash : UInt32}
    {value : V} {charge : UInt64}
    (h : Admitted (LruShard.createEntry key hash value charge shard) lru key shard.entries.length shard'
      lru') :
    Admitted shard lru key shard.entries.length shard' lru' := by
  obtain ⟨n, keys, hlru, hkeys, hevents⟩ := h.evicted
  refine ⟨h.within, n, keys, hlru, hkeys.imp fun k i hk => ⟨hk.1, ?_⟩, hevents⟩
  have hzero := hk.2
  unfold LruShard.createEntry at hzero
  by_cases heq : i = shard.entries.length
  · subst heq
    simp at hzero
  · simpa [heq] using hzero

theorem Represents.insert (h : Represents hashKey shard { lru, inUse }) (key : K) (value : V)
    (charge : UInt64) (allocates : Bool) (hgrows : Grows hashKey key value charge shard) :
    ∃ result shard' lru' inUse', insert hashKey key value charge allocates shard =
        some (result, shard') ∧
      Represents hashKey shard' { lru := lru', inUse := inUse' } ∧
      shard'.entries = shard.entries ++ [⟨key, hashKey key, value, charge⟩] ∧
      Inserted shard lru key result shard' lru' := by
  have hnew := h.createEntry key value charge
  have hin := (h.created shard.entries.length (Nat.le_refl _)).1
  have hhandles : (LruShard.createEntry key (hashKey key) value charge shard).handles
      shard.entries.length = 1 := Function.update_self _ _ _
  unfold LruShard.insert
  simp only
  split
  · rename_i hadmits
    split
    · have habandon := hnew.abandon hin hhandles
      refine ⟨_, _, _, _, rfl, habandon, rfl, .failed rfl rfl ?_⟩
      have hdestroyed := h.destroyed shard.entries.length
      rw [if_neg (fun hall => Nat.lt_irrefl _ hall.1)] at hdestroyed
      simpa [deleteEntry, LruShard.createEntry] using hdestroyed
    · have hentry : (LruShard.createEntry key (hashKey key) value charge shard).entries[
          shard.entries.length]? = some ⟨key, hashKey key, value, charge⟩ := by
        simp [LruShard.createEntry]
      obtain ⟨shard₁, lru', inUse', retired, hcommit, hrep, hkeeps, hadmitted⟩ :=
        hnew.commitAdmission hentry hin hhandles (hgrows hadmits) hadmits
      obtain ⟨table, destroyed, hdelete, hrep'⟩ := hrep.deleteRetired
      refine ⟨_, _, lru', inUse', ?_, hrep', hkeeps.entries, .admitted rfl ?_ ?_⟩
      · rw [hcommit, ← hdelete]
        rfl
      · exact (congrFun hkeeps.handles _).trans hhandles
      · exact ⟨hadmitted.of_createEntry.within, hadmitted.of_createEntry.evicted⟩
  · exact ⟨_, _, _, _, rfl, hnew, rfl, .uncached rfl rfl hhandles⟩

end LruShard
end ModernLevelDB
