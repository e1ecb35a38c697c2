import ModernLevelDB.Cache.LruShard
import Mathlib

/-! # What a shard holds

The table maps the keys that were admitted and not dropped since, the two lists hold the mapped entries,
and the reference count of an entry is the number of its handles, with one more for the cache. During an
operation an entry may have left the table and still be in a list, and retired entries wait for their
destruction. -/
namespace ModernLevelDB
set_option autoImplicit false

open Links HandleTable

variable {K V : Type*} [DecidableEq K]

namespace CacheEvent

theorem latest_admitted (key : K) (entry : Nat) (events : List (CacheEvent K)) :
    latest (.admitted key entry :: events) = Function.update (latest events) key (some entry) := by
  funext k
  rw [Function.update_apply]
  rfl

theorem latest_dropped (key : K) (events : List (CacheEvent K)) :
    latest (.dropped key :: events) = Function.update (latest events) key none := by
  funext k
  rw [Function.update_apply]
  rfl

end CacheEvent

/-- The lists of a shard, from the front on, and the retired entries that wait. `leaving` is not in the
table and still in a list. The charge of `arriving` is still to be counted. -/
structure ShardView where
  lru : List Nat := []
  inUse : List Nat := []
  retired : List Nat := []
  leaving : Option Nat := none
  arriving : Option Nat := none

/-- The entry that leaves is out of the lists, and retired unless it has handles. -/
def ShardView.finishErase (handles : Nat → Nat) (view : ShardView) : ShardView :=
  match view.leaving with
  | none => view
  | some entry =>
      { view with
        lru := view.lru.erase entry
        inUse := view.inUse.erase entry
        retired := if handles entry = 0 then entry :: view.retired else view.retired
        leaving := none }

theorem ShardView.leaving_finishErase (handles : Nat → Nat) (view : ShardView) :
    (view.finishErase handles).leaving = none ∧ (view.finishErase handles).arriving = view.arriving := by
  unfold ShardView.finishErase
  cases hleaving : view.leaving with
  | none => exact ⟨hleaving, rfl⟩
  | some entry => exact ⟨rfl, rfl⟩

namespace LruShard

def mapping (shard : LruShard K V) : K → Option Nat := CacheEvent.latest shard.events

omit [DecidableEq K] in
def charges (shard : LruShard K V) (l : List Nat) : Nat := (l.map fun i => (shard.chargeOf i).toNat).sum

/-- Only its handles and the cache keep an entry. -/
structure Counts (shard : LruShard K V) (view : ShardView) : Prop where
  lru : ∀ i, i ∈ view.lru ↔ shard.inCache i = true ∧ shard.handles i = 0
  inUse : ∀ i, i ∈ view.inUse ↔ shard.inCache i = true ∧ 0 < shard.handles i
  refs : ∀ i, (shard.refs i).toNat = shard.handles i + (shard.inCache i).toNat
  created : ∀ i, shard.entries.length ≤ i → shard.inCache i = false ∧ shard.handles i = 0
  unreferenced : ∀ i ∈ view.retired,
    i < shard.entries.length ∧ shard.inCache i = false ∧ shard.handles i = 0
  destroyed : ∀ i, shard.destroyed i =
    if i < shard.entries.length ∧ shard.inCache i = false ∧ shard.handles i = 0 ∧ i ∉ view.retired
    then 1 else 0

/-- The index, the two lists and the counters of a shard, in terms of its view. -/
structure Represents (hashKey : K → UInt32) (shard : LruShard K V) (view : ShardView) : Prop
    extends Counts shard view where
  hash : ∀ e ∈ shard.entries, e.hash = hashKey e.key
  stores : Stores shard.entries shard.table shard.mapping
  cached : ∀ i, shard.inCache i = true ↔ (∃ key, shard.mapping key = some i) ∨ view.leaving = some i
  rings : Rings shard.links .lru (view.lru.map .entry) .inUse (view.inUse.map .entry)
  leaving : ∀ i, view.leaving = some i → ∀ key, shard.mapping key ≠ some i
  arriving : ∀ i, view.arriving = some i → i ∈ view.inUse ∧ view.leaving ≠ some i
  usage : shard.usage.toNat + shard.charges view.arriving.toList = shard.charges (view.lru ++ view.inUse)
  retired : Path shard.table.nextHash view.retired.head? view.retired none
  retiredNodup : view.retired.Nodup
  order : view.lru.Pairwise fun i j => shard.lastRelease i < shard.lastRelease j
  released : ∀ i, shard.lastRelease i ≤ shard.clock

variable {hashKey : K → UInt32} {shard : LruShard K V} {view : ShardView}

theorem represents_empty (hashKey : K → UInt32) (capacity : UInt64) :
    Represents hashKey ({ capacity } : LruShard K V) {} where
  hash := by simp
  stores := stores_empty
  cached := by simp [mapping, CacheEvent.latest]
  rings := ⟨⟨rfl, rfl, by simp⟩, ⟨rfl, rfl, by simp⟩, by simp⟩
  lru := by simp
  inUse := by simp
  refs := by simp
  created := by simp
  leaving := by simp
  arriving := by simp
  usage := rfl
  retired := rfl
  retiredNodup := List.nodup_nil
  unreferenced := by simp
  destroyed := by simp
  order := List.Pairwise.nil
  released := by simp

/-! ## Small facts -/

omit [DecidableEq K] in
theorem charges_append (shard : LruShard K V) (l l' : List Nat) :
    shard.charges (l ++ l') = shard.charges l + shard.charges l' := by
  unfold charges
  rw [List.map_append, List.sum_append]

variable {i : Nat}

omit [DecidableEq K] in
theorem charges_erase (shard : LruShard K V) {l : List Nat} (hi : i ∈ l) :
    shard.charges l = (shard.chargeOf i).toNat + shard.charges (l.erase i) :=
  (List.sum_map_erase _ hi).symm

namespace Represents

theorem nodup_lru (h : Represents hashKey shard view) : view.lru.Nodup :=
  (List.nodup_cons.mp h.rings.first.nodup).2.of_map _

theorem nodup_inUse (h : Represents hashKey shard view) : view.inUse.Nodup :=
  (List.nodup_cons.mp h.rings.second.nodup).2.of_map _

variable {i : Nat}

section

variable (h : Represents hashKey shard view)

include h

theorem lt_of_inCache (hi : shard.inCache i = true) :
    i < shard.entries.length := by
  by_contra hge
  rw [(h.created i (Nat.le_of_not_lt hge)).1] at hi
  cases hi

theorem inCache_of_mapping {key : K}
    (hi : shard.mapping key = some i) : shard.inCache i = true :=
  (h.cached i).mpr (.inl ⟨key, hi⟩)

theorem unmapped_of_inCache (hi : shard.inCache i = false)
    (key : K) : shard.mapping key ≠ some i := by
  intro hkey
  rw [h.inCache_of_mapping hkey] at hi
  cases hi

theorem notMem_inUse (hi : i ∈ view.lru) : i ∉ view.inUse := by
  intro hmem
  have hzero := ((h.lru i).mp hi).2
  have hpos := ((h.inUse i).mp hmem).2
  omega

theorem rings_remove (hi : shard.inCache i = true) :
    Rings (shard.links.remove (.entry i)) .lru ((view.lru.erase i).map .entry)
      .inUse ((view.inUse.erase i).map .entry) := by
  have hinj : Function.Injective ListNode.entry := fun _ _ heq => by cases heq; rfl
  rw [List.map_erase hinj, List.map_erase hinj]
  by_cases hzero : shard.handles i = 0
  · have hlru : i ∈ view.lru := (h.lru i).mpr ⟨hi, hzero⟩
    have hnot : ListNode.entry i ∉ view.inUse.map .entry := by
      simpa using h.notMem_inUse hlru
    rw [List.erase_of_not_mem hnot]
    exact h.rings.remove (List.mem_map_of_mem hlru)
  · have hinUse : i ∈ view.inUse := (h.inUse i).mpr ⟨hi, Nat.pos_of_ne_zero hzero⟩
    have hnot : ListNode.entry i ∉ view.lru.map .entry := by
      simpa using fun hmem => h.notMem_inUse hmem hinUse
    rw [List.erase_of_not_mem hnot]
    exact (h.rings.symm.remove (List.mem_map_of_mem hinUse)).symm

theorem mem_lists (hi : shard.inCache i = true) :
    i ∈ view.lru ++ view.inUse := by
  rw [List.mem_append, h.lru, h.inUse]
  have := Nat.eq_zero_or_pos (shard.handles i)
  tauto

theorem charges_lists (hi : shard.inCache i = true) :
    shard.charges (view.lru ++ view.inUse) =
      (shard.chargeOf i).toNat + shard.charges (view.lru.erase i ++ view.inUse.erase i) := by
  rw [charges_erase shard (h.mem_lists hi), List.erase_append]
  split
  · rename_i hlru
    rw [List.erase_of_not_mem (h.notMem_inUse hlru)]
  · rename_i hlru
    rw [List.erase_of_not_mem hlru]

end

end Represents

/-! ## One entry -/

/-- What the lists and the counts say of one entry. -/
structure Counted (shard : LruShard K V) (view : ShardView) (i : Nat) : Prop where
  lru : i ∈ view.lru ↔ shard.inCache i = true ∧ shard.handles i = 0
  inUse : i ∈ view.inUse ↔ shard.inCache i = true ∧ 0 < shard.handles i
  refs : (shard.refs i).toNat = shard.handles i + (shard.inCache i).toNat
  created : shard.entries.length ≤ i → shard.inCache i = false ∧ shard.handles i = 0
  unreferenced : i ∈ view.retired →
    i < shard.entries.length ∧ shard.inCache i = false ∧ shard.handles i = 0
  destroyed : shard.destroyed i =
    if i < shard.entries.length ∧ shard.inCache i = false ∧ shard.handles i = 0 ∧ i ∉ view.retired
    then 1 else 0

variable {shard' : LruShard K V}

/-- An operation on one entry has to say nothing of the others. -/
theorem Represents.counts (h : Represents hashKey shard view) {view' : ShardView} (entry : Nat)
    (hothers : ∀ i, i ≠ entry → shard'.inCache i = shard.inCache i ∧
      shard'.handles i = shard.handles i ∧ shard'.refs i = shard.refs i ∧
      shard'.destroyed i = shard.destroyed i ∧
      (i < shard'.entries.length ↔ i < shard.entries.length) ∧
      (i ∈ view'.lru ↔ i ∈ view.lru) ∧ (i ∈ view'.inUse ↔ i ∈ view.inUse) ∧
      (i ∈ view'.retired ↔ i ∈ view.retired)) (hentry : Counted shard' view' entry) :
    Counts shard' view' := by
  have hall : ∀ i, Counted shard' view' i := by
    intro i
    by_cases heq : i = entry
    · exact heq ▸ hentry
    obtain ⟨hin, hhandles, hrefs, hdestroyed, hlt, hlru, hinUse, hretired⟩ := hothers i heq
    constructor
    · rw [hlru, hin, hhandles, h.lru]
    · rw [hinUse, hin, hhandles, h.inUse]
    · rw [hrefs, hhandles, hin, h.refs]
    · rw [← Nat.not_lt, hlt, Nat.not_lt, hin, hhandles]
      exact h.created i
    · rw [hretired, hlt, hin, hhandles]
      exact h.unreferenced i
    · simp only [hdestroyed, hlt, hin, hhandles, hretired, h.destroyed]
  exact ⟨fun i => (hall i).lru, fun i => (hall i).inUse, fun i => (hall i).refs,
    fun i => (hall i).created, fun i => (hall i).unreferenced, fun i => (hall i).destroyed⟩

theorem Represents.lt_of_handles (h : Represents hashKey shard view) (hi : 0 < shard.handles i) :
    i < shard.entries.length := by
  by_contra hge
  rw [(h.created i (Nat.le_of_not_lt hge)).2] at hi
  cases hi

/-! ## Erasing an entry -/

theorem toNat_pred {n : UInt32} (h : 0 < n.toNat) : (n - 1).toNat = n.toNat - 1 := by
  rw [UInt32.toNat_sub_of_le]
  · rfl
  · exact UInt32.le_iff_toNat_le.mpr h

def erased (entry : Option Nat) (retired : Option Nat) (shard : LruShard K V) : LruShard K V :=
  match entry with
  | none => shard
  | some entry =>
      { shard with
        links := shard.links.remove (.entry entry)
        inCache := Function.update shard.inCache entry false
        usage := shard.usage - shard.chargeOf entry
        refs := Function.update shard.refs entry (shard.refs entry - 1)
        table := if shard.handles entry = 0 then shard.table.write (.nextHash entry) retired
          else shard.table }

theorem Represents.finishErase_eq (h : Represents hashKey shard view) :
    finishErase view.leaving view.retired.head? shard =
      ((view.finishErase shard.handles).retired.head?,
        erased view.leaving view.retired.head? shard) := by
  unfold ShardView.finishErase
  cases hleaving : view.leaving with
  | none => rfl
  | some entry =>
    have hrefs := h.refs entry
    rw [(h.cached entry).mpr (.inr hleaving), Bool.toNat_true] at hrefs
    have hpred : (shard.refs entry - 1).toNat = shard.handles entry := by
      rw [toNat_pred (by omega), hrefs, Nat.add_sub_cancel]
    have hzero : shard.refs entry - 1 = 0 ↔ shard.handles entry = 0 := by
      rw [← hpred, ← UInt32.toNat_inj]
      rfl
    unfold finishErase unref retire erased
    simp only [hzero, Function.update_self]
    by_cases h : shard.handles entry = 0
    · simp only [if_pos h, List.head?_cons]
    · simp [h]

theorem Represents.usage_erase (h : Represents hashKey shard view) {entry : Nat}
    (hin : shard.inCache entry = true)
    (harriving : ∀ i, view.arriving = some i → i ∈ view.inUse.erase entry) :
    (shard.usage - shard.chargeOf entry).toNat + shard.charges view.arriving.toList =
      shard.charges (view.lru.erase entry ++ view.inUse.erase entry) := by
  have hstay : shard.charges view.arriving.toList ≤
      shard.charges (view.lru.erase entry ++ view.inUse.erase entry) := by
    cases ha : view.arriving with
    | none => exact Nat.zero_le _
    | some i =>
      rw [charges_append, charges_erase shard (harriving i ha)]
      simp only [charges, Option.toList_some, List.map_cons, List.map_nil, List.sum_cons, List.sum_nil]
      omega
  have hcharges := h.charges_lists hin
  have husage := h.usage
  rw [UInt64.toNat_sub_of_le _ _ (UInt64.le_iff_toNat_le.mpr (by omega))]
  omega

theorem path_retire {table : HandleTable} {retired : List Nat} {entry : Nat}
    (hpath : Path table.nextHash retired.head? retired none) (hnot : entry ∉ retired) :
    Path (table.write (.nextHash entry) retired.head?).nextHash (some entry) (entry :: retired)
      none := by
  refine ⟨rfl, ?_⟩
  have hfirst : (table.write (.nextHash entry) retired.head?).nextHash entry = retired.head? :=
    Function.update_self _ _ _
  rw [hfirst]
  refine hpath.congr (fun i hi => write_nextHash _ _ ?_)
  intro heq
  cases heq
  exact hnot hi

theorem Represents.erased (h : Represents hashKey shard view) :
    Represents hashKey (erased view.leaving view.retired.head? shard)
      (view.finishErase shard.handles) := by
  unfold LruShard.erased ShardView.finishErase
  cases hleaving : view.leaving with
  | none => exact h
  | some entry =>
    have hin : shard.inCache entry = true := (h.cached entry).mpr (.inr hleaving)
    have hrefs := h.refs entry
    rw [hin, Bool.toNat_true] at hrefs
    have hlt := h.lt_of_inCache hin
    have hunmapped := h.leaving entry hleaving
    have hnotRetired : entry ∉ view.retired := by
      intro hmem
      rw [(h.unreferenced entry hmem).2.1] at hin
      cases hin
    have harriving : ∀ i, view.arriving = some i → i ∈ view.inUse.erase entry := by
      intro i hi
      obtain ⟨hmem, hne⟩ := h.arriving i hi
      refine h.nodup_inUse.mem_erase_iff.mpr ⟨?_, hmem⟩
      rintro rfl
      exact hne hleaving
    have hretired : ∀ i, i ∈ (if shard.handles entry = 0 then entry :: view.retired
        else view.retired) ↔ i = entry ∧ shard.handles entry = 0 ∨ i ∈ view.retired := by
      intro i
      split <;> simp [*]
    refine { h.counts entry ?_ ?_, h with
      stores := ?_, cached := ?_, rings := h.rings_remove hin, leaving := by simp
      arriving := fun i hi => ⟨harriving i hi, by simp⟩, usage := h.usage_erase hin harriving
      retired := ?_, retiredNodup := ?_, order := h.order.sublist List.erase_sublist }
    · intro i hi
      simp [hi, hretired, h.nodup_lru.mem_erase_iff, h.nodup_inUse.mem_erase_iff]
    · refine ⟨by simp [h.nodup_lru.mem_erase_iff], by simp [h.nodup_inUse.mem_erase_iff], ?_,
        fun hge => absurd hlt (Nat.not_lt.mpr hge), fun hi => ?_, ?_⟩
      · simp only [Function.update_self]
        rw [toNat_pred (by omega), hrefs]
        rfl
      · have hzero := (((hretired entry).mp hi).resolve_right hnotRetired).2
        exact ⟨hlt, Function.update_self _ _ _, hzero⟩
      · simp only [h.destroyed entry, hretired]
        by_cases hzero : shard.handles entry = 0 <;> simp [hin, hzero]
    · simp only
      split
      · exact h.stores.write_unmapped hunmapped _
      · exact h.stores
    · intro i
      simp only [reduceCtorEq, or_false]
      by_cases heq : i = entry
      · subst heq
        rw [Function.update_self]
        exact iff_of_false Bool.false_ne_true (fun ⟨key, hkey⟩ => hunmapped key hkey)
      · rw [Function.update_of_ne heq, h.cached, hleaving]
        simp [Ne.symm heq, mapping]
    · simp only
      split
      · exact path_retire h.retired hnotRetired
      · exact h.retired
    · simp only
      split
      · exact List.nodup_cons.mpr ⟨hnotRetired, h.retiredNodup⟩
      · exact h.retiredNodup

/-- What linking and unlinking leave as it is. -/
structure Keeps (shard shard' : LruShard K V) : Prop where
  capacity : shard'.capacity = shard.capacity
  entries : shard'.entries = shard.entries
  handles : shard'.handles = shard.handles
  clock : shard'.clock = shard.clock
  lastRelease : shard'.lastRelease = shard.lastRelease
  destroyed : shard'.destroyed = shard.destroyed

omit [DecidableEq K] in
theorem Keeps.trans {shard shard'' : LruShard K V} (h : Keeps shard shard')
    (h' : Keeps shard' shard'') : Keeps shard shard'' where
  capacity := h'.capacity.trans h.capacity
  entries := h'.entries.trans h.entries
  handles := h'.handles.trans h.handles
  clock := h'.clock.trans h.clock
  lastRelease := h'.lastRelease.trans h.lastRelease
  destroyed := h'.destroyed.trans h.destroyed

omit [DecidableEq K] in
theorem keeps_erased (entry retired : Option Nat) (shard : LruShard K V) :
    Keeps shard (erased entry retired shard) := by
  cases entry with
  | none => exact ⟨rfl, rfl, rfl, rfl, rfl, rfl⟩
  | some entry => exact ⟨rfl, rfl, rfl, rfl, rfl, rfl⟩

omit [DecidableEq K] in
theorem events_erased (entry retired : Option Nat) (shard : LruShard K V) :
    (erased entry retired shard).events = shard.events := by
  cases entry with
  | none => rfl
  | some entry => rfl

/-! ## Dropping a key -/

omit [DecidableEq K] in
theorem exists_update [DecidableEq K] (map : K → Option Nat) (key : K) (new : Option Nat) (i : Nat) :
    (∃ k, Function.update map key new k = some i) ∨ map key = some i ↔
      (∃ k, map k = some i) ∨ new = some i := by
  constructor
  · rintro (⟨k, hk⟩ | hkey)
    · by_cases heq : k = key
      · subst heq
        rw [Function.update_self] at hk
        exact .inr hk
      · rw [Function.update_of_ne heq] at hk
        exact .inl ⟨k, hk⟩
    · exact .inl ⟨key, hkey⟩
  · rintro (⟨k, hk⟩ | hnew)
    · by_cases heq : k = key
      · subst heq
        exact .inr hk
      · exact .inl ⟨k, by rwa [Function.update_of_ne heq]⟩
    · exact .inl ⟨key, by rwa [Function.update_self]⟩

theorem Represents.update_ne (h : Represents hashKey shard view) {key : K} {new : Option Nat}
    (hkey : shard.mapping key = some i) (hnew : new ≠ some i) (k : K) :
    Function.update shard.mapping key new k ≠ some i := by
  by_cases heq : k = key
  · subst heq
    rwa [Function.update_self]
  · rw [Function.update_of_ne heq]
    exact fun hk => heq (h.stores.inj hk hkey)

theorem Represents.unmap (h : Represents hashKey shard view) (hleaving : view.leaving = none)
    (harriving : view.arriving = none) (key : K) :
    ∃ table, shard.table.remove shard.entries key (hashKey key) = (shard.mapping key, table) ∧
      Represents hashKey { shard with table, events := .dropped key :: shard.events }
        { view with leaving := shard.mapping key } := by
  obtain ⟨table, hremove, hstores, hnext⟩ := h.stores.remove h.hash key
  have hmapping : ({ shard with table, events := .dropped key :: shard.events } :
      LruShard K V).mapping = Function.update shard.mapping key none := CacheEvent.latest_dropped _ _
  refine ⟨table, hremove,
    { h with stores := ?_, cached := ?_, leaving := ?_, arriving := ?_, retired := ?_ }⟩
  · rw [hmapping]
    exact hstores
  · intro i
    rw [hmapping, exists_update, ← hleaving]
    exact h.cached i
  · intro i hi k
    rw [hmapping]
    exact h.update_ne hi (by simp) k
  · simp [harriving]
  · refine h.retired.congr (fun i hi => hnext i ?_)
    exact h.unmapped_of_inCache (h.unreferenced i hi).2.1

theorem Represents.eraseMapping (h : Represents hashKey shard view) (hleaving : view.leaving = none)
    (harriving : view.arriving = none) (key : K) :
    ∃ shard', eraseMapping key (hashKey key) view.retired.head? shard =
        (({ view with leaving := shard.mapping key }.finishErase shard.handles).retired.head?,
          shard') ∧
      Represents hashKey shard'
        ({ view with leaving := shard.mapping key }.finishErase shard.handles) ∧
      Keeps shard shard' ∧ shard'.events = .dropped key :: shard.events := by
  obtain ⟨table, hremove, hunmap⟩ := h.unmap hleaving harriving key
  refine ⟨_, ?_, hunmap.erased, ?_, events_erased _ _ _⟩
  · unfold LruShard.eraseMapping
    simp only [hremove]
    exact hunmap.finishErase_eq
  · obtain ⟨hcapacity, hentries, hhandles, hclock, hrelease, hdestroyed⟩ := keeps_erased
      (shard.mapping key) view.retired.head?
      { shard with table, events := .dropped key :: shard.events }
    exact ⟨hcapacity, hentries, hhandles, hclock, hrelease, hdestroyed⟩

/-! ## Eviction -/

theorem Represents.evictOldest (h : Represents hashKey shard view) (hleaving : view.leaving = none)
    (harriving : view.arriving = none) {l : List Nat} (hlru : view.lru = i :: l) :
    ∃ shard' key, (shard.mapping key = some i ∧ shard.handles i = 0) ∧
      evictOldest view.retired.head? shard = (some i, shard') ∧
      Represents hashKey shard' { view with lru := l, retired := i :: view.retired } ∧
      Keeps shard shard' ∧ shard'.events = .dropped key :: shard.events := by
  have hmem : i ∈ view.lru := by rw [hlru]; exact List.mem_cons_self
  obtain ⟨hin, hzero⟩ := (h.lru i).mp hmem
  have hmapped := (h.cached i).mp hin
  rw [hleaving] at hmapped
  obtain ⟨key, hkey⟩ := hmapped.resolve_right (by simp)
  obtain ⟨found, hfound, hfoundKey⟩ := Option.map_eq_some_iff.mp (h.stores.key hkey)
  have hhash : found.hash = hashKey key := by
    rw [h.hash found (List.mem_of_getElem? hfound), hfoundKey]
  have hnext : shard.links.next .lru = some (.entry i) := by
    have hpath := h.rings.first.next
    rw [hlru] at hpath
    exact hpath.1
  obtain ⟨shard', herase, hrep, hkeeps, hevents⟩ := h.eraseMapping hleaving harriving key
  have hview : { view with leaving := shard.mapping key }.finishErase shard.handles =
      { view with lru := l, retired := i :: view.retired } := by
    unfold ShardView.finishErase
    simp only [hkey, hzero, if_true, hlru, List.erase_cons_head,
      List.erase_of_not_mem (h.notMem_inUse hmem), hleaving]
  rw [hview] at herase hrep
  refine ⟨shard', key, ⟨hkey, hzero⟩, ?_, hrep, hkeeps, hevents⟩
  unfold LruShard.evictOldest
  simp only [hnext, hfound, hfoundKey, hhash]
  exact herase

theorem mapping_of_dropped {key : K} (hevents : shard'.events = .dropped key :: shard.events)
    {k : K} (hk : shard'.mapping k = some i) : shard.mapping k = some i := by
  unfold mapping at hk
  rw [hevents, CacheEvent.latest_dropped] at hk
  by_cases heq : k = key
  · subst heq
    rw [Function.update_self] at hk
    cases hk
  · rwa [Function.update_of_ne heq] at hk

/-- `Evict` takes entries from the front of the lru list until the shard is within its capacity or the
list is empty. -/
theorem Represents.evictLoop (h : Represents hashKey shard view) (hleaving : view.leaving = none)
    (harriving : view.arriving = none) {rounds : Nat} (hrounds : view.lru.length < rounds) :
    ∃ n shard' keys, evictLoop rounds view.retired.head? shard =
        (((view.lru.take n).reverse ++ view.retired).head?, shard') ∧
      Represents hashKey shard'
        { view with lru := view.lru.drop n, retired := (view.lru.take n).reverse ++ view.retired } ∧
      Keeps shard shard' ∧
      List.Forall₂ (fun key i => shard.mapping key = some i ∧ shard.handles i = 0) keys
        (view.lru.take n) ∧
      shard'.events = (keys.map .dropped).reverse ++ shard.events ∧
      (shard'.usage ≤ shard'.capacity ∨ view.lru.drop n = []) := by
  induction rounds generalizing shard view with
  | zero => exact absurd hrounds (Nat.not_lt_zero _)
  | succ rounds ih =>
    have hpath := h.rings.first.next
    cases hlru : view.lru with
    | nil =>
      rw [hlru] at hpath
      refine ⟨0, shard, [], ?_, ?_, ⟨rfl, rfl, rfl, rfl, rfl, rfl⟩, .nil, rfl, .inr rfl⟩
      · unfold LruShard.evictLoop
        rw [if_neg (by simp [hpath.start_eq])]
        rfl
      · rw [← hlru]
        exact h
    | cons i l =>
      by_cases hover : shard.capacity < shard.usage
      · obtain ⟨shard₁, key, hkey, hstep, hrep, hkeeps, hevents⟩ :=
          h.evictOldest hleaving harriving hlru
        rw [hlru] at hpath
        have hlength : l.length < rounds := by
          rw [hlru, List.length_cons] at hrounds
          omega
        obtain ⟨n, shard', keys, hloop, hrep', hkeeps', hkeys, hevents', hfits⟩ :=
          ih hrep hleaving harriving hlength
        refine ⟨n + 1, shard', key :: keys, ?_, ?_, hkeeps.trans hkeeps', ?_, ?_, hfits⟩
        · unfold LruShard.evictLoop
          rw [if_pos ⟨hover, by simp [hpath.1]⟩, hstep]
          simpa using hloop
        · simpa using hrep'
        · refine .cons hkey (hkeys.imp fun _ _ hk => ⟨mapping_of_dropped hevents hk.1, ?_⟩)
          rw [← hkeeps.handles]
          exact hk.2
        · rw [hevents', hevents]
          simp
      · refine ⟨0, shard, [], ?_, ?_, ⟨rfl, rfl, rfl, rfl, rfl, rfl⟩, .nil, rfl,
          .inl (UInt64.not_lt.mp hover)⟩
        · unfold LruShard.evictLoop
          rw [if_neg (fun hboth => hover hboth.1)]
          rfl
        · rw [← hlru]
          exact h

end LruShard
end ModernLevelDB
