import ModernLevelDB.Cache.LruLists

/-! # The operations of a shard

Each operation takes a shard whose lists and counts are right to one whose lists and counts are right. -/
namespace ModernLevelDB
set_option autoImplicit false

open Links HandleTable

variable {K V : Type*}

namespace LruShard

/-! ## Destroying retired entries -/

theorem deleteLoop_spec {l : List Nat} {rounds : Nat} {first : Option Nat} {shard : LruShard K V}
    (hpath : Path shard.table.nextHash first l none) (hnodup : l.Nodup) (hrounds : l.length < rounds) :
    ∃ table, deleteLoop rounds first shard =
        { shard with table, destroyed := fun i => shard.destroyed i + if i ∈ l then 1 else 0 } ∧
      ∀ map : K → Option Nat, (∀ i ∈ l, ∀ key, map key ≠ some i) →
        Stores shard.entries shard.table map → Stores shard.entries table map := by
  induction l generalizing rounds first shard with
  | nil =>
    obtain ⟨rounds, rfl⟩ := Nat.exists_eq_succ_of_ne_zero (Nat.ne_of_gt hrounds)
    cases hpath
    exact ⟨shard.table, by simp [deleteLoop], fun _ _ h => h⟩
  | cons entry l ih =>
    obtain ⟨rounds, rfl⟩ := Nat.exists_eq_succ_of_ne_zero (Nat.ne_of_gt (Nat.zero_lt_of_lt hrounds))
    obtain ⟨rfl, hpath⟩ := hpath
    obtain ⟨hnot, hnodup⟩ := List.nodup_cons.mp hnodup
    have hrest : Path (shard.table.write (.nextHash entry) none).nextHash (shard.table.nextHash entry) l
        none := by
      refine hpath.congr (fun i hi => write_nextHash _ _ ?_)
      intro heq
      cases heq
      exact hnot hi
    obtain ⟨table, hloop, hstores⟩ := @ih rounds _
      (deleteEntry entry { shard with table := shard.table.write (.nextHash entry) none })
      hrest hnodup (Nat.lt_of_succ_lt_succ hrounds)
    refine ⟨table, hloop.trans ?_, fun map hmap h => hstores map ?_ ?_⟩
    · have hdestroyed : (fun i => Function.update shard.destroyed entry (shard.destroyed entry + 1) i +
          if i ∈ l then 1 else 0) = fun i => shard.destroyed i + if i ∈ entry :: l then 1 else 0 := by
        funext i
        by_cases heq : i = entry
        · subst heq
          simp [hnot]
        · simp [heq]
      unfold deleteEntry
      simp only [hdestroyed]
    · exact fun i hi => hmap i (List.mem_cons_of_mem _ hi)
    · exact h.write_unmapped (hmap entry List.mem_cons_self) none

variable [DecidableEq K] {hashKey : K → UInt32} {shard : LruShard K V} {view : ShardView}

theorem Represents.retired_length (h : Represents hashKey shard view) :
    view.retired.length ≤ shard.entries.length := by
  have hsub : view.retired ⊆ List.range shard.entries.length :=
    fun i hi => List.mem_range.mpr (h.unreferenced i hi).1
  simpa using (List.subperm_of_subset h.retiredNodup hsub).length_le

theorem Represents.deleteRetired (h : Represents hashKey shard view) :
    ∃ table destroyed, deleteRetired view.retired.head? shard = { shard with table, destroyed } ∧
      Represents hashKey { shard with table, destroyed } { view with retired := [] } := by
  obtain ⟨table, hloop, hstores⟩ := deleteLoop_spec h.retired h.retiredNodup
    (Nat.lt_succ_of_le h.retired_length)
  refine ⟨table, _, hloop, { h with
    stores := ?_, retired := rfl, retiredNodup := List.nodup_nil, unreferenced := ?_, destroyed := ?_ }⟩
  · simp
  · intro i
    simp only [h.destroyed i]
    by_cases hi : i ∈ view.retired
    · simp [hi, h.unreferenced i hi]
    · simp [hi]
  · exact hstores _ (fun i hi => h.unmapped_of_inCache (h.unreferenced i hi).2.1) h.stores

/-! ## Counting handles -/

section

variable (h : Represents hashKey shard view)

include h

theorem Represents.lt_of_mem {i : Nat}
    (hi : i ∈ view.lru ++ view.inUse) : i < shard.entries.length := by
  rcases List.mem_append.mp hi with hi | hi
  · exact h.lt_of_inCache ((h.lru i).mp hi).1
  · exact h.lt_of_inCache ((h.inUse i).mp hi).1

theorem Represents.lru_length :
    view.lru.length ≤ shard.entries.length := by
  have hsub : view.lru ⊆ List.range shard.entries.length :=
    fun i hi => List.mem_range.mpr (h.lt_of_mem (List.mem_append_left _ hi))
  simpa using (List.subperm_of_subset h.nodup_lru hsub).length_le

theorem Represents.nodup_lists : (view.lru ++ view.inUse).Nodup := by
  refine List.nodup_append.mpr ⟨h.nodup_lru, h.nodup_inUse, fun i hi j hj heq => ?_⟩
  subst heq
  exact h.notMem_inUse hi hj

theorem Represents.charges_eq {l : List Nat} (hnodup : l.Nodup)
    (hmem : ∀ i, i ∈ l ↔ shard.inCache i = true) :
    shard.charges l = shard.charges (view.lru ++ view.inUse) := by
  have hperm : l.Perm (view.lru ++ view.inUse) := by
    refine (List.perm_ext_iff_of_nodup hnodup h.nodup_lists).mpr (fun i => ?_)
    rw [hmem, List.mem_append, h.lru, h.inUse, ← and_or_left]
    have := Nat.eq_zero_or_pos (shard.handles i)
    tauto
  exact (hperm.map _).sum_eq

theorem Represents.recount {entry handles clock : Nat} {refs : UInt32}
    {links : Heap ListNode} {lru inUse : List Nat} {lastRelease : Nat → Nat}
    (hbefore : shard.inCache entry = true ∨ 0 < shard.handles entry)
    (hafter : shard.inCache entry = true ∨ 0 < handles)
    (hrefs : refs.toNat = handles + (shard.inCache entry).toNat)
    (hrings : Rings links .lru (lru.map .entry) .inUse (inUse.map .entry))
    (hothers : ∀ i, i ≠ entry → (i ∈ lru ↔ i ∈ view.lru) ∧ (i ∈ inUse ↔ i ∈ view.inUse))
    (hlru : entry ∈ lru ↔ shard.inCache entry = true ∧ handles = 0)
    (hinUse : entry ∈ inUse ↔ shard.inCache entry = true ∧ 0 < handles)
    (harriving : view.arriving = none)
    (horder : lru.Pairwise fun i j => lastRelease i < lastRelease j)
    (hreleased : ∀ i, lastRelease i ≤ clock) :
    Represents hashKey
      { shard with
        links, clock, lastRelease
        refs := Function.update shard.refs entry refs
        handles := Function.update shard.handles entry handles }
      { view with lru, inUse } := by
  have hlt : entry < shard.entries.length := hbefore.elim h.lt_of_inCache h.lt_of_handles
  have hno : ¬ (shard.inCache entry = false ∧ shard.handles entry = 0) := by
    rintro ⟨hin, hzero⟩
    rw [hin, hzero] at hbefore
    simp at hbefore
  have hno' : ¬ (shard.inCache entry = false ∧ handles = 0) := by
    rintro ⟨hin, hzero⟩
    rw [hin, hzero] at hafter
    simp at hafter
  have hcounts : Counts
      { shard with
        links, clock, lastRelease
        refs := Function.update shard.refs entry refs
        handles := Function.update shard.handles entry handles }
      { view with lru, inUse } := by
    refine h.counts entry (fun i hi => by simp [hi, hothers i hi]) ?_
    refine ⟨by simpa using hlru, by simpa using hinUse, by simpa using hrefs,
      fun hge => absurd hlt (Nat.not_lt.mpr hge), fun hi => absurd (h.unreferenced entry hi).2 hno, ?_⟩
    simp only [h.destroyed entry, Function.update_self]
    rw [if_neg (fun hall => hno ⟨hall.2.1, hall.2.2.1⟩),
      if_neg (fun hall => hno' ⟨hall.2.1, hall.2.2.1⟩)]
  have hlists : (lru ++ inUse).Nodup ∧ ∀ i, i ∈ lru ++ inUse ↔ shard.inCache i = true := by
    have hfirst : lru.Nodup := (List.nodup_cons.mp hrings.first.nodup).2.of_map _
    have hsecond : inUse.Nodup := (List.nodup_cons.mp hrings.second.nodup).2.of_map _
    constructor
    · refine List.nodup_append.mpr ⟨hfirst, hsecond, fun i hi j hj heq => ?_⟩
      subst heq
      have hzero := ((hcounts.lru i).mp hi).2
      have hpos := ((hcounts.inUse i).mp hj).2
      omega
    · intro i
      refine List.mem_append.trans ((or_congr (hcounts.lru i) (hcounts.inUse i)).trans ?_)
      rw [← and_or_left]
      exact and_iff_left (Nat.eq_zero_or_pos _)
  exact { hcounts, h with
    rings := hrings, arriving := by simp [harriving]
    usage := h.usage.trans (h.charges_eq hlists.1 hlists.2).symm
    order := horder, released := hreleased }

end

/-! ## Lookups -/

theorem toNat_succ {n : UInt32} (h : n + 1 ≠ 0) : (n + 1).toNat = n.toNat + 1 := by
  have hne : (n + 1).toNat ≠ 0 := fun heq => h (UInt32.toNat_inj.mp heq)
  have hlt := n.toNat_lt
  rw [UInt32.toNat_add] at hne ⊢
  have hone : (1 : UInt32).toNat = 1 := rfl
  rw [hone] at hne ⊢
  omega

omit [DecidableEq K] in
theorem ref_frame (entry : Nat) (shard : LruShard K V) :
    (ref entry shard).entries = shard.entries ∧ (ref entry shard).events = shard.events ∧
      (ref entry shard).handles = Function.update shard.handles entry (shard.handles entry + 1) := by
  unfold ref
  split <;> exact ⟨rfl, rfl, rfl⟩

theorem Represents.ref (h : Represents hashKey shard view) {entry : Nat}
    (hin : shard.inCache entry = true) (hwithin : shard.refs entry + 1 ≠ 0)
    (harriving : view.arriving = none) :
    Represents hashKey (ref entry shard)
      (if shard.handles entry = 0 then
        { view with lru := view.lru.erase entry, inUse := view.inUse ++ [entry] } else view) := by
  have hrefs := h.refs entry
  have hsucc : (shard.refs entry + 1).toNat =
      shard.handles entry + 1 + (shard.inCache entry).toNat := by
    rw [toNat_succ hwithin, hrefs, Nat.add_right_comm]
  have hone : shard.refs entry = 1 ↔ shard.handles entry = 0 := by
    rw [hin, Bool.toNat_true] at hrefs
    rw [← UInt32.toNat_inj, hrefs]
    exact Nat.succ_inj
  unfold LruShard.ref
  by_cases hzero : shard.handles entry = 0
  · have hlru : entry ∈ view.lru := (h.lru entry).mpr ⟨hin, hzero⟩
    have hnot := h.notMem_inUse hlru
    rw [if_pos (hone.mpr hzero), if_pos hzero]
    refine h.recount (.inl hin) (.inl hin) hsucc ?_ (fun i hi => ?_) ?_ ?_ harriving
      (h.order.sublist List.erase_sublist) h.released
    · have hrings := (h.rings_remove hin).symm
      rw [List.erase_of_not_mem hnot] at hrings
      rw [List.map_append]
      refine (hrings.append ?_ ?_).symm
      · simpa using hnot
      · simp [h.nodup_lru.mem_erase_iff]
    · simp [h.nodup_lru.mem_erase_iff, hi]
    · simp [h.nodup_lru.mem_erase_iff]
    · simp [hin]
  · rw [if_neg (fun heq => hzero (hone.mp heq)), if_neg hzero]
    refine h.recount (.inl hin) (.inl hin) hsucc h.rings (fun _ _ => ⟨Iff.rfl, Iff.rfl⟩) ?_ ?_
      harriving h.order h.released
    · simp [h.lru, hzero]
    · simp [h.inUse, Nat.pos_of_ne_zero hzero]

theorem Represents.lookup {lru inUse : List Nat} (h : Represents hashKey shard { lru, inUse }) (key : K)
    (hwithin : ∀ entry, shard.mapping key = some entry → shard.refs entry + 1 ≠ 0) :
    ∃ shard' lru' inUse', lookup hashKey key shard = (shard.mapping key, shard') ∧
      Represents hashKey shard' { lru := lru', inUse := inUse' } ∧
      shard'.entries = shard.entries ∧ shard'.events = shard.events ∧
      ∀ i, shard'.handles i = shard.handles i + if shard.mapping key = some i then 1 else 0 := by
  unfold LruShard.lookup
  rw [h.stores.lookup h.hash key]
  cases hkey : shard.mapping key with
  | none => exact ⟨shard, lru, inUse, rfl, h, rfl, rfl, by simp⟩
  | some entry =>
    have href := h.ref (h.inCache_of_mapping hkey) (hwithin entry hkey) rfl
    obtain ⟨hentries, hevents, hhandles⟩ := ref_frame entry shard
    refine ⟨_, if shard.handles entry = 0 then lru.erase entry else lru,
      if shard.handles entry = 0 then inUse ++ [entry] else inUse, rfl, ?_, hentries, hevents, ?_⟩
    · split at href
      · rwa [if_pos ‹_›, if_pos ‹_›]
      · rwa [if_neg ‹_›, if_neg ‹_›]
    · intro i
      rw [hhandles, Function.update_apply]
      by_cases heq : i = entry
      · simp [heq]
      · simp [heq, Ne.symm heq]

/-! ## Erasing a key -/

theorem Represents.erase {lru inUse : List Nat} (h : Represents hashKey shard { lru, inUse }) (key : K) :
    ∃ shard' lru' inUse', erase hashKey key shard = shard' ∧
      Represents hashKey shard' { lru := lru', inUse := inUse' } ∧
      shard'.entries = shard.entries ∧ shard'.handles = shard.handles ∧
      shard'.events = .dropped key :: shard.events := by
  obtain ⟨shard₁, hmapping, hrep, hkeeps, hevents⟩ := h.eraseMapping rfl rfl key
  obtain ⟨table, destroyed, hdelete, hrep'⟩ := hrep.deleteRetired
  have herase : LruShard.erase hashKey key shard = { shard₁ with table, destroyed } := by
    rw [← hdelete]
    unfold LruShard.erase
    rw [show LruShard.eraseMapping key (hashKey key) none shard = _ from hmapping]
  obtain ⟨hleaving, harriving⟩ := ShardView.leaving_finishErase shard.handles
    { lru, inUse, leaving := shard.mapping key }
  simp only [hleaving, harriving] at hrep'
  exact ⟨_, _, _, herase, hrep', hkeeps.entries, hkeeps.handles, hevents⟩

/-! ## Releasing a handle -/

theorem Represents.released_update (h : Represents hashKey shard view) (entry i : Nat) :
    Function.update shard.lastRelease entry (shard.clock + 1) i ≤ shard.clock + 1 := by
  by_cases heq : i = entry
  · subst heq
    simp
  · rw [Function.update_of_ne heq]
    exact Nat.le_succ_of_le (h.released i)

theorem Represents.order_update (h : Represents hashKey shard view) {entry : Nat}
    (hnot : entry ∉ view.lru) (time : Nat) :
    view.lru.Pairwise fun i j => Function.update shard.lastRelease entry time i <
      Function.update shard.lastRelease entry time j := by
  have hne : ∀ i ∈ view.lru, i ≠ entry := by
    rintro i hi rfl
    exact hnot hi
  refine h.order.imp_of_mem (fun {i j} hi hj hlt => ?_)
  rwa [Function.update_of_ne (hne i hi), Function.update_of_ne (hne j hj)]

variable {lru inUse : List Nat} {entry : Nat}

section

variable (h : Represents hashKey shard { lru, inUse })

include h

theorem Represents.notMem_lru (hpos : 0 < shard.handles entry) : entry ∉ lru := by
  intro hmem
  have hzero := ((h.lru entry).mp hmem).2
  omega

theorem Represents.refs_pred (hpos : 0 < shard.handles entry) :
    (shard.refs entry - 1).toNat = shard.handles entry - 1 + (shard.inCache entry).toNat := by
  have hrefs := h.refs entry
  rw [toNat_pred (by omega)]
  omega

theorem Represents.release_cached
    (hin : shard.inCache entry = true) (hone : shard.handles entry = 1) :
    Represents hashKey (release entry shard)
      { lru := lru ++ [entry], inUse := inUse.erase entry } := by
  have hpred := h.refs_pred (Nat.lt_of_lt_of_eq Nat.zero_lt_one hone.symm)
  have hnot := h.notMem_lru (Nat.lt_of_lt_of_eq Nat.zero_lt_one hone.symm)
  have hrefs : shard.refs entry - 1 = 1 := by
    rw [hin, hone] at hpred
    exact UInt32.toNat_inj.mp hpred
  unfold release unref
  simp only [hrefs, hin]
  rw [hrefs] at hpred
  refine h.recount (.inl hin) (.inl hin) hpred ?_ (fun i hi => ?_) ?_ ?_ rfl ?_
    (h.released_update entry)
  · have hrings := h.rings_remove hin
    rw [List.erase_of_not_mem hnot] at hrings
    rw [List.map_append]
    refine hrings.append ?_ ?_
    · simpa using hnot
    · simp [h.nodup_inUse.mem_erase_iff]
  · simp [h.nodup_inUse.mem_erase_iff, hi]
  · simp [hin, hone]
  · simp [h.nodup_inUse.mem_erase_iff, hone]
  · refine List.pairwise_append.mpr ⟨h.order_update hnot _, List.pairwise_singleton _ _, ?_⟩
    intro i hi j hj
    have hne : i ≠ entry := by
      rintro rfl
      exact hnot hi
    dsimp only
    rw [List.mem_singleton.mp hj, Function.update_self, Function.update_of_ne hne]
    exact Nat.lt_succ_of_le (h.released i)

theorem Represents.release_other
    (hmore : 1 < shard.handles entry) : Represents hashKey (release entry shard) { lru, inUse } := by
  have hpred := h.refs_pred (Nat.zero_lt_of_lt hmore)
  have hnot := h.notMem_lru (Nat.zero_lt_of_lt hmore)
  have hzero : shard.refs entry - 1 ≠ 0 := by
    intro heq
    rw [heq, UInt32.toNat_zero] at hpred
    omega
  have hone : ¬ (shard.inCache entry = true ∧ shard.refs entry - 1 = 1) := by
    rintro ⟨hin, heq⟩
    rw [hin, heq, UInt32.toNat_one, Bool.toNat_true] at hpred
    omega
  unfold release unref
  simp only [if_neg hzero, if_neg hone]
  refine h.recount (.inr (Nat.zero_lt_of_lt hmore)) (.inr (Nat.sub_pos_of_lt hmore)) hpred h.rings
    (fun _ _ => ⟨Iff.rfl, Iff.rfl⟩) ((h.lru entry).trans ?_) ((h.inUse entry).trans ?_) rfl
    (h.order_update hnot _) (h.released_update entry)
  · exact and_congr_right' (by omega)
  · exact and_congr_right' (by omega)

theorem Represents.unref_last (hin : shard.inCache entry = false) (hone : shard.handles entry = 1) :
    Represents hashKey
      { shard with
        clock := shard.clock + 1
        lastRelease := Function.update shard.lastRelease entry (shard.clock + 1)
        refs := Function.update shard.refs entry 0
        handles := Function.update shard.handles entry (shard.handles entry - 1)
        table := shard.table.write (.nextHash entry) none }
      { lru, inUse, retired := [entry] } := by
  have hnot := h.notMem_lru (Nat.lt_of_lt_of_eq Nat.zero_lt_one hone.symm)
  have hlt := h.lt_of_handles (Nat.lt_of_lt_of_eq Nat.zero_lt_one hone.symm)
  refine { h.counts entry (fun i hi => by simp [hi]) ?_, h with
    stores := h.stores.write_unmapped (h.unmapped_of_inCache hin) _
    retired := path_retire h.retired List.not_mem_nil, retiredNodup := List.nodup_singleton _
    order := h.order_update hnot _, released := h.released_update entry }
  exact ⟨by simp [h.lru, hin], by simp [h.inUse, hin], by simp [hone, hin],
    fun hge => absurd hlt (Nat.not_lt.mpr hge), fun _ => by simp [hlt, hin, hone],
    by simp [h.destroyed, hone]⟩

theorem Represents.release_last
    (hin : shard.inCache entry = false) (hone : shard.handles entry = 1) :
    Represents hashKey (release entry shard) { lru, inUse } := by
  have hrefs : shard.refs entry - 1 = 0 := by
    have hpred := h.refs_pred (Nat.lt_of_lt_of_eq Nat.zero_lt_one hone.symm)
    rw [hin, hone] at hpred
    exact UInt32.toNat_inj.mp hpred
  obtain ⟨table, destroyed, hdelete, hrep⟩ := (h.unref_last hin hone).deleteRetired
  unfold LruShard.release unref retire
  simp only [hrefs, if_true]
  rw [← hdelete] at hrep
  exact hrep

end

omit [DecidableEq K] in
theorem unref_frame (entry : Nat) (retired : Option Nat) (shard : LruShard K V) :
    (unref entry retired shard).2.entries = shard.entries ∧
      (unref entry retired shard).2.events = shard.events ∧
      (unref entry retired shard).2.handles = shard.handles := by
  unfold unref
  simp only
  split
  · exact ⟨rfl, rfl, rfl⟩
  · split <;> exact ⟨rfl, rfl, rfl⟩

omit [DecidableEq K] in
theorem deleteLoop_frame (rounds : Nat) (retired : Option Nat) (shard : LruShard K V) :
    (deleteLoop rounds retired shard).entries = shard.entries ∧
      (deleteLoop rounds retired shard).events = shard.events ∧
      (deleteLoop rounds retired shard).handles = shard.handles := by
  induction rounds generalizing retired shard with
  | zero => exact ⟨rfl, rfl, rfl⟩
  | succ rounds ih =>
    cases retired with
    | none => exact ⟨rfl, rfl, rfl⟩
    | some entry => exact ih _ _

omit [DecidableEq K] in
theorem release_frame (entry : Nat) (shard : LruShard K V) :
    (release entry shard).entries = shard.entries ∧ (release entry shard).events = shard.events ∧
      (release entry shard).handles =
        Function.update shard.handles entry (shard.handles entry - 1) := by
  unfold release deleteRetired
  obtain ⟨hentries, hevents, hhandles⟩ := unref_frame entry none
    { shard with
      handles := Function.update shard.handles entry (shard.handles entry - 1)
      clock := shard.clock + 1
      lastRelease := Function.update shard.lastRelease entry (shard.clock + 1) }
  obtain ⟨hentries', hevents', hhandles'⟩ := deleteLoop_frame _ _ _
  exact ⟨hentries'.trans hentries, hevents'.trans hevents, hhandles'.trans hhandles⟩

theorem Represents.release (h : Represents hashKey shard { lru, inUse })
    (hpos : 0 < shard.handles entry) :
    ∃ lru' inUse', Represents hashKey (release entry shard) { lru := lru', inUse := inUse' } := by
  by_cases hone : shard.handles entry = 1
  · cases hin : shard.inCache entry with
    | true => exact ⟨_, _, h.release_cached hin hone⟩
    | false => exact ⟨_, _, h.release_last hin hone⟩
  · exact ⟨_, _, h.release_other (by omega)⟩

/-! ## Destroying a shard -/

omit [DecidableEq K] in
theorem destroyLoop_spec {l r : List Nat} {rounds : Nat} {start : Option ListNode}
    {shard : LruShard K V} (hpath : Path shard.links.next start (l.map .entry) (some .lru))
    (hrefs : ∀ i ∈ l, shard.refs i = 1) (hretired : Path shard.table.nextHash r.head? r none)
    (hnodup : (l.reverse ++ r).Nodup) (hrounds : l.length < rounds) :
    ∃ shard', destroyLoop rounds start r.head? shard = ((l.reverse ++ r).head?, shard') ∧
      Path shard'.table.nextHash (l.reverse ++ r).head? (l.reverse ++ r) none ∧
      shard'.destroyed = shard.destroyed ∧ shard'.entries = shard.entries := by
  induction l generalizing r rounds start shard with
  | nil =>
    obtain ⟨rounds, rfl⟩ := Nat.exists_eq_succ_of_ne_zero (Nat.ne_of_gt hrounds)
    cases hpath
    exact ⟨shard, rfl, hretired, rfl, rfl⟩
  | cons entry l ih =>
    obtain ⟨rounds, rfl⟩ := Nat.exists_eq_succ_of_ne_zero (Nat.ne_of_gt (Nat.zero_lt_of_lt hrounds))
    obtain ⟨rfl, hpath⟩ := hpath
    have hassoc : (entry :: l).reverse ++ r = l.reverse ++ entry :: r := by simp
    rw [hassoc] at hnodup ⊢
    have hnot : entry ∉ r :=
      (List.nodup_cons.mp (List.nodup_append.mp hnodup).2.1).1
    have hnotList : entry ∉ l := by
      intro hmem
      exact (List.nodup_append.mp hnodup).2.2 entry (List.mem_reverse.mpr hmem) entry
        List.mem_cons_self rfl
    have hunref : unref entry r.head?
        { shard with inCache := Function.update shard.inCache entry false } =
        (some entry,
          { shard with
            inCache := Function.update shard.inCache entry false
            refs := Function.update shard.refs entry 0
            table := shard.table.write (.nextHash entry) r.head? }) := by
      unfold unref retire
      simp only [hrefs entry List.mem_cons_self]
      rfl
    unfold destroyLoop
    simp only [hunref]
    refine @ih (entry :: r) rounds _ _ hpath ?_ (path_retire hretired hnot) hnodup
      (Nat.lt_of_succ_lt_succ hrounds)
    intro i hi
    have hne : i ≠ entry := by
      rintro rfl
      exact hnotList hi
    exact (Function.update_of_ne hne _ _).trans (hrefs i (List.mem_cons_of_mem _ hi))

/-- Without handles, every entry has been destroyed once when its shard has been. -/
theorem Represents.destroyShard {lru inUse : List Nat} (h : Represents hashKey shard { lru, inUse })
    (hhandles : ∀ i, shard.handles i = 0) {i : Nat} (hi : i < shard.entries.length) :
    (destroyShard shard).destroyed i = 1 := by
  have hrefs : ∀ i ∈ lru, shard.refs i = 1 := by
    intro i hi
    have hcount := h.refs i
    rw [((h.lru i).mp hi).1, hhandles i] at hcount
    exact UInt32.toNat_inj.mp hcount
  obtain ⟨shard₁, hloop, hretired, hdestroyed, hentries⟩ := destroyLoop_spec h.rings.first.next hrefs
    h.retired (by simpa using h.nodup_lru) (Nat.lt_succ_of_le h.lru_length)
  have hlength : (lru.reverse ++ []).length < shard₁.entries.length + 1 := by
    simpa [hentries] using Nat.lt_succ_of_le h.lru_length
  obtain ⟨table, hdelete, -⟩ := @deleteLoop_spec K V (lru.reverse ++ []) _ _ { shard₁ with usage := 0 }
    hretired (by simpa using h.nodup_lru) hlength
  have hdestroy : (LruShard.destroyShard shard).destroyed i =
      shard₁.destroyed i + if i ∈ lru.reverse ++ [] then 1 else 0 := by
    unfold LruShard.destroyShard
    rw [show destroyLoop (shard.entries.length + 1) (shard.links.next .lru) none shard = _ from hloop]
    exact congrArg (·.destroyed i) hdelete
  rw [hdestroy, hdestroyed, h.destroyed i]
  have hmem := h.lru i
  rw [hhandles i] at hmem
  simp only at hmem
  cases hin : shard.inCache i with
  | true => simp [hmem, hin]
  | false => simp [hmem, hin, hi, hhandles i]

end LruShard
end ModernLevelDB
