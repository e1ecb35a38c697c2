import ModernLevelDB.Engine.DbIterator
import ModernLevelDB.Engine.MergingIterator

/-! # Iterators over the live memtable

A writer links entries into the mutable memtable while iterators read it. An iterator of the memtable
(`memory/skiplist.h`) holds a node and no lock, so each of its operations works on what is linked by
then. Only its own operations look at the list: what is linked before another child moves is there at
its next operation. -/
namespace ModernLevelDB
set_option autoImplicit false

open Cursor

variable {σ κ ν K V : Type*}

/-! ## The iterator of the memtable -/

/-- `links` are the entries that the writer links before each of the next operations. -/
structure MemTableIterator (κ ν : Type*) where
  entries : List (κ × ν)
  node : Option (κ × ν) := none
  links : List (List (κ × ν)) := []

namespace MemTableIterator

variable [LinearOrder κ]

def link (entries batch : List (κ × ν)) : List (κ × ν) := batch.foldr (List.orderedInsert KeyLe) entries

def linked (iterator : MemTableIterator κ ν) : List (κ × ν) :=
  link iterator.entries (iterator.links.headD [])

/-- `FindGreaterOrEqual`, `FindLessThan` and `FindLast` over what is linked; the link of a node leads to
the next key. -/
def move (m : Move κ) (iterator : MemTableIterator κ ν) : MemTableIterator κ ν where
  entries := iterator.linked
  node := (step iterator.linked m iterator.node).getD none
  links := iterator.links.tail

theorem mem_link {entries batch : List (κ × ν)} {x : κ × ν} :
    x ∈ link entries batch ↔ x ∈ batch ∨ x ∈ entries := by
  unfold link
  induction batch with
  | nil => simp
  | cons y batch ih => rw [List.foldr_cons, List.mem_orderedInsert, ih, List.mem_cons, or_assoc]

theorem pairwise_link {entries : List (κ × ν)} (h : entries.Pairwise KeyLe) (batch : List (κ × ν)) :
    (link entries batch).Pairwise KeyLe := by
  unfold link
  induction batch with
  | nil => exact h
  | cons y batch ih => exact ih.orderedInsert y _

/-- The memtable holds its first entries and some of those that are linked. -/
structure Holds (old all : List (κ × ν)) (iterator : MemTableIterator κ ν) : Prop where
  sorted : iterator.entries.Pairwise KeyLe
  kept : old ⊆ iterator.entries
  within : iterator.entries ⊆ all
  pending : iterator.links.flatten ⊆ all
  node : ∀ x ∈ iterator.node, x ∈ all

theorem Holds.linked {old all : List (κ × ν)} {iterator : MemTableIterator κ ν}
    (h : Holds old all iterator) : iterator.linked.Pairwise KeyLe ∧ old ⊆ iterator.linked ∧
      iterator.linked ⊆ all ∧ iterator.links.tail.flatten ⊆ all := by
  refine ⟨pairwise_link h.sorted _, fun x hx => mem_link.mpr (.inr (h.kept hx)), ?_, ?_⟩
  · intro x hx
    rcases mem_link.mp hx with hx | hx
    · refine h.pending (List.mem_flatten.mpr ⟨_, ?_, hx⟩)
      cases hlinks : iterator.links with
      | nil =>
        rw [hlinks] at hx
        cases hx
      | cons batch rest => exact List.mem_cons_self
    · exact h.within hx
  · intro x hx
    obtain ⟨batch, hbatch, hx⟩ := List.mem_flatten.mp hx
    exact h.pending (List.mem_flatten.mpr ⟨batch, List.mem_of_mem_tail hbatch, hx⟩)

end MemTableIterator

def memTableIterator (κ ν : Type*) [LinearOrder κ] :
    Iterator (MemTableIterator κ ν) κ ν Error where
  current := MemTableIterator.node
  move m iterator := (.ok (), iterator.move m)

/-- An iterator of the memtable passes none of the entries that were there from the start. -/
theorem memTableIterator_tracks [LinearOrder κ] (old all : List (κ × ν)) :
    Tracks (memTableIterator κ ν) old all (MemTableIterator.Holds old all) where
  mem := fun h hx => h.node _ hx
  move := by
    intro iterator m h hallowed
    obtain ⟨hsorted, hold, hall, hlinks⟩ := h.linked
    obtain ⟨position, hstep⟩ := step_isSome iterator.linked hallowed
    obtain ⟨hreached, hmem⟩ := reached_step hsorted hstep
    have hnode : (iterator.move m).node = position := by
      show (step iterator.linked m iterator.node).getD none = position
      rw [show step iterator.linked m iterator.node = some position from hstep]
      rfl
    refine ⟨iterator.move m, rfl, ⟨hsorted, hold, hall, hlinks, ?_⟩, ?_⟩
    · rw [hnode]
      exact fun x hx => hall (hmem x hx)
    · show Reached old m iterator.node (iterator.move m).node
      rw [hnode]
      exact hreached.subset hold

/-! ## A snapshot over the live memtable -/

namespace DbIterator

/-- The iterator that `NewIterator` makes at a sequence, over the mutable memtable and the other
children. -/
def newIterator [LinearOrder K] (it : Iterator σ (InternalKey K) V Error)
    (memtable : List (InternalKey K × V)) (links : List (List (InternalKey K × V))) (others : List σ)
    (sequence : Nat) :
    DbIterator (MergingIterator (MemTableIterator (InternalKey K) V ⊕ σ) (InternalKey K)) K V where
  internal := MergingIterator.create ((memTableIterator (InternalKey K) V).sum it)
    (.inl { entries := memtable, links } :: others.map .inr)
  sequence := sequence

abbrev snapshotIterator [LinearOrder K] (it : Iterator σ (InternalKey K) V Error) (rounds : Nat) :
    Iterator (DbIterator (MergingIterator (MemTableIterator (InternalKey K) V ⊕ σ) (InternalKey K)) K V)
      K V Error :=
  dbIterator (mergingIterator ((memTableIterator (InternalKey K) V).sum it)) rounds

section Snapshot

variable {s : Nat}

def visible (s : Nat) (entries : List (InternalKey K × V)) : List (InternalKey K × V) :=
  entries.filter (fun entry => entry.1.sequence ≤ s)

theorem mem_visible {entries : List (InternalKey K × V)} {e : InternalKey K × V} :
    e ∈ visible s entries ↔ e ∈ entries ∧ e.1.sequence ≤ s := by
  simp [visible]

variable [LinearOrder K] {it : Iterator σ (InternalKey K) V Error} {memtable : List (InternalKey K × V)}
  {links lists : List (List (InternalKey K × V))} {others : List σ}

theorem children_track (s : Nat) (links : List (List (InternalKey K × V)))
    (hothers : List.Forall₂ (Behaves it) lists others)
    (hsorted : ∀ list ∈ memtable :: lists, list.Pairwise KeyLe) :
    ∃ Inv : Nat → MemTableIterator (InternalKey K) V ⊕ σ → Prop,
      (∀ i < lists.length + 1, Tracks ((memTableIterator (InternalKey K) V).sum it)
        (visible s ((memtable :: lists).getD i []))
        (((memtable ++ links.flatten) :: lists).getD i []) (Inv i)) ∧
      ∀ (i : Nat) child, (Sum.inl { entries := memtable, links } ::
        others.map Sum.inr)[i]? = some child → Inv i child := by
  obtain ⟨Inv, htracks, hstart⟩ :=
    tracks_each hothers (fun list hlist => hsorted list (List.mem_cons_of_mem _ hlist))
  have hsub : ∀ entries : List (InternalKey K × V), visible s entries ⊆ entries :=
    fun entries => List.filter_subset_self _
  refine ⟨fun i => Nat.casesOn i
    (Sum.elim (MemTableIterator.Holds (visible s memtable) (memtable ++ links.flatten))
      (fun _ => False))
    (fun i => Sum.elim (fun _ => False) (Inv i)), ?_, ?_⟩
  · intro i hi
    cases i with
    | zero => exact (memTableIterator_tracks _ _).sum_inl it
    | succ i =>
      exact ((htracks i (Nat.lt_of_succ_lt_succ hi)).subset (hsub _)).sum_inr _
  · intro i child hchild
    cases i with
    | zero =>
      cases hchild
      exact ⟨hsorted memtable List.mem_cons_self, hsub memtable, List.subset_append_left _ _,
        List.subset_append_right _ _, by simp⟩
    | succ i =>
      rw [List.getElem?_cons_succ, List.getElem?_map] at hchild
      obtain ⟨other, hother, rfl⟩ := Option.map_eq_some_iff.mp hchild
      exact hstart i other hother

/-- Whatever is linked, the iterator is a cursor over what the reader saw when it was made. -/
theorem newIterator_behaves (hothers : List.Forall₂ (Behaves it) lists others)
    (hsorted : ∀ list ∈ memtable :: lists, list.Pairwise KeyLe)
    (hdistinct : ((memtable :: lists).flatten.map Prod.fst).Nodup)
    (hlinks : ∀ e ∈ links.flatten, s < e.1.sequence) {rounds : Nat}
    (hrounds : (memtable :: lists).flatten.length + links.flatten.length < rounds) :
    Behaves (snapshotIterator it rounds) (userView (sorted (memtable :: lists).flatten) s)
      (newIterator it memtable links others s) := by
  obtain ⟨Inv, htracks, hstart⟩ := children_track s links hothers hsorted
  -- An entry that the reader sees was there from the start, so no other child has its key.
  have hinitial : ∀ i e, e ∈ ((memtable ++ links.flatten) :: lists).getD i [] → e.1.sequence ≤ s →
      e ∈ (memtable :: lists).getD i [] := by
    intro i e he hle
    cases i with
    | zero =>
      rcases List.mem_append.mp he with he | he
      · exact he
      · exact absurd (hlinks e he) hle.not_gt
    | succ i => exact he
  have hapart : ∀ i < lists.length + 1, ∀ j < lists.length + 1, i ≠ j →
      ∀ x ∈ visible s ((memtable :: lists).getD i []),
      ∀ y ∈ ((memtable ++ links.flatten) :: lists).getD j [], x.1 ≠ y.1 := by
    intro i hi j hj hij x hx y hy heq
    obtain ⟨hx, hle⟩ := mem_visible.mp hx
    have hy := hinitial j y hy (heq ▸ hle)
    rw [List.getD_eq_getElem _ _ hi] at hx
    rw [List.getD_eq_getElem _ _ hj] at hy
    exact MergingIterator.ne_of_nodup_flatten hdistinct hi hj hij x hx y hy heq
  have hmem : ∀ e, e ∈ visible s (sorted (memtable :: lists).flatten) ↔
      ∃ i < lists.length + 1, e ∈ visible s ((memtable :: lists).getD i []) := by
    intro e
    simp only [mem_visible, mem_sorted, MergingIterator.mem_flatten_getD, List.length_cons]
    exact ⟨fun ⟨⟨i, hi, he⟩, hle⟩ => ⟨i, hi, he, hle⟩, fun ⟨i, hi, he, hle⟩ => ⟨⟨i, hi, he⟩, hle⟩⟩
  have halls : ∀ e, (∃ i < lists.length + 1, e ∈ ((memtable ++ links.flatten) :: lists).getD i []) →
      e ∈ ((memtable ++ links.flatten) :: lists).flatten :=
    fun e he => MergingIterator.mem_flatten_getD.mpr he
  have hscans := MergingIterator.mergingIterator_scans htracks hapart hmem halls
  have hview : Views (userView (sorted (memtable :: lists).flatten) s)
      (visible s (sorted (memtable :: lists).flatten)) s := by
    refine (userView_views (sorted_lt hdistinct) s).congr (fun {e} => ?_)
    unfold Sees
    rw [mem_visible]
    exact ⟨fun he => he.1, fun he => ⟨he, he.2⟩⟩
  have hinvisible : ∀ e ∈ ((memtable ++ links.flatten) :: lists).flatten,
      e ∉ visible s (sorted (memtable :: lists).flatten) → s < e.1.sequence := by
    intro e he hnot
    obtain ⟨i, hi, he⟩ := MergingIterator.mem_flatten_getD.mp he
    refine not_le.mp (fun hle => hnot ((hmem e).mpr ⟨i, hi, mem_visible.mpr ⟨?_, hle⟩⟩))
    exact hinitial i e he hle
  have hbound : ∑ i ∈ Finset.range (lists.length + 1),
      (((memtable ++ links.flatten) :: lists).getD i []).length < rounds := by
    have hsum := MergingIterator.sum_length_getD ((memtable ++ links.flatten) :: lists)
    rw [List.length_cons] at hsum
    rw [hsum]
    simp only [List.flatten_cons, List.length_append] at hrounds ⊢
    omega
  have hchildren : MergingIterator.Children ((memTableIterator (InternalKey K) V).sum it) Inv
      (lists.length + 1) (newIterator it memtable links others s).internal.children := by
    have hcreate := MergingIterator.create_children ((memTableIterator (InternalKey K) V).sum it) hstart
    rw [List.length_cons, List.length_map, ← hothers.length_eq] at hcreate
    exact hcreate
  exact (dbIterator_simulates hscans hinvisible hview hbound).behaves ⟨rfl, hchildren, rfl, by simp⟩

/-- Entries that are linked during the moves, with sequences above the snapshot's, change nothing that
the iterator shows. -/
theorem newIterator_ignores_links (it : Iterator σ (InternalKey K) V Error)
    (memtable : List (InternalKey K × V)) (lists : List (List (InternalKey K × V))) (others : List σ)
    (hothers : List.Forall₂ (Behaves it) lists others)
    (hsorted : ∀ list ∈ memtable :: lists, list.Pairwise KeyLe)
    (hdistinct : ((memtable :: lists).flatten.map Prod.fst).Nodup) (s : Nat)
    (links : List (List (InternalKey K × V))) (hlinks : ∀ e ∈ links.flatten, s < e.1.sequence)
    (rounds : Nat)
    (hrounds : (memtable :: lists).flatten.length + links.flatten.length < rounds)
    (moves : List (Move K))
    (hallowed : (snapshotIterator it rounds).AllowedRun moves (newIterator it memtable [] others s)) :
    ∃ db db',
      (snapshotIterator it rounds).run moves (newIterator it memtable links others s) = (.ok (), db) ∧
      (snapshotIterator it rounds).run moves (newIterator it memtable [] others s) = (.ok (), db') ∧
      (snapshotIterator it rounds).current db = (snapshotIterator it rounds).current db' := by
  have hlinked := newIterator_behaves hothers hsorted hdistinct hlinks hrounds
  have hfewer : (memtable :: lists).flatten.length +
      ([] : List (List (InternalKey K × V))).flatten.length < rounds :=
    lt_of_le_of_lt (Nat.add_le_add_left (Nat.zero_le _) _) hrounds
  have hunlinked := newIterator_behaves (s := s) hothers hsorted hdistinct (by simp) hfewer
  obtain ⟨R, hsimulates, hstart⟩ := hunlinked.simulates
  obtain ⟨position, hrun⟩ := hsimulates.run_isSome moves hstart hallowed
  obtain ⟨db, hdb, hshows⟩ := hlinked moves position hrun
  obtain ⟨db', hdb', hshows'⟩ := hunlinked moves position hrun
  exact ⟨db, db', hdb, hdb', hshows.trans hshows'.symm⟩

/-- A newer entry of the shown user key is linked before the move back. -/
theorem newIterator_ignores_links_overwritten :
    ∃ db db',
      (snapshotIterator (listIterator (InternalKey Nat) String Error) 4).run
        [.seekToFirst, .next, .prev] (newIterator (listIterator _ _ _) [(⟨1, 3, .value⟩, "a")]
          [[], [], [(⟨1, 8, .value⟩, "new")]] [([(⟨2, 1, .value⟩, "b")], none)] 5) = (.ok (), db) ∧
      (snapshotIterator (listIterator (InternalKey Nat) String Error) 4).run
        [.seekToFirst, .next, .prev] (newIterator (listIterator _ _ _) [(⟨1, 3, .value⟩, "a")]
          [] [([(⟨2, 1, .value⟩, "b")], none)] 5) = (.ok (), db') ∧
      (snapshotIterator (listIterator (InternalKey Nat) String Error) 4).current db =
        (snapshotIterator (listIterator (InternalKey Nat) String Error) 4).current db' :=
  newIterator_ignores_links _ [(⟨1, 3, .value⟩, "a")] [[(⟨2, 1, .value⟩, "b")]] _
    (.cons (listIterator_behaves _) .nil) (by decide) (by decide) 5
    [[], [], [(⟨1, 8, .value⟩, "new")]] (by decide) 4 (by decide) [.seekToFirst, .next, .prev]
    ⟨trivial, trivial, trivial, trivial⟩

end Snapshot

end DbIterator

end ModernLevelDB
