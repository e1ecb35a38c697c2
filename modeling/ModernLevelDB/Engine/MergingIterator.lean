import ModernLevelDB.Base.Result
import ModernLevelDB.Lib.Cursor
import Mathlib

/-! # The merging iterator (`engine/iterators.h`)

A merging iterator moves its children and shows the smallest of their entries going forward and the
largest going backward. It compares the keys that it cached at the last move of each child. The model
is over any iterator as a child and any linear order of keys. -/
namespace ModernLevelDB
set_option autoImplicit false

open Cursor

variable {σ κ ν : Type*}

/-! ## Children -/

/-- `valid` and `key` are what the child showed after its last move. -/
structure IteratorChild (σ κ : Type*) where
  iterator : σ
  valid : Bool := false
  key : Option κ := none

namespace IteratorChild

variable (it : Iterator σ κ ν Error)

def refresh (child : IteratorChild σ κ) : IteratorChild σ κ :=
  match it.current child.iterator with
  | some entry => { child with valid := true, key := some entry.1 }
  | none => { child with valid := false }

def create (iterator : σ) : IteratorChild σ κ := refresh it { iterator }

def value (child : IteratorChild σ κ) : Option ν := (it.current child.iterator).map Prod.snd

def move (m : Move κ) (child : IteratorChild σ κ) : Status × IteratorChild σ κ :=
  let (moved, iterator) := it.move m child.iterator
  (moved, refresh it { child with iterator })

end IteratorChild

/-! ## The iterator -/

/-- `current` is the index of the selected child. -/
structure MergingIterator (σ κ : Type*) where
  children : List (IteratorChild σ κ)
  current : Option Nat := none
  forward : Bool := true

namespace MergingIterator

/-- One round of the loop of `FindSmallest` and `FindLargest`: a valid child replaces the one selected
so far when its key is better. -/
def consider (better : κ → κ → Bool) (best : Option (IteratorChild σ κ × Nat))
    (child : IteratorChild σ κ × Nat) : Option (IteratorChild σ κ × Nat) :=
  if child.1.valid then
    match best with
    | none => some child
    | some selected =>
        match child.1.key, selected.1.key with
        | some key, some selectedKey => if better key selectedKey then some child else best
        | _, _ => best
  else best

variable [LinearOrder κ]

def findSmallest (children : List (IteratorChild σ κ)) : Option Nat :=
  (children.zipIdx.foldl (consider (fun a b => a < b)) none).map Prod.snd

/-- Scans from the last child. -/
def findLargest (children : List (IteratorChild σ κ)) : Option Nat :=
  (children.zipIdx.reverse.foldl (consider (fun a b => b < a)) none).map Prod.snd

variable (it : Iterator σ κ ν Error)

def create (children : List σ) : MergingIterator σ κ :=
  { children := children.map (IteratorChild.create it) }

def updateEach (update : Nat → IteratorChild σ κ → Status × IteratorChild σ κ) :
    Nat → List (IteratorChild σ κ) → Status × List (IteratorChild σ κ)
  | _, [] => (.ok (), [])
  | index, child :: rest =>
      match update index child with
      | (.error error, child) => (.error error, child :: rest)
      | (.ok (), child) =>
          let (status, rest) := updateEach update (index + 1) rest
          (status, child :: rest)

/-- `SeekToFirst`, `SeekToLast` and `Seek`. -/
def seekAll (m : Move κ) (forward : Bool) (merging : MergingIterator σ κ) :
    Status × MergingIterator σ κ :=
  match updateEach (fun _ child => child.move it m) 0 merging.children with
  | (.error error, children) => (.error error, { merging with children, current := none })
  | (.ok (), children) =>
      let current := if forward then findSmallest children else findLargest children
      (.ok (), { children, current, forward })

def positionAfterCurrent (key : κ) (child : IteratorChild σ κ) : Status × IteratorChild σ κ :=
  match child.move it (.seek key) with
  | (.error error, child) => (.error error, child)
  | (.ok (), child) =>
      if child.valid ∧ child.key = some key then child.move it .next else (.ok (), child)

def positionBeforeCurrent (key : κ) (child : IteratorChild σ κ) : Status × IteratorChild σ κ :=
  match child.move it (.seek key) with
  | (.error error, child) => (.error error, child)
  | (.ok (), child) => if child.valid then child.move it .prev else child.move it .seekToLast

/-- `TurnForward` and `TurnBackward`: every child but the selected one is positioned. -/
def turn (position : κ → IteratorChild σ κ → Status × IteratorChild σ κ) (forward : Bool)
    (selected : Nat) (merging : MergingIterator σ κ) : Status × MergingIterator σ κ :=
  match merging.children[selected]?.bind IteratorChild.key with
  | none => (.ok (), merging)
  | some key =>
      match updateEach (fun index child =>
          if index = selected then (.ok (), child) else position key child) 0 merging.children with
      | (.error error, children) => (.error error, { merging with children })
      | (.ok (), children) => (.ok (), { merging with children, forward })

def moveSelected (m : Move κ) (selected : Nat) (children : List (IteratorChild σ κ)) :
    Status × List (IteratorChild σ κ) :=
  match children[selected]? with
  | none => (.ok (), children)
  | some child =>
      let (status, child) := child.move it m
      (status, children.set selected child)

/-- `Next` and `Prev`, from a valid position: turn, move the selected child and select again. -/
def moveFrom (m : Move κ) (forward : Bool)
    (position : κ → IteratorChild σ κ → Status × IteratorChild σ κ)
    (find : List (IteratorChild σ κ) → Option Nat) (merging : MergingIterator σ κ) :
    Status × MergingIterator σ κ :=
  match merging.current with
  | none => (.ok (), merging)
  | some selected =>
      let merging := { merging with current := none }
      match if merging.forward = forward then (.ok (), merging)
          else turn position forward selected merging with
      | (.error error, merging) => (.error error, merging)
      | (.ok (), merging) =>
          match moveSelected it m selected merging.children with
          | (.error error, children) => (.error error, { merging with children })
          | (.ok (), children) => (.ok (), { merging with children, current := find children })

def next : MergingIterator σ κ → Status × MergingIterator σ κ :=
  moveFrom it .next true (positionAfterCurrent it) findSmallest

def prev : MergingIterator σ κ → Status × MergingIterator σ κ :=
  moveFrom it .prev false (positionBeforeCurrent it) findLargest

/-- The key is the cached one, the value that of the selected child's iterator. -/
def entry (merging : MergingIterator σ κ) : Option (κ × ν) :=
  merging.current.bind fun selected =>
    merging.children[selected]?.bind fun child =>
      child.key.bind fun key => (child.value it).map fun value => (key, value)

end MergingIterator

def mergingIterator [LinearOrder κ] (it : Iterator σ κ ν Error) : Iterator (MergingIterator σ κ) κ ν Error where
  current := MergingIterator.entry it
  move
    | .seekToFirst => MergingIterator.seekAll it .seekToFirst true
    | .seekToLast => MergingIterator.seekAll it .seekToLast false
    | .seek target => MergingIterator.seekAll it (.seek target) true
    | .next => MergingIterator.next it
    | .prev => MergingIterator.prev it

/-! ## The selected child -/

section Select

variable {it : Iterator σ κ ν Error}

/-- The cached validity and key are those of the child. -/
structure IteratorChild.Cached (it : Iterator σ κ ν Error) (child : IteratorChild σ κ) : Prop where
  valid : child.valid = (it.current child.iterator).isSome
  key : ∀ x ∈ it.current child.iterator, child.key = some x.1

theorem IteratorChild.cached_refresh (child : IteratorChild σ κ) : (child.refresh it).Cached it := by
  unfold IteratorChild.refresh
  cases h : it.current child.iterator with
  | none => exact ⟨by simp [h], by simp [h]⟩
  | some x => exact ⟨by simp [h], by simp [h]⟩

@[simp] theorem IteratorChild.refresh_iterator (child : IteratorChild σ κ) :
    (child.refresh it).iterator = child.iterator := by
  unfold IteratorChild.refresh
  split <;> rfl

namespace MergingIterator

variable [LinearOrder κ]

/-- The child that the rounds so far selected: a valid one, and none has a smaller key. -/
def Best (it : Iterator σ κ ν Error) (done : List (IteratorChild σ κ × Nat)) :
    Option (IteratorChild σ κ × Nat) → Prop
  | none => ∀ child ∈ done, it.current child.1.iterator = none
  | some best => best ∈ done ∧ ∃ x, it.current best.1.iterator = some x ∧
      ∀ child ∈ done, ∀ y ∈ it.current child.1.iterator, x.1 ≤ y.1

theorem best_consider {done : List (IteratorChild σ κ × Nat)} {best : Option (IteratorChild σ κ × Nat)}
    {child : IteratorChild σ κ × Nat} (hdone : ∀ c ∈ done, c.1.Cached it) (hchild : child.1.Cached it)
    (h : Best it done best) :
    Best it (done ++ [child]) (consider (fun a b => a < b) best child) := by
  unfold consider
  cases hx : it.current child.1.iterator with
  | none =>
    have hinvalid : child.1.valid = false := by rw [hchild.valid, hx]; rfl
    rw [hinvalid, if_neg (by simp)]
    cases best with
    | none => exact List.forall_mem_append.mpr ⟨h, List.forall_mem_singleton.mpr hx⟩
    | some selected =>
      obtain ⟨hmem, y, hy, hall⟩ := h
      refine ⟨List.mem_append_left _ hmem, y, hy, List.forall_mem_append.mpr ⟨hall, ?_⟩⟩
      simp [hx]
  | some x =>
    have hvalid : child.1.valid = true := by rw [hchild.valid, hx]; rfl
    have hlast : child ∈ done ++ [child] := List.mem_append_right _ (List.mem_singleton.mpr rfl)
    have hshown : ∀ z ∈ it.current child.1.iterator, z = x := by simp [hx, eq_comm]
    rw [hvalid, if_pos rfl]
    cases best with
    | none =>
      refine ⟨hlast, x, hx, List.forall_mem_append.mpr
        ⟨fun c hc => ?_, List.forall_mem_singleton.mpr fun z hz => ?_⟩⟩
      · simp [h c hc]
      · rw [hshown z hz]
    | some selected =>
      obtain ⟨hmem, y, hy, hall⟩ := h
      simp only [hchild.key x hx, (hdone selected hmem).key y hy, decide_eq_true_eq]
      split
      · next hlt =>
        refine ⟨hlast, x, hx, List.forall_mem_append.mpr
          ⟨fun c hc z hz => ?_, List.forall_mem_singleton.mpr fun z hz => ?_⟩⟩
        · exact hlt.le.trans (hall c hc z hz)
        · rw [hshown z hz]
      · next hge =>
        refine ⟨List.mem_append_left _ hmem, y, hy, List.forall_mem_append.mpr
          ⟨hall, List.forall_mem_singleton.mpr fun z hz => ?_⟩⟩
        rw [hshown z hz]
        exact not_lt.mp hge

theorem best_foldl (children : List (IteratorChild σ κ × Nat)) :
    ∀ {done : List (IteratorChild σ κ × Nat)} {best : Option (IteratorChild σ κ × Nat)},
      (∀ c ∈ done, c.1.Cached it) → (∀ c ∈ children, c.1.Cached it) → Best it done best →
      Best it (done ++ children) (children.foldl (consider (fun a b => a < b)) best) := by
  induction children with
  | nil =>
    intro done best _ _ h
    rw [List.append_nil]
    exact h
  | cons child children ih =>
    intro done best hdone hchildren h
    have hchild := hchildren child List.mem_cons_self
    rw [List.append_cons]
    exact ih (List.forall_mem_append.mpr ⟨hdone, List.forall_mem_singleton.mpr hchild⟩)
      (fun c hc => hchildren c (List.mem_cons_of_mem _ hc)) (best_consider hdone hchild h)

/-- The selected child has a least key; without one, no child has an entry. -/
def Selected (it : Iterator σ κ ν Error) (children : List (IteratorChild σ κ)) : Option Nat → Prop
  | none => ∀ child ∈ children, it.current child.iterator = none
  | some selected => ∃ child x, children[selected]? = some child ∧
      it.current child.iterator = some x ∧
      ∀ other ∈ children, ∀ y ∈ it.current other.iterator, x.1 ≤ y.1

variable {children : List (IteratorChild σ κ)}

theorem selected_foldl {listed : List (IteratorChild σ κ × Nat)}
    (hlisted : ∀ c, c ∈ listed ↔ c ∈ children.zipIdx)
    (hcached : ∀ child ∈ children, child.Cached it) :
    Selected it children ((listed.foldl (consider (fun a b => a < b)) none).map Prod.snd) := by
  have hbest : Best it ([] ++ listed) (listed.foldl (consider (fun a b => a < b)) none) := by
    refine best_foldl listed (by simp) (fun c hc => ?_) (by intro c hc; cases hc)
    exact hcached c.1
      (List.mem_iff_getElem?.mpr ⟨c.2, List.mem_zipIdx_iff_getElem?.mp ((hlisted c).mp hc)⟩)
  have hindex : ∀ child ∈ children, ∃ i, (child, i) ∈ listed := by
    intro child hc
    obtain ⟨i, hi⟩ := List.mem_iff_getElem?.mp hc
    exact ⟨i, (hlisted _).mpr (List.mk_mem_zipIdx_iff_getElem?.mpr hi)⟩
  revert hbest
  cases listed.foldl (consider (fun a b => a < b)) none with
  | none =>
    intro hbest child hc
    obtain ⟨i, hi⟩ := hindex child hc
    exact hbest _ hi
  | some best =>
    rintro ⟨hmem, x, hx, hall⟩
    refine ⟨best.1, x, List.mem_zipIdx_iff_getElem?.mp ((hlisted _).mp hmem), hx, ?_⟩
    intro other ho y hy
    obtain ⟨i, hi⟩ := hindex other ho
    exact hall _ hi y hy

theorem findSmallest_selected (hcached : ∀ child ∈ children, child.Cached it) :
    Selected it children (findSmallest children) :=
  selected_foldl (fun _ => Iff.rfl) hcached

/-- The largest key is the smallest one of the dual order. -/
theorem findLargest_selected (hcached : ∀ child ∈ children, child.Cached it) :
    @Selected σ κᵒᵈ ν _ it children (findLargest children) :=
  @selected_foldl σ κᵒᵈ ν it _ children _ (fun _ => List.mem_reverse) hcached

end MergingIterator
end Select

/-! ## Moving children that track their entries -/

namespace MergingIterator

theorem updateEach_ok (update : Nat → IteratorChild σ κ → Status × IteratorChild σ κ)
    (Q : Nat → IteratorChild σ κ → Prop) (children : List (IteratorChild σ κ)) :
    ∀ index : Nat, (∀ i child, children[i]? = some child →
      ∃ child', update (index + i) child = (.ok (), child') ∧ Q (index + i) child') →
    ∃ children', updateEach update index children = (.ok (), children') ∧
      children'.length = children.length ∧
      ∀ i child', children'[i]? = some child' → Q (index + i) child' := by
  induction children with
  | nil => exact fun index _ => ⟨[], rfl, rfl, by simp⟩
  | cons child children ih =>
    intro index hupdate
    obtain ⟨child', hchild, hQ⟩ := hupdate 0 child rfl
    obtain ⟨children', hrest, hlen, hall⟩ := ih (index + 1) (by
      intro i c hc
      obtain ⟨c', hc', hQ'⟩ := hupdate (i + 1) c hc
      rw [Nat.add_right_comm, Nat.add_assoc]
      exact ⟨c', hc', hQ'⟩)
    refine ⟨child' :: children', ?_, by simp [hlen], ?_⟩
    · rw [updateEach, show update index child = (.ok (), child') from hchild]
      simp only [hrest]
    · intro i c hc
      cases i with
      | zero =>
        cases hc
        exact hQ
      | succ i =>
        have := hall i c hc
        rw [Nat.add_right_comm, Nat.add_assoc] at this
        exact this

/-- `n` children with their invariants, and with what they cache. -/
structure Children (it : Iterator σ κ ν Error) (Inv : Nat → σ → Prop) (n : Nat)
    (children : List (IteratorChild σ κ)) : Prop where
  length : children.length = n
  inv : ∀ (i : Nat) (child : IteratorChild σ κ), children[i]? = some child → Inv i child.iterator
  cached : ∀ (i : Nat) (child : IteratorChild σ κ), children[i]? = some child → child.Cached it

section Merge

variable {it : Iterator σ κ ν Error} {n : Nat} {old all : Nat → List (κ × ν)}
  {Inv : Nat → σ → Prop}

variable {children : List (IteratorChild σ κ)} {child : IteratorChild σ κ}

theorem Children.lt (h : Children it Inv n children) {i : Nat} (hi : children[i]? = some child) :
    i < n := by
  rw [← h.length]
  exact (List.getElem?_eq_some_iff.mp hi).1

theorem Children.exists_child (h : Children it Inv n children) {i : Nat} (hi : i < n) :
    ∃ child, children[i]? = some child :=
  ⟨_, List.getElem?_eq_getElem (by rw [h.length]; exact hi)⟩

theorem Children.of_mem (h : Children it Inv n children) : ∀ child ∈ children, child.Cached it := by
  intro child hc
  obtain ⟨i, hi⟩ := List.mem_iff_getElem?.mp hc
  exact h.cached i child hi

variable {merging : MergingIterator σ κ}

theorem Children.entry (h : Children it Inv n merging.children) {selected : Nat} {x : κ × ν}
    (hcurrent : merging.current = some selected) (hchild : merging.children[selected]? = some child)
    (hx : it.current child.iterator = some x) :
    merging.entry it = some x := by
  unfold MergingIterator.entry
  simp [hcurrent, hchild, (h.cached _ _ hchild).key x hx, IteratorChild.value, hx]

theorem Children.selected (h : Children it Inv n merging.children) {x : κ × ν}
    (hx : merging.entry it = some x) :
    ∃ selected child, merging.current = some selected ∧ merging.children[selected]? = some child ∧
      it.current child.iterator = some x := by
  unfold MergingIterator.entry at hx
  obtain ⟨selected, hcurrent, hx⟩ := Option.bind_eq_some_iff.mp hx
  obtain ⟨child, hchild, hx⟩ := Option.bind_eq_some_iff.mp hx
  obtain ⟨key, hkey, hx⟩ := Option.bind_eq_some_iff.mp hx
  obtain ⟨value, hvalue, rfl⟩ := Option.map_eq_some_iff.mp hx
  obtain ⟨y, hy, rfl⟩ := Option.map_eq_some_iff.mp hvalue
  have hcached := (h.cached _ _ hchild).key y hy
  rw [hkey] at hcached
  cases hcached
  exact ⟨selected, child, hcurrent, hchild, hy⟩

variable {position : κ → IteratorChild σ κ → Status × IteratorChild σ κ}

theorem turn_ok (forward : Bool) {selected : Nat} {Q : Nat → Option (κ × ν) → Prop}
    (merging : MergingIterator σ κ) {x : κ × ν} (h : Children it Inv n merging.children)
    (hchild : merging.children[selected]? = some child) (hx : it.current child.iterator = some x)
    (hposition : ∀ i other, merging.children[i]? = some other →
      ∃ other', position x.1 other = (.ok (), other') ∧ Inv i other'.iterator ∧ other'.Cached it ∧
        Q i (it.current other'.iterator)) :
    ∃ children', turn position forward selected merging =
        (.ok (), { merging with children := children', forward }) ∧
      Children it Inv n children' ∧ children'[selected]? = some child ∧
      ∀ i other', i ≠ selected → children'[i]? = some other' →
        Q i (it.current other'.iterator) := by
  obtain ⟨children', heach, hlen, hall⟩ := updateEach_ok
    (fun index c => if index = selected then (.ok (), c) else position x.1 c)
    (fun i c' => Inv i c'.iterator ∧ c'.Cached it ∧ (i = selected → c' = child) ∧
      (i ≠ selected → Q i (it.current c'.iterator)))
    merging.children 0 (by
      intro i c hc
      rw [Nat.zero_add]
      by_cases hi : i = selected
      · subst hi
        rw [hchild] at hc
        cases hc
        exact ⟨child, by rw [if_pos rfl], h.inv i child hchild, h.cached i child hchild,
          fun _ => rfl, fun hne => absurd rfl hne⟩
      · obtain ⟨c', hc', hinv, hcached, hQ⟩ := hposition i c hc
        exact ⟨c', by rw [if_neg hi]; exact hc', hinv, hcached, fun he => absurd he hi,
          fun _ => hQ⟩)
  simp only [Nat.zero_add] at hall
  refine ⟨children', ?_, ⟨by rw [hlen, h.length], fun i c hc => (hall i c hc).1,
    fun i c hc => (hall i c hc).2.1⟩, ?_, fun i c hi hc => (hall i c hc).2.2.2 hi⟩
  · unfold turn
    rw [hchild, Option.bind_some, (h.cached selected child hchild).key x hx]
    simp only [heach]
  · have hlt : selected < children'.length := by
      rw [hlen, h.length]
      exact h.lt hchild
    have hget := List.getElem?_eq_getElem hlt
    rw [hget, (hall selected _ hget).2.2.1 rfl]

variable {child' : IteratorChild σ κ}

theorem children_set {Q : Nat → IteratorChild σ κ → Prop} {selected : Nat}
    (hselected : Q selected child')
    (hothers : ∀ i other, i ≠ selected → children[i]? = some other → Q i other) :
    ∀ i other, (children.set selected child')[i]? = some other → Q i other := by
  intro i c hc
  rw [List.getElem?_set] at hc
  split at hc
  · next heq =>
    subst heq
    split at hc
    · cases hc
      exact hselected
    · cases hc
  · next hne => exact hothers i c (fun he => hne he.symm) hc

def total (it : Iterator σ κ ν Error) (count : Nat → Option (κ × ν) → Nat) (n : Nat)
    (children : List (IteratorChild σ κ)) : Nat :=
  ∑ i ∈ Finset.range n, count i (children[i]?.bind (fun child => it.current child.iterator))

theorem total_set {count : Nat → Option (κ × ν) → Nat} {selected : Nat} (hlt : selected < n)
    (hchild : children[selected]? = some child)
    (hless : count selected (it.current child'.iterator) < count selected (it.current child.iterator)) :
    total it count n (children.set selected child') < total it count n children := by
  have hlength : selected < children.length := (List.getElem?_eq_some_iff.mp hchild).1
  refine Finset.sum_lt_sum (fun i _ => ?_) ⟨selected, Finset.mem_range.mpr hlt, ?_⟩
  · by_cases heq : selected = i
    · subst heq
      rw [List.getElem?_set_self hlength, hchild]
      exact le_of_lt hless
    · rw [List.getElem?_set_ne heq]
  · rw [List.getElem?_set_self hlength, hchild]
    exact hless

variable {find : List (IteratorChild σ κ) → Option Nat} {children' : List (IteratorChild σ κ)}

theorem moveFrom_turn {m : Move κ} {forward : Bool} {selected : Nat}
    {turned : List (IteratorChild σ κ)} (hcurrent : merging.current = some selected)
    (hforward : merging.forward ≠ forward)
    (hturn : turn position forward selected { merging with current := none } =
      (.ok (), { children := turned, current := none, forward }))
    (hmove : moveSelected it m selected turned = (.ok (), children')) :
    moveFrom it m forward position find merging =
      (.ok (), { children := children', current := find children', forward }) := by
  unfold moveFrom
  rw [hcurrent]
  simp only [if_neg hforward, hturn, hmove]

variable [LinearOrder κ]

/-! ## Going in one direction

Backward is forward in the dual order of the keys. -/

section Direction

/-- The entries of the children with `P` are still to come, and the selected child shows the first of
what the children show. -/
structure Going (it : Iterator σ κ ν Error) (old : Nat → List (κ × ν)) (Inv : Nat → σ → Prop)
    (n : Nat) (forward : Bool) (merging : MergingIterator σ κ) (P : κ → Prop) : Prop where
  children : Children it Inv n merging.children
  places : ∀ i child, merging.children[i]? = some child →
    Ahead (old i) P (it.current child.iterator)
  forward : merging.forward = forward
  selected : Selected it merging.children merging.current

variable {forward : Bool} {P : κ → Prop} {x : κ × ν}

variable {i : Nat}

theorem Going.none (h : Going it old Inv n forward merging P) (hnone : merging.entry it = none)
    (hi : i < n) : ∀ y ∈ old i, ¬ P y.1 := by
  obtain ⟨child, hchild⟩ := h.children.exists_child hi
  have hplace := h.places i child hchild
  have hselected := h.selected
  cases hcurrent : merging.current with
  | none =>
    rw [hcurrent] at hselected
    rw [hselected child (List.mem_iff_getElem?.mpr ⟨i, hchild⟩)] at hplace
    exact hplace
  | some selected =>
    rw [hcurrent] at hselected
    obtain ⟨shown, x, hshown, hx, _⟩ := hselected
    rw [h.children.entry hcurrent hshown hx] at hnone
    cases hnone

theorem Going.first (h : Going it old Inv n forward merging P) {selected : Nat}
    (hcurrent : merging.current = some selected) (hchild : merging.children[selected]? = some child)
    (hx : it.current child.iterator = some x) {other : IteratorChild σ κ}
    (hother : merging.children[i]? = some other) :
    ∀ y ∈ it.current other.iterator, x.1 ≤ y.1 := by
  have hselected := h.selected
  rw [hcurrent] at hselected
  obtain ⟨found, z, hfound, hz, hall⟩ := hselected
  rw [hchild] at hfound
  cases hfound
  rw [hx] at hz
  cases hz
  exact hall other (List.mem_iff_getElem?.mpr ⟨i, hother⟩)

theorem Going.le (h : Going it old Inv n forward merging P) (hx : merging.entry it = some x)
    (hi : i < n) {y : κ × ν} (hy : y ∈ old i) (hP : P y.1) : x.1 ≤ y.1 := by
  obtain ⟨selected, child, hcurrent, hchild, hx⟩ := h.children.selected hx
  obtain ⟨other, hother⟩ := h.children.exists_child hi
  have hplace := h.places i other hother
  cases hz : it.current other.iterator with
  | none =>
    rw [hz] at hplace
    exact absurd hP (hplace y hy)
  | some z =>
    rw [hz] at hplace
    exact le_trans (h.first hcurrent hchild hx hother z hz) ((hplace y hy).mp hP)

/-- The children take a step by `m`, and `find` selects the first of what they show. -/
structure Steps (it : Iterator σ κ ν Error) (old all : Nat → List (κ × ν)) (Inv : Nat → σ → Prop)
    (n : Nat) (m : Move κ) (find : List (IteratorChild σ κ) → Option Nat) : Prop where
  mem : ∀ {i s x}, i < n → Inv i s → it.current s = some x → x ∈ all i
  move : ∀ {i x} {child : IteratorChild σ κ}, i < n → Inv i child.iterator →
    it.current child.iterator = some x → ∃ child', child.move it m = (.ok (), child') ∧
      Inv i child'.iterator ∧ child'.Cached it ∧ Upto (old i) (x.1 < ·) (it.current child'.iterator)
  find : ∀ {children}, (∀ child ∈ children, child.Cached it) → Selected it children (find children)

variable {m : Move κ} {find : List (IteratorChild σ κ) → Option Nat}
  (hsteps : Steps it old all Inv n m find)

include hsteps

theorem Steps.moveSelected_ok {selected : Nat} (h : Children it Inv n children)
    (hchild : children[selected]? = some child) (hx : it.current child.iterator = some x) :
    ∃ child', moveSelected it m selected children = (.ok (), children.set selected child') ∧
      Children it Inv n (children.set selected child') ∧
      Upto (old selected) (x.1 < ·) (it.current child'.iterator) := by
  obtain ⟨child', hmove, hinv, hcached, hupto⟩ :=
    hsteps.move (h.lt hchild) (h.inv _ _ hchild) hx
  refine ⟨child', ?_, ⟨by rw [List.length_set, h.length], ?_, ?_⟩, hupto⟩
  · unfold moveSelected
    rw [hchild]
    simp only [hmove]
  · exact children_set (Q := fun i c => Inv i c.iterator) hinv fun i c _ hc => h.inv i c hc
  · exact children_set (Q := fun _ c => c.Cached it) hcached fun i c _ hc => h.cached i c hc

theorem Steps.turn {merging : MergingIterator σ κ} (h : Children it Inv n merging.children)
    (hforward : merging.forward ≠ forward) (hx : merging.entry it = some x)
    (hposition : ∀ i other, merging.children[i]? = some other →
      ∃ other', position x.1 other = (.ok (), other') ∧ Inv i other'.iterator ∧ other'.Cached it ∧
        Ahead (old i) (x.1 < ·) (it.current other'.iterator)) :
    ∃ merging', moveFrom it m forward position find merging = (.ok (), merging') ∧
      Going it old Inv n forward merging' (x.1 < ·) := by
  obtain ⟨selected, child, hcurrent, hchild, hx⟩ := h.selected hx
  obtain ⟨turned, hturn, hturned, hkept, hplaces⟩ := turn_ok forward
    (Q := fun i => Ahead (old i) (x.1 < ·)) { merging with current := none } h hchild hx hposition
  obtain ⟨child', hmove, hchildren, hupto⟩ := hsteps.moveSelected_ok hturned hkept hx
  refine ⟨_, moveFrom_turn hcurrent hforward hturn hmove, hchildren, ?_, rfl,
    hsteps.find hchildren.of_mem⟩
  exact children_set (Q := fun i c => Ahead (old i) (x.1 < ·) (it.current c.iterator))
    (hupto.ahead fun ha hab => lt_of_lt_of_le ha hab) hplaces

variable (hdistinct : ∀ i < n, ∀ j < n, i ≠ j → ∀ x ∈ old i, ∀ y ∈ all j, x.1 ≠ y.1)

include hdistinct

theorem Steps.mem_coming (h : Going it old Inv n forward merging P) (hx : merging.entry it = some x)
    (hi : i < n) (hmem : x ∈ old i) : P x.1 := by
  obtain ⟨selected, child, hcurrent, hchild, hx⟩ := h.children.selected hx
  have hlt := h.children.lt hchild
  -- The child that shows an old entry is the one whose entry it is.
  obtain rfl : i = selected := by
    by_contra hne
    have hshown := hsteps.mem hlt (h.children.inv selected child hchild) hx
    exact hdistinct i hi selected hlt hne x hmem x hshown rfl
  have hplace := h.places i child hchild
  rw [hx] at hplace
  exact (hplace x hmem).mpr le_rfl

theorem Steps.keep (h : Going it old Inv n forward merging P) (hx : merging.entry it = some x) :
    ∃ merging', moveFrom it m forward position find merging = (.ok (), merging') ∧
      Going it old Inv n forward merging' (fun k => P k ∧ x.1 < k) ∧
      total it (fun i => remaining (all i)) n merging'.children <
        total it (fun i => remaining (all i)) n merging.children := by
  obtain ⟨selected, child, hcurrent, hchild, hx⟩ := h.children.selected hx
  have hlt := h.children.lt hchild
  have hmem := hsteps.mem hlt (h.children.inv selected child hchild) hx
  obtain ⟨child', hmove, hchildren, hupto⟩ := hsteps.moveSelected_ok h.children hchild hx
  have hahead : Ahead (old selected) P (some x) := hx ▸ h.places selected child hchild
  have hplaces := children_set
    (Q := fun i c => Ahead (old i) (fun k => P k ∧ x.1 < k) (it.current c.iterator))
    (hahead.next hupto) (fun i other hi hc => (h.places i other hc).keep
      (h.first hcurrent hchild hx hc)
      fun y hy => hdistinct i (h.children.lt hc) selected hlt hi y hy x hmem)
  refine ⟨{ merging with children := _, current := _ }, ?_, ⟨hchildren, hplaces, h.forward,
    hsteps.find hchildren.of_mem⟩, total_set hlt hchild ?_⟩
  · simp only [moveFrom, hcurrent, h.forward, if_pos, hmove]
  · rw [hx]
    exact hupto.remaining_lt hmem

end Direction

/-! ## The merging iterator goes through the union -/

section Tracking

variable (htracks : ∀ i < n, Tracks it (old i) (all i) (Inv i))

include htracks

variable {m : Move κ} {child : IteratorChild σ κ}

theorem child_move {i : Nat} (hi : i < n) (hinv : Inv i child.iterator)
    (hallowed : Allowed m (it.current child.iterator)) :
    ∃ child', child.move it m = (.ok (), child') ∧ Inv i child'.iterator ∧ child'.Cached it ∧
      Reached (old i) m (it.current child.iterator) (it.current child'.iterator) := by
  obtain ⟨s', hmove, hs', hreached⟩ := (htracks i hi).move hinv hallowed
  refine ⟨IteratorChild.refresh it { child with iterator := s' }, ?_, ?_,
    IteratorChild.cached_refresh _, ?_⟩
  · unfold IteratorChild.move
    rw [hmove]
  · rw [IteratorChild.refresh_iterator]
    exact hs'
  · rw [IteratorChild.refresh_iterator]
    exact hreached

variable {merging : MergingIterator σ κ}

theorem seekAll_ok {Q : List (κ × ν) → Option (κ × ν) → Prop}
    (hm : ∀ entries position found, Reached entries m position found → Q entries found)
    (hseek : ∀ position : Option (κ × ν), Allowed m position) (forward : Bool)
    (h : Children it Inv n merging.children) :
    ∃ children', seekAll it m forward merging = (.ok (),
        { children := children', forward,
          current := if forward then findSmallest children' else findLargest children' }) ∧
      Children it Inv n children' ∧
      ∀ i child', children'[i]? = some child' → Q (old i) (it.current child'.iterator) := by
  obtain ⟨children', heach, hlen, hall⟩ := updateEach_ok (fun _ child => child.move it m)
    (fun i child' => Inv i child'.iterator ∧ child'.Cached it ∧
      Q (old i) (it.current child'.iterator))
    merging.children 0 (by
      intro i child hi
      rw [Nat.zero_add]
      obtain ⟨child', hmove, hinv, hcached, hreached⟩ :=
        child_move htracks (h.lt hi) (h.inv i child hi) (hseek _)
      exact ⟨child', hmove, hinv, hcached, hm _ _ _ hreached⟩)
  simp only [Nat.zero_add] at hall
  refine ⟨children', ?_, ⟨by rw [hlen, h.length], fun i c hc => (hall i c hc).1,
    fun i c hc => (hall i c hc).2.1⟩, fun i c hc => (hall i c hc).2.2⟩
  unfold seekAll
  rw [heach]

theorem seekAll_forward {p : κ → Prop} (hm : ∀ (entries : List (κ × ν)) position found,
      Reached entries m position found → Upto entries p found)
    (hseek : ∀ position : Option (κ × ν), Allowed m position) (hup : ∀ {a b}, p a → a ≤ b → p b)
    (h : Children it Inv n merging.children) :
    ∃ merging', seekAll it m true merging = (.ok (), merging') ∧
      Going it old Inv n true merging' p := by
  obtain ⟨children', hseekAll, hchildren, hplaces⟩ := seekAll_ok htracks (Q := (Ahead · p))
    (fun _ _ _ hr => (hm _ _ _ hr).ahead hup) hseek true h
  exact ⟨_, hseekAll, hchildren, hplaces, rfl, findSmallest_selected hchildren.of_mem⟩

theorem positionBeforeCurrent_ok {key : κ} {i : Nat} (hi : i < n) (hinv : Inv i child.iterator) :
    ∃ child', positionBeforeCurrent it key child = (.ok (), child') ∧ Inv i child'.iterator ∧
      child'.Cached it ∧ Behind (old i) (· < key) (it.current child'.iterator) := by
  obtain ⟨sought, hseek, hsought, hcached, hreached⟩ :=
    child_move htracks (m := .seek key) hi hinv trivial
  have hupto : Upto (old i) (key ≤ ·) (it.current sought.iterator) := hreached
  unfold positionBeforeCurrent
  rw [hseek]
  dsimp only
  rw [hcached.valid]
  cases hx : it.current sought.iterator with
  | none =>
    rw [hx] at hupto
    obtain ⟨child', hmove, hinv', hcached', hlast⟩ :=
      child_move htracks (m := .seekToLast) hi hsought trivial
    exact ⟨child', hmove, hinv', hcached', behind_of_seek_last hupto hlast⟩
  | some x =>
    rw [hx] at hupto
    obtain ⟨child', hmove, hinv', hcached', hprev⟩ :=
      child_move htracks (m := .prev) hi hsought (by rw [hx]; trivial)
    rw [hx] at hprev
    exact ⟨child', hmove, hinv', hcached', behind_of_seek_prev hupto hprev⟩

theorem positionAfterCurrent_ok {key : κ} {i : Nat} (hi : i < n) (hinv : Inv i child.iterator) :
    ∃ child', positionAfterCurrent it key child = (.ok (), child') ∧ Inv i child'.iterator ∧
      child'.Cached it ∧ Ahead (old i) (key < ·) (it.current child'.iterator) := by
  obtain ⟨sought, hseek, hsought, hcached, hreached⟩ :=
    child_move htracks (m := .seek key) hi hinv trivial
  have hupto : Upto (old i) (key ≤ ·) (it.current sought.iterator) := hreached
  unfold positionAfterCurrent
  rw [hseek]
  dsimp only
  cases hx : it.current sought.iterator with
  | none =>
    rw [hx] at hupto
    have hvalid : sought.valid = false := by rw [hcached.valid, hx]; rfl
    rw [if_neg (by simp [hvalid])]
    refine ⟨sought, rfl, hsought, hcached, ?_⟩
    rw [hx]
    exact fun y hy hlt => hupto y hy (le_of_lt hlt)
  | some x =>
    rw [hx] at hupto
    rw [hcached.key x hx]
    by_cases heq : x.1 = key
    · have hvalid : sought.valid = true := by rw [hcached.valid, hx]; rfl
      rw [if_pos ⟨hvalid, congrArg some heq⟩]
      obtain ⟨child', hmove, hinv', hcached', hnext⟩ :=
        child_move htracks (m := .next) hi hsought (by rw [hx]; trivial)
      rw [hx] at hnext
      have hafter : Upto (old i) (x.1 < ·) (it.current child'.iterator) := hnext
      rw [heq] at hafter
      exact ⟨child', hmove, hinv', hcached', hafter.ahead (fun ha hab => lt_of_lt_of_le ha hab)⟩
    · rw [if_neg (by simp [heq])]
      refine ⟨sought, rfl, hsought, hcached, ?_⟩
      rw [hx]
      intro y hy
      refine ⟨fun hlt => hupto.2 y hy (le_of_lt hlt), fun hle => ?_⟩
      exact lt_of_lt_of_le (lt_of_le_of_ne hupto.1 (Ne.symm heq)) hle

theorem steps_next : Steps it old all Inv n .next findSmallest where
  mem hi := (htracks _ hi).mem
  move hi hinv hx := by
    obtain ⟨child', hmove, hinv', hcached, hreached⟩ :=
      child_move htracks (m := .next) hi hinv (by rw [hx]; trivial)
    rw [hx] at hreached
    exact ⟨child', hmove, hinv', hcached, hreached⟩
  find := findSmallest_selected

theorem steps_prev : @Steps σ κᵒᵈ ν _ it old all Inv n .prev (@findLargest σ κ _) where
  mem hi := (htracks _ hi).mem
  move hi hinv hx := by
    obtain ⟨child', hmove, hinv', hcached, hreached⟩ :=
      child_move htracks (m := .prev) hi hinv (by rw [hx]; trivial)
    rw [hx] at hreached
    exact ⟨child', hmove, hinv', hcached, hreached⟩
  find hcached := @findLargest_selected σ κ ν it _ _ hcached

variable (hdistinct : ∀ i < n, ∀ j < n, i ≠ j → ∀ x ∈ old i, ∀ y ∈ all j, x.1 ≠ y.1)

include hdistinct

/-- The merging iterator over iterators that pass none of their old entries goes through the union of
these. -/
theorem mergingIterator_scans {olds alls : List (κ × ν)} (holds : ∀ y, y ∈ olds ↔ ∃ i < n, y ∈ old i)
    (halls : ∀ y, (∃ i < n, y ∈ all i) → y ∈ alls) :
    Scans (mergingIterator it) olds alls (fun merging => Children it Inv n merging.children)
      (Going it old Inv n true) (@Going σ κᵒᵈ ν _ it old Inv n false)
      (fun merging => total it (fun i => remaining (all i)) n merging.children)
      (fun merging => total it (fun i => preceding (all i)) n merging.children)
      (∑ i ∈ Finset.range n, (all i).length) where
  inv_fwd := fun h => h.children
  inv_bwd := fun h => h.children
  mem := by
    intro merging x h hx
    obtain ⟨i, child, _, hchild, hx⟩ := h.selected hx
    exact halls x ⟨i, h.lt hchild, (htracks i (h.lt hchild)).mem (h.inv i child hchild) hx⟩
  seekToFirst := fun h => seekAll_forward htracks (m := .seekToFirst) (p := fun _ => True)
    (fun _ _ _ hr => hr) (fun _ => trivial) (fun _ _ => trivial) h
  seekToLast := by
    intro merging h
    obtain ⟨children', hseekAll, hchildren, hplaces⟩ := seekAll_ok htracks (m := .seekToLast)
      (Q := (Behind · (fun _ => True)))
      (fun _ _ _ hr => Downto.behind (p := fun _ => True) hr fun _ _ => trivial)
      (fun _ => trivial) false h
    exact ⟨_, hseekAll, hchildren, hplaces, rfl, findLargest_selected hchildren.of_mem⟩
  seek := fun target h => seekAll_forward htracks (m := .seek target) (fun _ _ _ hr => hr)
    (fun _ => trivial) le_trans h
  fwd_none := by
    intro merging P h hnone y hy
    obtain ⟨i, hi, hy⟩ := (holds y).mp hy
    exact h.none hnone hi y hy
  fwd_some := by
    intro merging P x h hx
    refine ⟨fun y hy => ?_, fun hmem => ?_⟩
    · obtain ⟨i, hi, hy⟩ := (holds y).mp hy
      exact h.le hx hi hy
    · obtain ⟨i, hi, hmem⟩ := (holds x).mp hmem
      exact (steps_next htracks).mem_coming hdistinct h hx hi hmem
  fwd_next := (steps_next htracks).keep hdistinct
  fwd_prev := fun h hx => (steps_prev htracks).turn h.children (by simp [h.forward]) hx
    fun i other hc => positionBeforeCurrent_ok htracks (h.children.lt hc) (h.children.inv i other hc)
  bwd_none := by
    intro merging P h hnone y hy
    obtain ⟨i, hi, hy⟩ := (holds y).mp hy
    exact h.none hnone hi y hy
  bwd_some := by
    intro merging P x h hx
    refine ⟨fun y hy => ?_, fun hmem => ?_⟩
    · obtain ⟨i, hi, hy⟩ := (holds y).mp hy
      exact h.le hx hi hy
    · obtain ⟨i, hi, hmem⟩ := (holds x).mp hmem
      exact (steps_prev htracks).mem_coming hdistinct h hx hi hmem
  bwd_prev := (steps_prev htracks).keep hdistinct
  bwd_next := fun h hx => (steps_next htracks).turn h.children (by simp [h.forward]) hx
    fun i other hc => positionAfterCurrent_ok htracks (h.children.lt hc) (h.children.inv i other hc)
  ahead_le := fun _ => Finset.sum_le_sum (fun _ _ => remaining_le _ _)
  behind_le := fun _ => Finset.sum_le_sum (fun _ _ => preceding_le _ _)

end Tracking

end Merge

/-! ## Children that are cursors -/

section Cursors

variable {lists : List (List (κ × ν))}

theorem ne_of_nodup_flatten (hdistinct : (lists.flatten.map Prod.fst).Nodup) {i j : Nat}
    (hi : i < lists.length) (hj : j < lists.length) (hij : i ≠ j) :
    ∀ x ∈ lists[i], ∀ y ∈ lists[j], x.1 ≠ y.1 := by
  rw [List.map_flatten, List.nodup_flatten] at hdistinct
  have hpair := List.pairwise_iff_getElem.mp hdistinct.2
  intro x hx y hy heq
  rcases Nat.lt_or_gt_of_ne hij with hlt | hgt
  · have hdisjoint := hpair i j (by simpa using hi) (by simpa using hj) hlt
    rw [List.getElem_map, List.getElem_map] at hdisjoint
    exact hdisjoint (List.mem_map_of_mem hx) (heq ▸ List.mem_map_of_mem hy)
  · have hdisjoint := hpair j i (by simpa using hj) (by simpa using hi) hgt
    rw [List.getElem_map, List.getElem_map] at hdisjoint
    exact hdisjoint (List.mem_map_of_mem hy) (heq ▸ List.mem_map_of_mem hx)

theorem mem_flatten_getD {y : κ × ν} :
    y ∈ lists.flatten ↔ ∃ i < lists.length, y ∈ lists.getD i [] := by
  rw [List.mem_flatten]
  constructor
  · rintro ⟨list, hlist, hy⟩
    obtain ⟨i, hi, rfl⟩ := List.mem_iff_getElem.mp hlist
    exact ⟨i, hi, by rw [List.getD_eq_getElem _ _ hi]; exact hy⟩
  · rintro ⟨i, hi, hy⟩
    rw [List.getD_eq_getElem _ _ hi] at hy
    exact ⟨_, List.getElem_mem hi, hy⟩

theorem sum_length_getD (lists : List (List (κ × ν))) :
    ∑ i ∈ Finset.range lists.length, (lists.getD i []).length = lists.flatten.length := by
  induction lists with
  | nil => rfl
  | cons list lists ih =>
    rw [List.length_cons, Finset.sum_range_succ', List.flatten_cons, List.length_append, ← ih]
    exact Nat.add_comm _ _

theorem create_children (it : Iterator σ κ ν Error) {Inv : Nat → σ → Prop} {children : List σ}
    (hinv : ∀ (i : Nat) child, children[i]? = some child → Inv i child) :
    Children it Inv children.length (create it children).children := by
  have hget : ∀ (i : Nat) c, (children.map (IteratorChild.create it))[i]? = some c →
      ∃ child, children[i]? = some child ∧ IteratorChild.create it child = c := by
    intro i c hc
    rw [List.getElem?_map] at hc
    exact Option.map_eq_some_iff.mp hc
  refine ⟨List.length_map _, ?_, ?_⟩
  · intro i c hc
    obtain ⟨child, hchild, rfl⟩ := hget i c hc
    unfold IteratorChild.create
    rw [IteratorChild.refresh_iterator]
    exact hinv i child hchild
  · intro i c hc
    obtain ⟨child, _, rfl⟩ := hget i c hc
    exact IteratorChild.cached_refresh _

variable [LinearOrder κ]

/-- Merged cursors over sorted lists without common keys are a cursor over their sorted union. -/
theorem mergingIterator_behaves (it : Iterator σ κ ν Error) (lists : List (List (κ × ν)))
    (children : List σ) (hchildren : List.Forall₂ (Behaves it) lists children)
    (hsorted : ∀ list ∈ lists, list.Pairwise KeyLe)
    (hdistinct : (lists.flatten.map Prod.fst).Nodup) :
    Behaves (mergingIterator it) (sorted lists.flatten) (create it children) := by
  have hlen := hchildren.length_eq
  obtain ⟨Inv, htracks, hstart⟩ := tracks_each hchildren hsorted
  have hmem : ∀ y, y ∈ sorted lists.flatten ↔ ∃ i < lists.length, y ∈ lists.getD i [] :=
    fun y => mem_sorted.trans mem_flatten_getD
  have hscans := mergingIterator_scans htracks (by
      intro i hi j hj hij
      rw [List.getD_eq_getElem _ _ hi, List.getD_eq_getElem _ _ hj]
      exact ne_of_nodup_flatten hdistinct hi hj hij)
    hmem (fun y hy => (hmem y).mpr hy)
  refine (hscans.simulates (List.Subset.refl _) (sorted_lt hdistinct)).behaves ⟨rfl, ?_, by simp⟩
  rw [hlen]
  exact create_children it hstart

theorem mergingIterator_behaves_two :
    Behaves (mergingIterator (listIterator Nat String Error))
      (sorted [[(1, "a"), (4, "d")], [(2, "b")]].flatten)
      (create (listIterator Nat String Error)
        [([(1, "a"), (4, "d")], none), ([(2, "b")], none)]) :=
  mergingIterator_behaves _ [[(1, "a"), (4, "d")], [(2, "b")]] _
    (.cons (listIterator_behaves _) (.cons (listIterator_behaves _) .nil)) (by decide) (by decide)

end Cursors

end MergingIterator
end ModernLevelDB
