import ModernLevelDB.Lib.Partition
import Mathlib.Data.List.Sort
import Mathlib.Data.Nat.PSub

/-! # Cursors over sorted entries

A cursor stands at one entry of a sorted list or at none, and moves by key or by position. An
iterator simulates a cursor when it shows the same entry after the same moves. Two weaker notions are
for iterators over entries that are added while they move: such an iterator may stop at an added
entry, but it never passes one of the old entries. -/
namespace Cursor
set_option autoImplicit false

variable {σ κ ν ε : Type*}

/-- The calls that move an iterator. -/
inductive Move (κ : Type*) where
  | seekToFirst
  | seekToLast
  | seek (target : κ)
  | next
  | prev

/-- The entry that an iterator shows, if it is valid, and its moves, which may fail. -/
structure Iterator (σ κ ν ε : Type*) where
  current : σ → Option (κ × ν)
  move : Move κ → σ → Except ε Unit × σ

/-- `next` and `prev` are for valid iterators. -/
def Allowed : Move κ → Option (κ × ν) → Prop
  | .next, none => False
  | .prev, none => False
  | _, _ => True

namespace Iterator

/-- One of two iterators. -/
def sum {τ : Type*} (left : Iterator σ κ ν ε) (right : Iterator τ κ ν ε) :
    Iterator (σ ⊕ τ) κ ν ε where
  current
    | .inl s => left.current s
    | .inr t => right.current t
  move m
    | .inl s => (left.move m s).map id .inl
    | .inr t => (right.move m t).map id .inr

/-- Moves up to the first one that fails. -/
def run (it : Iterator σ κ ν ε) : List (Move κ) → σ → Except ε Unit × σ
  | [], s => (.ok (), s)
  | m :: moves, s =>
      match it.move m s with
      | (.ok (), s) => it.run moves s
      | (.error e, s) => (.error e, s)

/-- Every move of a run is allowed where it is made. -/
def AllowedRun (it : Iterator σ κ ν ε) : List (Move κ) → σ → Prop
  | [], _ => True
  | m :: moves, s => Allowed m (it.current s) ∧ it.AllowedRun moves (it.move m s).2

/-- The state after a run of moves. -/
def after (it : Iterator σ κ ν ε) (moves : List (Move κ)) (s : σ) : σ :=
  moves.foldl (fun s m => (it.move m s).2) s

theorem after_induction {it : Iterator σ κ ν ε} {P : σ → Prop}
    (hmove : ∀ s m, P s → Allowed m (it.current s) → P (it.move m s).2) (moves : List (Move κ)) :
    ∀ {s : σ}, P s → it.AllowedRun moves s → P (it.after moves s) := by
  induction moves with
  | nil => exact fun hs _ => hs
  | cons m moves ih => exact fun hs hallowed => ih (hmove _ m hs hallowed.1) hallowed.2

theorem allowedRun_append {it : Iterator σ κ ν ε} (moves more : List (Move κ)) :
    ∀ {s : σ}, it.AllowedRun (moves ++ more) s ↔
      it.AllowedRun moves s ∧ it.AllowedRun more (it.after moves s) := by
  induction moves with
  | nil => exact fun {s} => ⟨fun h => ⟨trivial, h⟩, fun h => h.2⟩
  | cons m moves ih =>
    intro s
    rw [List.cons_append, AllowedRun, AllowedRun, ih, and_assoc]
    rfl

end Iterator

/-! ## Searches in a list of parts -/

theorem find?_parts {α : Type*} {p : α → Bool} {before mid after : List α}
    (hbefore : ∀ y ∈ before, p y = false) (hafter : ∀ y ∈ after, p y = true) :
    (before ++ (mid ++ after)).find? p = (mid.find? p).or after.head? := by
  have hnone : before.find? p = none :=
    List.find?_eq_none.mpr (fun y hy => by rw [hbefore y hy]; exact Bool.false_ne_true)
  have hhead : after.find? p = after.head? := by
    cases after with
    | nil => rfl
    | cons y after => exact List.find?_cons_of_pos (hafter y (by simp))
  rw [List.find?_append, hnone, Option.none_or, List.find?_append, hhead]

theorem reverse_find?_parts {α : Type*} {p : α → Bool} {before mid after : List α}
    (hbefore : ∀ y ∈ before, p y = true) (hafter : ∀ y ∈ after, p y = false) :
    (before ++ (mid ++ after)).reverse.find? p = (mid.reverse.find? p).or before.getLast? := by
  rw [List.reverse_append, List.reverse_append, List.append_assoc, find?_parts, List.head?_reverse]
  · exact fun y hy => hafter y (List.mem_reverse.mp hy)
  · exact fun y hy => hbefore y (List.mem_reverse.mp hy)

/-! ## Cursors by position -/

/-- A position in the list, or none behind its end. -/
def inside (entries : List (κ × ν)) (i : Nat) : Option Nat := if i < entries.length then some i else none

/-- One move of a cursor that stands at an index. A seek goes to the first entry that is not below the
target. -/
def stepAt (below : κ → κ × ν → Bool) (entries : List (κ × ν)) :
    Move κ → Option Nat → Option (Option Nat)
  | .seekToFirst, _ => some (inside entries 0)
  | .seekToLast, _ => some (inside entries (entries.length - 1))
  | .seek target, _ => some (inside entries (entries.findIdx (fun entry => !below target entry)))
  | .next, some i => some (inside entries (i + 1))
  | .prev, some i => some i.ppred
  | .next, none => none
  | .prev, none => none

/-- The position after a run of moves that are all allowed. -/
def runAt (below : κ → κ × ν → Bool) (entries : List (κ × ν)) :
    List (Move κ) → Option Nat → Option (Option Nat)
  | [], position => some position
  | m :: moves, position => (stepAt below entries m position).bind (runAt below entries moves)

/-- Every seek is for a target that the iterator accepts. -/
def Move.Accepted (accepts : κ → Prop) : Move κ → Prop
  | .seek target => accepts target
  | _ => True

/-- `R` relates an iterator to the position of the cursor that it follows. -/
structure SimulatesAt (it : Iterator σ κ ν ε) (below : κ → κ × ν → Bool) (entries : List (κ × ν))
    (accepts : κ → Prop) (R : σ → Option Nat → Prop) : Prop where
  current : ∀ {s position}, R s position → it.current s = position.bind (entries[·]?)
  move : ∀ {s position m}, R s position → m.Accepted accepts → Allowed m (it.current s) →
    ∃ position' s', stepAt below entries m position = some position' ∧ it.move m s = (.ok (), s') ∧
      R s' position'

variable {entries : List (κ × ν)} {it : Iterator σ κ ν ε}

theorem SimulatesAt.run {below : κ → κ × ν → Bool} {accepts : κ → Prop} {R : σ → Option Nat → Prop}
    (h : SimulatesAt it below entries accepts R) (moves : List (Move κ)) :
    ∀ {s : σ} {position : Option Nat}, R s position → (∀ m ∈ moves, m.Accepted accepts) →
      it.AllowedRun moves s →
      ∃ position' s', runAt below entries moves position = some position' ∧
        it.run moves s = (.ok (), s') ∧ it.current s' = position'.bind (entries[·]?) := by
  induction moves with
  | nil =>
    intro s position hs _ _
    exact ⟨position, s, rfl, rfl, h.current hs⟩
  | cons m moves ih =>
    intro s position hs haccepts hallowed
    obtain ⟨middle, s₁, hstep, hmove, hs₁⟩ := h.move hs (haccepts m (by simp)) hallowed.1
    have hrest := hallowed.2
    rw [hmove] at hrest
    obtain ⟨position', s', hrun, hrun', hcurrent⟩ :=
      ih hs₁ (fun m' hm' => haccepts m' (List.mem_cons_of_mem _ hm')) hrest
    refine ⟨position', s', ?_, ?_, hcurrent⟩
    · rw [runAt, hstep]
      exact hrun
    · rw [Iterator.run, hmove]
      exact hrun'

variable [LinearOrder κ]

/-- Where a move leads over entries in the order of their keys. -/
def step (entries : List (κ × ν)) : Move κ → Option (κ × ν) → Option (Option (κ × ν))
  | .seekToFirst, _ => some entries.head?
  | .seekToLast, _ => some entries.getLast?
  | .seek target, _ => some (entries.find? (fun entry => target ≤ entry.1))
  | .next, some here => some (entries.find? (fun entry => here.1 < entry.1))
  | .prev, some here => some (entries.reverse.find? (fun entry => entry.1 < here.1))
  | .next, none => none
  | .prev, none => none

def run (entries : List (κ × ν)) : List (Move κ) → Option (κ × ν) → Option (Option (κ × ν))
  | [], position => some position
  | m :: moves, position => (step entries m position).bind (run entries moves)

variable {m : Move κ} {position : Option (κ × ν)}

theorem step_isSome (entries : List (κ × ν)) (h : Allowed m position) :
    ∃ position', step entries m position = some position' := by
  cases m with
  | seekToFirst => exact ⟨_, rfl⟩
  | seekToLast => exact ⟨_, rfl⟩
  | seek target => exact ⟨_, rfl⟩
  | next =>
    cases position with
    | none => exact h.elim
    | some here => exact ⟨_, rfl⟩
  | prev =>
    cases position with
    | none => exact h.elim
    | some here => exact ⟨_, rfl⟩

variable {position' : Option (κ × ν)}

theorem allowed_of_step (h : step entries m position = some position') : Allowed m position := by
  cases m with
  | seekToFirst => trivial
  | seekToLast => trivial
  | seek target => trivial
  | next =>
    cases position with
    | none => cases h
    | some here => trivial
  | prev =>
    cases position with
    | none => cases h
    | some here => trivial

variable {x : κ × ν}

theorem mem_of_step (h : step entries m position = some (some x)) : x ∈ entries := by
  cases m with
  | seekToFirst => exact List.mem_of_mem_head? (Option.some.inj h)
  | seekToLast => exact List.mem_of_getLast? (Option.some.inj h)
  | seek target => exact List.mem_of_find?_eq_some (Option.some.inj h)
  | next =>
    cases position with
    | none => cases h
    | some here => exact List.mem_of_find?_eq_some (Option.some.inj h)
  | prev =>
    cases position with
    | none => cases h
    | some here => exact List.mem_reverse.mp (List.mem_of_find?_eq_some (Option.some.inj h))

/-! ## Simulation -/

/-- The iterator shows what the cursor shows and makes every move that the cursor makes. -/
structure Simulates (it : Iterator σ κ ν ε) (entries : List (κ × ν))
    (R : σ → Option (κ × ν) → Prop) : Prop where
  current : ∀ {s position}, R s position → it.current s = position
  move : ∀ {s position m position'}, R s position → step entries m position = some position' →
    ∃ s', it.move m s = (.ok (), s') ∧ R s' position'

variable {R : σ → Option (κ × ν) → Prop}

theorem Simulates.run (h : Simulates it entries R) (moves : List (Move κ)) :
    ∀ {s : σ} {position position' : Option (κ × ν)}, R s position →
      Cursor.run entries moves position = some position' →
      ∃ s', it.run moves s = (.ok (), s') ∧ R s' position' := by
  induction moves with
  | nil =>
    intro s position position' hs hrun
    cases hrun
    exact ⟨s, rfl, hs⟩
  | cons m moves ih =>
    intro s position position' hs hrun
    obtain ⟨middle, hstep, hrest⟩ := Option.bind_eq_some_iff.mp hrun
    obtain ⟨s₁, hmove, hs₁⟩ := h.move hs hstep
    obtain ⟨s', hrun', hs'⟩ := ih hs₁ hrest
    refine ⟨s', ?_, hs'⟩
    rw [Iterator.run, hmove]
    exact hrun'

theorem Simulates.run_isSome (h : Simulates it entries R) (moves : List (Move κ)) :
    ∀ {s : σ} {position : Option (κ × ν)}, R s position → it.AllowedRun moves s →
      ∃ position', Cursor.run entries moves position = some position' := by
  induction moves with
  | nil => intro s position _ _; exact ⟨position, rfl⟩
  | cons m moves ih =>
    intro s position hs hallowed
    obtain ⟨hm, hrest⟩ := hallowed
    rw [h.current hs] at hm
    obtain ⟨middle, hstep⟩ := step_isSome entries hm
    obtain ⟨s₁, hmove, hs₁⟩ := h.move hs hstep
    rw [hmove] at hrest
    obtain ⟨position', hrun⟩ := ih hs₁ hrest
    exact ⟨position', by rw [Cursor.run, hstep]; exact hrun⟩

/-! ## Behaving as a cursor -/

/-- After any moves of a cursor that starts nowhere, the iterator shows what the cursor shows. -/
def Behaves (it : Iterator σ κ ν ε) (entries : List (κ × ν)) (s : σ) : Prop :=
  ∀ moves position, Cursor.run entries moves none = some position →
    ∃ s', it.run moves s = (.ok (), s') ∧ it.current s' = position

theorem Simulates.behaves (h : Simulates it entries R) {s : σ} (hs : R s none) :
    Behaves it entries s := by
  intro moves position hrun
  obtain ⟨s', hrun', hs'⟩ := h.run moves hs hrun
  exact ⟨s', hrun', h.current hs'⟩

omit [LinearOrder κ] in
theorem Iterator.run_append (it : Iterator σ κ ν ε) (moves more : List (Move κ)) :
    ∀ {s s' : σ}, it.run moves s = (.ok (), s') → it.run (moves ++ more) s = it.run more s' := by
  induction moves with
  | nil =>
    intro s s' h
    cases h
    rfl
  | cons m moves ih =>
    intro s s' h
    rw [Iterator.run] at h
    rw [List.cons_append, Iterator.run]
    split at h
    · exact ih h
    · cases h

theorem run_append (entries : List (κ × ν)) (moves more : List (Move κ)) :
    ∀ position : Option (κ × ν), Cursor.run entries (moves ++ more) position =
      (Cursor.run entries moves position).bind (Cursor.run entries more) := by
  induction moves with
  | nil => exact fun position => rfl
  | cons m moves ih =>
    intro position
    rw [List.cons_append, Cursor.run, Cursor.run, Option.bind_assoc]
    congr 1
    exact funext ih

/-- The states that the moves reach, with the positions of the cursor after the same moves. -/
theorem Behaves.simulates {s : σ} (h : Behaves it entries s) :
    ∃ R : σ → Option (κ × ν) → Prop, Simulates it entries R ∧ R s none := by
  refine ⟨fun s' position => ∃ moves, it.run moves s = (.ok (), s') ∧
    Cursor.run entries moves none = some position, ⟨?_, ?_⟩, [], rfl, rfl⟩
  · rintro s₁ position ⟨moves, hmoves, hrun⟩
    obtain ⟨s', hmoves', hcurrent⟩ := h moves position hrun
    rw [hmoves] at hmoves'
    cases hmoves'
    exact hcurrent
  · rintro s₁ position m position' ⟨moves, hmoves, hrun⟩ hstep
    have hmore : Cursor.run entries (moves ++ [m]) none = some position' := by
      rw [run_append, hrun, Option.bind_some, Cursor.run, hstep]
      rfl
    obtain ⟨s', hmoves', _⟩ := h (moves ++ [m]) position' hmore
    refine ⟨s', ?_, moves ++ [m], hmoves', hmore⟩
    rw [it.run_append moves [m] hmoves, Iterator.run] at hmoves'
    split at hmoves'
    · next hmove =>
      rw [hmove]
      exact hmoves'
    · cases hmoves'

/-- A list of entries as an iterator. -/
def listIterator (κ ν ε : Type*) [LinearOrder κ] :
    Iterator (List (κ × ν) × Option (κ × ν)) κ ν ε where
  current := Prod.snd
  move m s := (.ok (), s.1, (step s.1 m s.2).getD s.2)

theorem listIterator_behaves (entries : List (κ × ν)) :
    Behaves (listIterator κ ν ε) entries (entries, none) := by
  have hsimulates : Simulates (listIterator κ ν ε) entries (fun s position => s = (entries, position)) :=
    { current := by
        rintro s position rfl
        rfl
      move := by
        rintro s position m position' rfl hstep
        refine ⟨_, rfl, ?_⟩
        rw [hstep]
        rfl }
  exact hsimulates.behaves rfl

/-! ## Entries in order -/

/-- Entries by their keys. -/
def KeyLe (a b : κ × ν) : Prop := a.1 ≤ b.1

instance (a b : κ × ν) : Decidable (KeyLe a b) := inferInstanceAs (Decidable (a.1 ≤ b.1))

instance : Std.Total (fun a b : κ × ν => KeyLe a b) := ⟨fun a b => le_total a.1 b.1⟩

instance : IsTrans (κ × ν) KeyLe := ⟨fun _ b _ hab hbc => le_trans (b := b.1) hab hbc⟩

def sorted (entries : List (κ × ν)) : List (κ × ν) := entries.insertionSort KeyLe

theorem mem_sorted : x ∈ sorted entries ↔ x ∈ entries :=
  List.mem_insertionSort KeyLe

theorem sorted_lt (hnodup : (entries.map Prod.fst).Nodup) :
    (sorted entries).Pairwise (fun a b => a.1 < b.1) := by
  have hle : (sorted entries).Pairwise KeyLe := List.pairwise_insertionSort KeyLe entries
  have hne : ((sorted entries).map Prod.fst).Nodup :=
    ((List.perm_insertionSort KeyLe entries).map Prod.fst).nodup_iff.mpr hnodup
  exact (hle.and (List.pairwise_map.mp hne)).imp (fun h => lt_of_le_of_ne h.1 h.2)

/-! ## First and last entries -/

/-- The first entry whose key satisfies `p`, or another one that satisfies it and stands in front of
that. -/
def Upto (entries : List (κ × ν)) (p : κ → Prop) : Option (κ × ν) → Prop
  | none => ∀ y ∈ entries, ¬ p y.1
  | some x => p x.1 ∧ ∀ y ∈ entries, p y.1 → x.1 ≤ y.1

/-- The last entry whose key satisfies `p`, or another one that satisfies it and stands behind that. -/
def Downto (entries : List (κ × ν)) (p : κ → Prop) : Option (κ × ν) → Prop
  | none => ∀ y ∈ entries, ¬ p y.1
  | some x => p x.1 ∧ ∀ y ∈ entries, p y.1 → y.1 ≤ x.1

variable {found : Option (κ × ν)} {more : List (κ × ν)}

variable {p : κ → Prop}

theorem Upto.subset (h : Upto more p found) (hsub : entries ⊆ more) : Upto entries p found := by
  cases found with
  | none => exact fun y hy => h y (hsub hy)
  | some x => exact ⟨h.1, fun y hy => h.2 y (hsub hy)⟩

theorem Downto.subset (h : Downto more p found) (hsub : entries ⊆ more) : Downto entries p found :=
  @Upto.subset κᵒᵈ _ _ _ _ _ p h hsub

theorem upto_find? (hsorted : entries.Pairwise (fun a b => a.1 ≤ b.1)) (p : κ → Prop)
    [DecidablePred p] : Upto entries p (entries.find? (fun entry => p entry.1)) := by
  cases hfound : entries.find? (fun entry => p entry.1) with
  | none =>
    intro y hy
    have hnot := List.find?_eq_none.mp hfound y hy
    simpa using hnot
  | some x =>
    refine ⟨by simpa using List.find?_some hfound, ?_⟩
    intro y hy hp
    obtain ⟨_, before, after, rfl, hbefore⟩ := List.find?_eq_some_iff_append.mp hfound
    rcases List.mem_append.mp hy with hy | hy
    · have hnot := hbefore y hy
      simp [hp] at hnot
    · rcases List.mem_cons.mp hy with rfl | hy
      · exact le_rfl
      · exact List.rel_of_pairwise_cons (List.pairwise_append.mp hsorted).2.1 hy

theorem downto_find? (hsorted : entries.Pairwise (fun a b => a.1 ≤ b.1)) (p : κ → Prop)
    [DecidablePred p] :
    Downto entries p (entries.reverse.find? (fun entry => p entry.1)) := by
  have hfound := @upto_find? κᵒᵈ _ _ _ (List.pairwise_reverse.mpr hsorted) p ‹_›
  exact Downto.subset hfound fun y hy => List.mem_reverse.mpr hy

omit [LinearOrder κ] in
theorem head?_eq_find? (entries : List (κ × ν)) :
    entries.head? = entries.find? (fun entry => decide ((fun _ : κ => True) entry.1)) := by
  cases entries <;> simp

omit [LinearOrder κ] in
theorem getLast?_eq_find? (entries : List (κ × ν)) :
    entries.getLast? = entries.reverse.find? (fun entry => decide ((fun _ : κ => True) entry.1)) := by
  rw [← List.head?_reverse]
  exact head?_eq_find? entries.reverse

/-- Where a move from `here` may lead. -/
def Reached (entries : List (κ × ν)) : Move κ → Option (κ × ν) → Option (κ × ν) → Prop
  | .seekToFirst, _, found => Upto entries (fun _ => True) found
  | .seekToLast, _, found => Downto entries (fun _ => True) found
  | .seek target, _, found => Upto entries (target ≤ ·) found
  | .next, some here, found => Upto entries (here.1 < ·) found
  | .prev, some here, found => Downto entries (· < here.1) found
  | .next, none, _ => False
  | .prev, none, _ => False

theorem Reached.subset (h : Reached more m position position') (hsub : entries ⊆ more) :
    Reached entries m position position' := by
  cases m with
  | seekToFirst => exact (show Upto more (fun _ => True) position' from h).subset hsub
  | seekToLast => exact (show Downto more (fun _ => True) position' from h).subset hsub
  | seek target => exact (show Upto more _ _ from h).subset hsub
  | next =>
    cases position with
    | none => exact h
    | some here => exact (show Upto more _ _ from h).subset hsub
  | prev =>
    cases position with
    | none => exact h
    | some here => exact (show Downto more (· < here.1) position' from h).subset hsub

theorem reached_step (hsorted : entries.Pairwise (fun a b => a.1 ≤ b.1))
    (h : step entries m position = some position') :
    Reached entries m position position' ∧ ∀ x ∈ position', x ∈ entries := by
  have hmem : ∀ {p : κ × ν → Bool} {x}, x ∈ entries.reverse.find? p → x ∈ entries := by
    intro p x hx
    exact List.mem_reverse.mp (List.mem_of_find?_eq_some hx)
  cases m with
  | seekToFirst =>
    cases h
    rw [head?_eq_find?]
    exact ⟨upto_find? hsorted (fun _ => True), fun x hx => List.mem_of_find?_eq_some hx⟩
  | seekToLast =>
    cases h
    rw [getLast?_eq_find?]
    exact ⟨downto_find? hsorted (fun _ => True), fun x hx => hmem hx⟩
  | seek target =>
    cases h
    exact ⟨upto_find? hsorted (target ≤ ·), fun x hx => List.mem_of_find?_eq_some hx⟩
  | next =>
    cases position with
    | none => cases h
    | some here =>
      cases h
      exact ⟨upto_find? hsorted (here.1 < ·), fun x hx => List.mem_of_find?_eq_some hx⟩
  | prev =>
    cases position with
    | none => cases h
    | some here =>
      cases h
      exact ⟨downto_find? hsorted (· < here.1), fun x hx => hmem hx⟩

/-! ## Iterators that pass no old entry -/

/-- The iterator stands at one of `all`, and its moves pass none of the `old` entries. -/
structure Tracks (it : Iterator σ κ ν ε) (old all : List (κ × ν)) (Inv : σ → Prop) : Prop where
  mem : ∀ {s x}, Inv s → it.current s = some x → x ∈ all
  move : ∀ {s m}, Inv s → Allowed m (it.current s) →
    ∃ s', it.move m s = (.ok (), s') ∧ Inv s' ∧ Reached old m (it.current s) (it.current s')

theorem Simulates.tracks (h : Simulates it entries R)
    (hsorted : entries.Pairwise (fun a b => a.1 ≤ b.1)) :
    Tracks it entries entries (fun s => ∃ position, R s position ∧ ∀ x ∈ position, x ∈ entries) where
  mem := by
    rintro s x ⟨position, hs, hmem⟩ hx
    rw [h.current hs] at hx
    exact hmem x hx
  move := by
    rintro s m ⟨position, hs, hmem⟩ hallowed
    rw [h.current hs] at hallowed ⊢
    obtain ⟨position', hstep⟩ := step_isSome entries hallowed
    obtain ⟨s', hmove, hs'⟩ := h.move hs hstep
    obtain ⟨hreached, hmem'⟩ := reached_step hsorted hstep
    rw [← h.current hs'] at hreached
    exact ⟨s', hmove, ⟨position', hs', hmem'⟩, hreached⟩

theorem Behaves.tracks {s : σ} (h : Behaves it entries s) (hsorted : entries.Pairwise KeyLe) :
    ∃ Inv : σ → Prop, Tracks it entries entries Inv ∧ Inv s := by
  obtain ⟨R, hsimulates, hstart⟩ := h.simulates
  exact ⟨_, hsimulates.tracks hsorted, none, hstart, by simp⟩

theorem tracks_each {lists : List (List (κ × ν))} {states : List σ}
    (h : List.Forall₂ (Behaves it) lists states) (hsorted : ∀ list ∈ lists, list.Pairwise KeyLe) :
    ∃ Inv : Nat → σ → Prop,
      (∀ i < lists.length, Tracks it (lists.getD i []) (lists.getD i []) (Inv i)) ∧
      ∀ (i : Nat) s, states[i]? = some s → Inv i s := by
  induction h with
  | nil => exact ⟨fun _ _ => True, by simp, by simp⟩
  | @cons list s lists states hhead _ ih =>
    obtain ⟨head, htracks, hs⟩ := hhead.tracks (hsorted list List.mem_cons_self)
    obtain ⟨Inv, hrest, hstates⟩ := ih (fun l hl => hsorted l (List.mem_cons_of_mem _ hl))
    refine ⟨fun i => Nat.casesOn i head Inv, ?_, ?_⟩
    · intro i hi
      cases i with
      | zero => exact htracks
      | succ i => exact hrest i (Nat.lt_of_succ_lt_succ hi)
    · intro i s' hget
      cases i with
      | zero =>
        cases hget
        exact hs
      | succ i => exact hstates i s' hget

variable {all old : List (κ × ν)}

variable {Inv : σ → Prop}

theorem Tracks.subset {fewer : List (κ × ν)} (h : Tracks it old all Inv) (hsub : fewer ⊆ old) :
    Tracks it fewer all Inv where
  mem := h.mem
  move := by
    intro s m hs hallowed
    obtain ⟨s', hmove, hs', hreached⟩ := h.move hs hallowed
    exact ⟨s', hmove, hs', hreached.subset hsub⟩

theorem Tracks.sum_inl {τ : Type*} {left : Iterator σ κ ν ε} (right : Iterator τ κ ν ε)
    (h : Tracks left old all Inv) :
    Tracks (left.sum right) old all (Sum.elim Inv (fun _ => False)) where
  mem := by
    rintro (s | t) x hs hx
    · exact h.mem hs hx
    · exact hs.elim
  move := by
    rintro (s | t) m hs hallowed
    · obtain ⟨s', hmove, hs', hreached⟩ := h.move hs hallowed
      refine ⟨.inl s', ?_, hs', hreached⟩
      show (left.move m s).map id Sum.inl = _
      rw [hmove]
      rfl
    · exact hs.elim

theorem Tracks.sum_inr {τ : Type*} (left : Iterator σ κ ν ε) {right : Iterator τ κ ν ε}
    {Inv : τ → Prop} (h : Tracks right old all Inv) :
    Tracks (left.sum right) old all (Sum.elim (fun _ => False) Inv) where
  mem := by
    rintro (s | t) x hs hx
    · exact hs.elim
    · exact h.mem hs hx
  move := by
    rintro (s | t) m hs hallowed
    · exact hs.elim
    · obtain ⟨t', hmove, ht', hreached⟩ := h.move hs hallowed
      refine ⟨.inr t', ?_, ht', hreached⟩
      show (right.move m t).map id Sum.inr = _
      rw [hmove]
      rfl

/-- Going forward, the entries that satisfy `P` are still to come, from this position on. -/
def Ahead (old : List (κ × ν)) (P : κ → Prop) : Option (κ × ν) → Prop
  | none => ∀ y ∈ old, ¬ P y.1
  | some x => ∀ y ∈ old, P y.1 ↔ x.1 ≤ y.1

/-- Going backward, the entries that satisfy `P` are still to come, from this position on. -/
def Behind (old : List (κ × ν)) (P : κ → Prop) : Option (κ × ν) → Prop
  | none => ∀ y ∈ old, ¬ P y.1
  | some x => ∀ y ∈ old, P y.1 ↔ y.1 ≤ x.1

section Positions

variable {old : List (κ × ν)} {P : κ → Prop} {found : Option (κ × ν)} {x z : κ × ν}

theorem Upto.ahead {p : κ → Prop} (h : Upto old p found)
    (hup : ∀ {a b}, p a → a ≤ b → p b) : Ahead old p found := by
  cases found with
  | none => exact h
  | some x => exact fun y hy => ⟨h.2 y hy, hup h.1⟩

theorem Downto.behind {p : κ → Prop} (h : Downto old p found)
    (hdown : ∀ {a b}, p b → a ≤ b → p a) : Behind old p found :=
  @Upto.ahead κᵒᵈ _ _ _ _ p h hdown

theorem Ahead.next (h : Ahead old P (some x)) (hnext : Upto old (x.1 < ·) found) :
    Ahead old (fun k => P k ∧ x.1 < k) found := by
  cases found with
  | none => exact fun y hy hP => hnext y hy hP.2
  | some x' =>
    intro y hy
    refine ⟨fun hP => hnext.2 y hy hP.2, fun hle => ?_⟩
    have hlt := lt_of_lt_of_le hnext.1 hle
    exact ⟨(h y hy).mpr hlt.le, hlt⟩

theorem Ahead.keep (h : Ahead old P found) (hle : ∀ z ∈ found, x.1 ≤ z.1)
    (hne : ∀ y ∈ old, y.1 ≠ x.1) : Ahead old (fun k => P k ∧ x.1 < k) found := by
  cases found with
  | none => exact fun y hy hP => h y hy hP.1
  | some z =>
    intro y hy
    refine ⟨fun hP => (h y hy).mp hP.1, fun hzy => ?_⟩
    exact ⟨(h y hy).mpr hzy, lt_of_le_of_ne ((hle z rfl).trans hzy) (hne y hy).symm⟩

theorem Behind.prev (h : Behind old P (some x)) (hprev : Downto old (· < x.1) found) :
    Behind old (fun k => P k ∧ k < x.1) found :=
  @Ahead.next κᵒᵈ _ _ _ P _ _ h hprev

/-- A seek and a step back: an entry added between the two may lie behind the target, but no old one
does. -/
theorem behind_of_seek_prev {target : κ} (hseek : Upto old (target ≤ ·) (some x))
    (hprev : Downto old (· < x.1) found) : Behind old (· < target) found := by
  cases found with
  | none =>
    intro y hy hlt
    exact hprev y hy (lt_of_lt_of_le hlt hseek.1)
  | some x' =>
    intro y hy
    refine ⟨fun hlt => hprev.2 y hy (lt_of_lt_of_le hlt hseek.1), fun hle => ?_⟩
    refine lt_of_not_ge (fun hge => ?_)
    exact absurd (lt_of_le_of_lt hle hprev.1) (not_lt.mpr (hseek.2 y hy hge))

theorem behind_of_seek_last {target : κ} (hseek : Upto old (target ≤ ·) none)
    (hlast : Downto old (fun _ => True) found) : Behind old (· < target) found := by
  cases found with
  | none => exact fun y hy _ => hlast y hy trivial
  | some x' =>
    intro y hy
    exact ⟨fun _ => hlast.2 y hy trivial, fun _ => lt_of_not_ge (hseek y hy)⟩

end Positions

/-! ## How long a scan can be -/

/-- How many entries come at the position or later. -/
def remaining (all : List (κ × ν)) : Option (κ × ν) → Nat
  | none => 0
  | some x => (all.filter (fun y => x.1 ≤ y.1)).length

/-- How many entries come at the position or earlier. -/
def preceding (all : List (κ × ν)) : Option (κ × ν) → Nat
  | none => 0
  | some x => (all.filter (fun y => y.1 ≤ x.1)).length

theorem remaining_le (all : List (κ × ν)) (found : Option (κ × ν)) :
    remaining all found ≤ all.length := by
  cases found with
  | none => exact Nat.zero_le _
  | some x => exact List.length_filter_le _ _

theorem preceding_le (all : List (κ × ν)) (found : Option (κ × ν)) :
    preceding all found ≤ all.length :=
  @remaining_le κᵒᵈ _ _ all found

omit [LinearOrder κ] in
theorem length_filter_lt {p q : κ × ν → Bool} (hx : x ∈ all) (hpq : ∀ y, p y = true → q y = true)
    (hq : q x = true) (hp : p x = false) :
    (all.filter p).length < (all.filter q).length := by
  rw [← List.countP_eq_length_filter, ← List.countP_eq_length_filter]
  exact Partition.countP_lt_countP (fun y _ => hpq y) hx hp hq

theorem Upto.remaining_lt {old : List (κ × ν)} (h : Upto old (x.1 < ·) found) (hx : x ∈ all) :
    remaining all found < remaining all (some x) := by
  cases found with
  | none => exact List.length_pos_of_mem (List.mem_filter.mpr ⟨hx, by simp⟩)
  | some x' =>
    refine length_filter_lt hx ?_ (by simp) (by simpa using h.1)
    intro y hy
    simp only [decide_eq_true_eq] at hy ⊢
    exact le_trans (le_of_lt h.1) hy

/-! ## Iterators that go through the old entries -/

/-- The iterator goes through the old entries in both directions. Forward, `Fwd s P` says that the old
entries with `P` are to come; what it shows is the first of them or an added entry in front of it. A
turn backward may show added entries behind the place of the turn. No scan takes more than `bound`
moves in one direction. -/
structure Scans (it : Iterator σ κ ν ε) (old all : List (κ × ν)) (Inv : σ → Prop)
    (Fwd Bwd : σ → (κ → Prop) → Prop) (ahead behind : σ → Nat) (bound : Nat) : Prop where
  inv_fwd : ∀ {s P}, Fwd s P → Inv s
  inv_bwd : ∀ {s P}, Bwd s P → Inv s
  mem : ∀ {s x}, Inv s → it.current s = some x → x ∈ all
  seekToFirst : ∀ {s}, Inv s → ∃ s', it.move .seekToFirst s = (.ok (), s') ∧ Fwd s' (fun _ => True)
  seekToLast : ∀ {s}, Inv s → ∃ s', it.move .seekToLast s = (.ok (), s') ∧ Bwd s' (fun _ => True)
  seek : ∀ {s} (target : κ), Inv s →
    ∃ s', it.move (.seek target) s = (.ok (), s') ∧ Fwd s' (target ≤ ·)
  fwd_none : ∀ {s P}, Fwd s P → it.current s = none → ∀ y ∈ old, ¬ P y.1
  fwd_some : ∀ {s P x}, Fwd s P → it.current s = some x →
    (∀ y ∈ old, P y.1 → x.1 ≤ y.1) ∧ (x ∈ old → P x.1)
  fwd_next : ∀ {s P x}, Fwd s P → it.current s = some x → ∃ s', it.move .next s = (.ok (), s') ∧
    Fwd s' (fun k => P k ∧ x.1 < k) ∧ ahead s' < ahead s
  fwd_prev : ∀ {s P x}, Fwd s P → it.current s = some x →
    ∃ s', it.move .prev s = (.ok (), s') ∧ Bwd s' (· < x.1)
  bwd_none : ∀ {s P}, Bwd s P → it.current s = none → ∀ y ∈ old, ¬ P y.1
  bwd_some : ∀ {s P x}, Bwd s P → it.current s = some x →
    (∀ y ∈ old, P y.1 → y.1 ≤ x.1) ∧ (x ∈ old → P x.1)
  bwd_prev : ∀ {s P x}, Bwd s P → it.current s = some x → ∃ s', it.move .prev s = (.ok (), s') ∧
    Bwd s' (fun k => P k ∧ k < x.1) ∧ behind s' < behind s
  bwd_next : ∀ {s P x}, Bwd s P → it.current s = some x →
    ∃ s', it.move .next s = (.ok (), s') ∧ Fwd s' (x.1 < ·)
  ahead_le : ∀ {s}, Inv s → ahead s ≤ bound
  behind_le : ∀ {s}, Inv s → behind s ≤ bound

/-- An iterator that passes no old entry goes through them. -/
theorem Tracks.scans (h : Tracks it old all Inv) :
    Scans it old all Inv (fun s P => Inv s ∧ Ahead old P (it.current s))
      (fun s P => Inv s ∧ Behind old P (it.current s)) (fun s => remaining all (it.current s))
      (fun s => preceding all (it.current s)) all.length where
  inv_fwd := fun hs => hs.1
  inv_bwd := fun hs => hs.1
  mem := h.mem
  seekToFirst := by
    intro s hs
    obtain ⟨s', hmove, hs', hreached⟩ := h.move (m := .seekToFirst) hs trivial
    exact ⟨s', hmove, hs', (show Upto old (fun _ => True) _ from hreached).ahead (fun _ _ => trivial)⟩
  seekToLast := by
    intro s hs
    obtain ⟨s', hmove, hs', hreached⟩ := h.move (m := .seekToLast) hs trivial
    exact ⟨s', hmove, hs',
      (show Downto old (fun _ => True) _ from hreached).behind (fun _ _ => trivial)⟩
  seek := by
    intro s target hs
    obtain ⟨s', hmove, hs', hreached⟩ := h.move (m := .seek target) hs trivial
    exact ⟨s', hmove, hs', (show Upto old (target ≤ ·) _ from hreached).ahead le_trans⟩
  fwd_none := by
    rintro s P ⟨_, hahead⟩ hnone
    rw [hnone] at hahead
    exact hahead
  fwd_some := by
    rintro s P x ⟨_, hahead⟩ hx
    rw [hx] at hahead
    exact ⟨fun y hy => (hahead y hy).mp, fun hmem => (hahead x hmem).mpr le_rfl⟩
  fwd_next := by
    rintro s P x ⟨hs, hahead⟩ hx
    rw [hx] at hahead
    obtain ⟨s', hmove, hs', hreached⟩ := h.move (m := .next) hs (by rw [hx]; trivial)
    rw [hx] at hreached
    have hupto : Upto old (x.1 < ·) (it.current s') := hreached
    refine ⟨s', hmove, ⟨hs', hahead.next hupto⟩, ?_⟩
    rw [hx]
    exact hupto.remaining_lt (h.mem hs hx)
  fwd_prev := by
    rintro s P x ⟨hs, _⟩ hx
    obtain ⟨s', hmove, hs', hreached⟩ := h.move (m := .prev) hs (by rw [hx]; trivial)
    rw [hx] at hreached
    exact ⟨s', hmove, hs', (show Downto old (· < x.1) _ from hreached).behind
      (fun hb hab => lt_of_le_of_lt hab hb)⟩
  bwd_none := by
    rintro s P ⟨_, hbehind⟩ hnone
    rw [hnone] at hbehind
    exact hbehind
  bwd_some := by
    rintro s P x ⟨_, hbehind⟩ hx
    rw [hx] at hbehind
    exact ⟨fun y hy => (hbehind y hy).mp, fun hmem => (hbehind x hmem).mpr le_rfl⟩
  bwd_prev := by
    rintro s P x ⟨hs, hbehind⟩ hx
    rw [hx] at hbehind
    obtain ⟨s', hmove, hs', hreached⟩ := h.move (m := .prev) hs (by rw [hx]; trivial)
    rw [hx] at hreached
    have hdownto : Downto old (· < x.1) (it.current s') := hreached
    refine ⟨s', hmove, ⟨hs', hbehind.prev hdownto⟩, ?_⟩
    rw [hx]
    exact @Upto.remaining_lt κᵒᵈ _ _ x _ all old hdownto (h.mem hs hx)
  bwd_next := by
    rintro s P x ⟨hs, _⟩ hx
    obtain ⟨s', hmove, hs', hreached⟩ := h.move (m := .next) hs (by rw [hx]; trivial)
    rw [hx] at hreached
    exact ⟨s', hmove, hs', (show Upto old (x.1 < ·) _ from hreached).ahead
      (fun ha hab => lt_of_lt_of_le ha hab)⟩
  ahead_le := fun _ => remaining_le _ _
  behind_le := fun _ => preceding_le _ _

/-! ## Without added entries -/

theorem eq_of_key (hsorted : entries.Pairwise (fun a b => a.1 < b.1)) {y : κ × ν} (hx : x ∈ entries)
    (hy : y ∈ entries) (h : x.1 = y.1) : x = y := by
  have hnodup : (entries.map Prod.fst).Nodup := List.pairwise_map.mpr (hsorted.imp ne_of_lt)
  exact List.inj_on_of_nodup_map hnodup hx hy h

variable {found' : Option (κ × ν)}

theorem Upto.unique (hkeys : ∀ a ∈ entries, ∀ b ∈ entries, a.1 = b.1 → a = b)
    (h : Upto entries p found) (h' : Upto entries p found') (hmem : ∀ x ∈ found, x ∈ entries)
    (hmem' : ∀ x ∈ found', x ∈ entries) : found = found' := by
  cases found with
  | none =>
    cases found' with
    | none => rfl
    | some x' => exact absurd h'.1 (h x' (hmem' x' rfl))
  | some x =>
    cases found' with
    | none => exact absurd h.1 (h' x (hmem x rfl))
    | some x' =>
      have hle := h.2 x' (hmem' x' rfl) h'.1
      have hge := h'.2 x (hmem x rfl) h.1
      rw [hkeys x (hmem x rfl) x' (hmem' x' rfl) (le_antisymm hle hge)]

theorem Reached.unique (hsorted : entries.Pairwise (fun a b => a.1 < b.1))
    (h : Reached entries m position found) (h' : Reached entries m position found')
    (hmem : ∀ x ∈ found, x ∈ entries) (hmem' : ∀ x ∈ found', x ∈ entries) : found = found' := by
  have hkeys : ∀ a ∈ entries, ∀ b ∈ entries, a.1 = b.1 → a = b := fun a ha b hb =>
    eq_of_key hsorted ha hb
  have hup : ∀ {p : κ → Prop}, Upto entries p found → Upto entries p found' → found = found' :=
    fun h h' => h.unique hkeys h' hmem hmem'
  have hdown : ∀ {p : κ → Prop}, Downto entries p found → Downto entries p found' →
      found = found' :=
    fun {p} h h' => @Upto.unique κᵒᵈ _ _ _ _ p _ hkeys h h' hmem hmem'
  cases m with
  | seekToFirst => exact hup (p := fun _ => True) h h'
  | seekToLast => exact hdown (p := fun _ => True) h h'
  | seek target => exact hup (p := (target ≤ ·)) h h'
  | next =>
    cases position with
    | none => exact h.elim
    | some here => exact hup (p := (here.1 < ·)) h h'
  | prev =>
    cases position with
    | none => exact h.elim
    | some here => exact hdown (p := (· < here.1)) h h'

section Exact

variable {it : Iterator σ κ ν ε} {old all : List (κ × ν)} {Inv : σ → Prop}
  {Fwd Bwd : σ → (κ → Prop) → Prop} {ahead behind : σ → Nat} {bound : Nat}

/-- The iterator stands at an old entry, and the others are on both sides of it. -/
def Scans.Here (it : Iterator σ κ ν ε) (old : List (κ × ν)) (Inv : σ → Prop)
    (Fwd Bwd : σ → (κ → Prop) → Prop) (s : σ) (position : Option (κ × ν)) : Prop :=
  it.current s = position ∧ Inv s ∧ ∀ x ∈ position,
    (∃ P, Fwd s P ∧ ∀ y ∈ old, P y.1 ↔ x.1 ≤ y.1) ∨ ∃ P, Bwd s P ∧ ∀ y ∈ old, P y.1 ↔ y.1 ≤ x.1

theorem Upto.of_coming {P : κ → Prop} (h : Upto old (fun k => P k ∧ x.1 < k) found)
    (hP : ∀ y ∈ old, P y.1 ↔ x.1 ≤ y.1) : Upto old (x.1 < ·) found := by
  cases found with
  | none => exact fun y hy hlt => h y hy ⟨(hP y hy).mpr (le_of_lt hlt), hlt⟩
  | some x' => exact ⟨h.1.2, fun y hy hlt => h.2 y hy ⟨(hP y hy).mpr (le_of_lt hlt), hlt⟩⟩

section

variable (h : Scans it old all Inv Fwd Bwd ahead behind bound)

include h

theorem Scans.fwd_here (hall : all ⊆ old)
    {s : σ} {P : κ → Prop} (hs : Fwd s P) (hup : ∀ a, P a → ∀ y ∈ old, a ≤ y.1 → P y.1) :
    Upto old P (it.current s) ∧ Scans.Here it old Inv Fwd Bwd s (it.current s) := by
  cases hx : it.current s with
  | none => exact ⟨h.fwd_none hs hx, hx, h.inv_fwd hs, by simp⟩
  | some x =>
    obtain ⟨hle, hP⟩ := h.fwd_some hs hx
    have hPx := hP (hall (h.mem (h.inv_fwd hs) hx))
    refine ⟨⟨hPx, hle⟩, hx, h.inv_fwd hs, fun x' hx' => .inl ⟨P, hs, ?_⟩⟩
    cases hx'
    exact fun y hy => ⟨hle y hy, hup x.1 hPx y hy⟩

theorem Scans.bwd_here (hall : all ⊆ old)
    {s : σ} {P : κ → Prop} (hs : Bwd s P) (hdown : ∀ a, P a → ∀ y ∈ old, y.1 ≤ a → P y.1) :
    Downto old P (it.current s) ∧ Scans.Here it old Inv Fwd Bwd s (it.current s) := by
  cases hx : it.current s with
  | none => exact ⟨h.bwd_none hs hx, hx, h.inv_bwd hs, by simp⟩
  | some x =>
    obtain ⟨hle, hP⟩ := h.bwd_some hs hx
    have hPx := hP (hall (h.mem (h.inv_bwd hs) hx))
    refine ⟨⟨hPx, hle⟩, hx, h.inv_bwd hs, fun x' hx' => .inr ⟨P, hs, ?_⟩⟩
    cases hx'
    exact fun y hy => ⟨hle y hy, hdown x.1 hPx y hy⟩

theorem Scans.move_here (hall : all ⊆ old)
    {s : σ} {m : Move κ} {position : Option (κ × ν)} (hs : Scans.Here it old Inv Fwd Bwd s position)
    (hallowed : Allowed m position) :
    ∃ s', it.move m s = (.ok (), s') ∧ Reached old m position (it.current s') ∧
      Scans.Here it old Inv Fwd Bwd s' (it.current s') := by
  obtain ⟨hcurrent, hinv, hside⟩ := hs
  cases m with
  | seekToFirst =>
    obtain ⟨s', hmove, hs'⟩ := h.seekToFirst hinv
    obtain ⟨hupto, hhere⟩ := h.fwd_here hall hs' (fun _ _ _ _ _ => trivial)
    exact ⟨s', hmove, hupto, hhere⟩
  | seekToLast =>
    obtain ⟨s', hmove, hs'⟩ := h.seekToLast hinv
    obtain ⟨hdownto, hhere⟩ := h.bwd_here hall hs' (fun _ _ _ _ _ => trivial)
    exact ⟨s', hmove, hdownto, hhere⟩
  | seek target =>
    obtain ⟨s', hmove, hs'⟩ := h.seek target hinv
    obtain ⟨hupto, hhere⟩ := h.fwd_here hall hs' (fun a ha y _ hle => le_trans ha hle)
    exact ⟨s', hmove, hupto, hhere⟩
  | next =>
    cases position with
    | none => exact hallowed.elim
    | some x =>
      rcases hside x rfl with ⟨P, hfwd, hP⟩ | ⟨P, hbwd, hP⟩
      · obtain ⟨s', hmove, hs', _⟩ := h.fwd_next hfwd hcurrent
        obtain ⟨hupto, hhere⟩ := h.fwd_here hall hs' (fun a ha y hy hle =>
          have hlt := lt_of_lt_of_le ha.2 hle
          ⟨(hP y hy).mpr hlt.le, hlt⟩)
        exact ⟨s', hmove, hupto.of_coming hP, hhere⟩
      · obtain ⟨s', hmove, hs'⟩ := h.bwd_next hbwd hcurrent
        obtain ⟨hupto, hhere⟩ := h.fwd_here hall hs' (fun a ha y _ hle => lt_of_lt_of_le ha hle)
        exact ⟨s', hmove, hupto, hhere⟩
  | prev =>
    cases position with
    | none => exact hallowed.elim
    | some x =>
      rcases hside x rfl with ⟨P, hfwd, hP⟩ | ⟨P, hbwd, hP⟩
      · obtain ⟨s', hmove, hs'⟩ := h.fwd_prev hfwd hcurrent
        obtain ⟨hdownto, hhere⟩ := h.bwd_here hall hs' (fun a ha y _ hle => lt_of_le_of_lt hle ha)
        exact ⟨s', hmove, hdownto, hhere⟩
      · obtain ⟨s', hmove, hs', _⟩ := h.bwd_prev hbwd hcurrent
        obtain ⟨hdownto, hhere⟩ := h.bwd_here hall hs' (fun a ha y hy hle =>
          have hlt := lt_of_le_of_lt hle ha.2
          ⟨(hP y hy).mpr hlt.le, hlt⟩)
        exact ⟨s', hmove, @Upto.of_coming κᵒᵈ _ _ x _ old P hdownto hP, hhere⟩

/-- An iterator that goes through the entries and shows nothing else simulates a cursor. -/
theorem Scans.simulates (hall : all ⊆ old)
    (hsorted : old.Pairwise (fun a b => a.1 < b.1)) :
    Simulates it old (Scans.Here it old Inv Fwd Bwd) where
  current := fun hs => hs.1
  move := by
    intro s position m position' hs hstep
    obtain ⟨s', hmove, hreached, hhere⟩ := h.move_here hall hs (allowed_of_step hstep)
    obtain ⟨hreached', hmem'⟩ := reached_step (hsorted.imp le_of_lt) hstep
    have hmem : ∀ x ∈ it.current s', x ∈ old := fun x hx => hall (h.mem hhere.2.1 hx)
    rw [hreached.unique hsorted hreached' hmem hmem'] at hhere
    exact ⟨s', hmove, hhere⟩

end

end Exact

end Cursor
