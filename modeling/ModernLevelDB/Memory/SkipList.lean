import ModernLevelDB.Lib.Links
import ModernLevelDB.Lib.Transition
import Mathlib.Data.List.Sort

/-! # The skip list (`memory/skiplist.h`)

An ordered set with one writer and any number of readers, which share nothing but the links of the
nodes and the height. Every load or store of a link or of the height is one step, and the steps of
all threads interleave freely. A node is named by its entry, since the entries are distinct; the head
is the node `none`, and a null link is `none` as well.

An entry is compared by its key. A search has a target of its own type: all that matters of it is
which keys come before it. -/
namespace ModernLevelDB
set_option autoImplicit false

/-- A lower part of the keys, below which a search goes on. -/
structure Cut (α : Type*) [LE α] where
  below : α → Bool
  lower : ∀ {a b}, a ≤ b → below b = true → below a = true

namespace Cut

variable {α : Type*} [LinearOrder α]

def lt (target : α) : Cut α := ⟨fun a => a < target, fun hab hb => by
  rw [decide_eq_true_iff] at hb ⊢
  exact hab.trans_lt hb⟩

def top (α : Type*) [LinearOrder α] : Cut α := ⟨fun _ => true, fun _ _ => rfl⟩

end Cut

namespace SkipList

variable {ε α ι : Type*}

def maxHeight : Nat := 12

/-- The shared memory: the link of a node at a level, and `max_height_`. -/
structure Shared (ε : Type*) where
  next : Option ε → Nat → Option ε := fun _ _ => none
  height : Nat := 1

def Shared.setNext [DecidableEq ε] (shared : Shared ε) (node : Option ε) (level : Nat)
    (value : Option ε) : Shared ε :=
  { shared with
    next := fun n l => if n = node ∧ l = level then value else shared.next n l }

/-! ## Searches -/

/-- Where a search stands. -/
structure Find (ε : Type*) where
  node : Option ε := none
  lastNotLess : Option ε := none
  level : Nat

/-- What one comparison leads to. -/
inductive Round (ε : Type*) where
  | goOn (find : Find ε)
  | descend (find : Find ε)
  | found (next : Option ε)

section Searches

variable [DecidableEq ε] [LE α] (key : ε → α) (cut : Cut α)

/-- The loop's test of the loaded link: a node that was not less before is not compared again. -/
def Find.passes (find : Find ε) : Option ε → Bool
  | none => false
  | some entry => some entry ≠ find.lastNotLess && cut.below (key entry)

def Find.round (find : Find ε) (next : Option ε) : Round ε :=
  if find.passes key cut next then .goOn { find with node := next }
  else if find.level = 0 then .found next
  else .descend { find with lastNotLess := next, level := find.level - 1 }

/-- `ReachedUpperBound`. `FindLast` has no upper bound: its cut is `Cut.top`. -/
def reachedUpperBound : Option ε → Bool
  | none => true
  | some entry => !cut.below (key entry)

end Searches

/-! ## The writer -/

/-- The next access of the writer. -/
inductive Writer (ε : Type*) where
  | idle
  /-- In `FindGreaterOrEqual`. -/
  | search (entry : ε) (find : Find ε) (predecessors : Nat → Option ε)
  /-- Before `InsertAfterSearch`. -/
  | searched (entry : ε) (predecessors : Nat → Option ε)
  /-- Before `PublishHeightIfNeeded`, with the height that was current. -/
  | prepared (entry : ε) (height currentHeight : Nat) (predecessors : Nat → Option ε)
  /-- `LinkNodeAtLevel`, before the load of the predecessor's link. -/
  | link (entry : ε) (height : Nat) (predecessors : Nat → Option ε) (level : Nat)
  /-- Before the store of the own link. -/
  | loaded (entry : ε) (height : Nat) (predecessors : Nat → Option ε) (level : Nat)
      (successor : Option ε)
  /-- Before the store of the predecessor's link. -/
  | stored (entry : ε) (height : Nat) (predecessors : Nat → Option ε) (level : Nat)

/-! ## Readers -/

/-- The searches of a reader. -/
inductive Operation (ε α : Type*) [LE α] where
  /-- `FindGreaterOrEqual`, for `Seek`. -/
  | seek (cut : Cut α)
  /-- `FindLastBefore`, for `Prev` and `SeekToLast`. -/
  | lastBefore (cut : Cut α)
  /-- The load of `Next` and of `SeekToFirst`. -/
  | next (node : Option ε)

/-- The next access of a reader. -/
inductive Reader (ε α : Type*) [LE α] where
  | idle
  | seek (cut : Cut α) (find : Find ε)
  | lastBefore (cut : Cut α) (node : Option ε) (level : Nat)
  | next (node : Option ε)

/-- What a reader has returned. -/
structure Answer (ι ε α : Type*) [LE α] where
  reader : ι
  operation : Operation ε α
  node : Option ε

/-! ## The system -/

/-- The threads and what they share. `linked` lists the entries whose link at level 0 has been
stored, and `finished` those whose insertion has ended. -/
structure State (ι ε α : Type*) [LE α] where
  shared : Shared ε := {}
  writer : Writer ε := .idle
  readers : ι → Reader ε α := fun _ => .idle
  linked : List ε := []
  finished : List ε := []

/-- The choices of a run: which thread makes its next access, what is inserted and read, and the
result of `RandomHeight`. -/
inductive Choice (ι ε α : Type*) [LE α] where
  | insert (entry : ε)
  | write (height : Nat)
  | begin (reader : ι) (operation : Operation ε α)
  | read (reader : ι)

section Steps

variable [DecidableEq ε] [LinearOrder α] (key : ε → α)

/-- The next access of the writer. `height` is what `RandomHeight` returns in this step. -/
def Writer.step (shared : Shared ε) (height : Nat) : Writer ε → Shared ε × Writer ε
  | .idle => (shared, .idle)
  | .search entry find predecessors =>
      match find.round key (.lt (key entry)) (shared.next find.node find.level) with
      | .goOn find => (shared, .search entry find predecessors)
      | .descend next =>
          (shared, .search entry next (Function.update predecessors find.level find.node))
      | .found _ => (shared, .searched entry (Function.update predecessors find.level find.node))
  | .searched entry predecessors =>
      -- `PreparePredecessorsForHeight` and `NewNode`, whose links are null.
      ({ shared with
          next := fun node level => if node = some entry then none else shared.next node level },
        .prepared entry height shared.height
          (fun level => if shared.height ≤ level then none else predecessors level))
  | .prepared entry height currentHeight predecessors =>
      (if currentHeight < height then { shared with height } else shared,
        .link entry height predecessors 0)
  | .link entry height predecessors level =>
      (shared, .loaded entry height predecessors level (shared.next (predecessors level) level))
  | .loaded entry height predecessors level successor =>
      (shared.setNext (some entry) level successor, .stored entry height predecessors level)
  | .stored entry height predecessors level =>
      (shared.setNext (predecessors level) level (some entry),
        if level + 1 < height then .link entry height predecessors (level + 1) else .idle)

/-- The entry that the writer's next access links at level 0, and the one whose insertion it ends. -/
def Writer.links : Writer ε → List ε
  | .stored entry _ _ 0 => [entry]
  | _ => []

def Writer.finishes : Writer ε → List ε
  | .stored entry height _ level => if level + 1 < height then [] else [entry]
  | _ => []

def Reader.step (shared : Shared ε) : Reader ε α → Reader ε α ⊕ Operation ε α × Option ε
  | .idle => .inl .idle
  | .seek cut find =>
      match find.round key cut (shared.next find.node find.level) with
      | .goOn find => .inl (.seek cut find)
      | .descend find => .inl (.seek cut find)
      | .found successor => .inr (.seek cut, successor)
  | .lastBefore cut node level =>
      let successor := shared.next node level
      if reachedUpperBound key cut successor then
        if level = 0 then .inr (.lastBefore cut, node)
        else .inl (.lastBefore cut node (level - 1))
      else .inl (.lastBefore cut successor level)
  | .next node => .inr (.next node, shared.next node 0)

/-- `Next` is called at an entry of the list. -/
def Operation.allowed (linked : List ε) : Operation ε α → Bool
  | .next (some entry) => entry ∈ linked
  | _ => true

def Reader.start (shared : Shared ε) : Operation ε α → Reader ε α
  | .seek cut => .seek cut { level := shared.height - 1 }
  | .lastBefore cut => .lastBefore cut none (shared.height - 1)
  | .next node => .next node

variable [DecidableEq ι]

/-- One step. Entries are inserted once, and heights are between 1 and the maximum. -/
def State.step (s : State ι ε α) : Choice ι ε α → Option (State ι ε α × Option (Answer ι ε α))
  | .insert entry =>
      match s.writer with
      | .idle =>
          if key entry ∈ s.linked.map key then none
          else
            let find : Find ε := { level := s.shared.height - 1 }
            some ({ s with writer := .search entry find (fun _ => none) }, none)
      | _ => none
  | .write height =>
      if 1 ≤ height ∧ height ≤ maxHeight then
        let (shared, writer) := s.writer.step key s.shared height
        some ({ s with
          shared, writer
          linked := s.linked ++ s.writer.links
          finished := s.finished ++ s.writer.finishes }, none)
      else none
  | .begin reader operation =>
      match s.readers reader with
      | .idle =>
          if operation.allowed s.linked then
            some ({ s with
              readers := Function.update s.readers reader (.start s.shared operation) }, none)
          else none
      | _ => none
  | .read reader =>
      match (s.readers reader).step key s.shared with
      | .inl next => some ({ s with readers := Function.update s.readers reader next }, none)
      | .inr (operation, node) =>
          some ({ s with readers := Function.update s.readers reader .idle },
            some ⟨reader, operation, node⟩)

def State.run (s : State ι ε α) : List (Choice ι ε α) → Option (State ι ε α)
  | [] => some s
  | choice :: choices => (s.step key choice).bind (fun out => out.1.run choices)

/-- The writer or a reader makes a memory access. -/
def Step (s t : State ι ε α) : Prop := ∃ choice answer, s.step key choice = some (t, answer)

/-- The states from an empty list on. -/
def Reachable : State ι ε α → Prop := Transition.Reachable (fun s => s = {}) (Step key)

theorem Reachable.run {s t : State ι ε α} {choices : List (Choice ι ε α)} (h : Reachable key s)
    (hrun : s.run key choices = some t) : Reachable key t := by
  induction choices generalizing s with
  | nil =>
    cases hrun
    exact h
  | cons choice choices ih =>
    obtain ⟨out, hstep, hrun⟩ := Option.bind_eq_some_iff.mp hrun
    exact ih (Transition.Reachable.next h ⟨choice, out.2, hstep⟩) hrun

def State.level (s : State ι ε α) (level : Nat) : List ε :=
  Links.follow (fun node => s.shared.next node level) s.linked.length none

end Steps
end SkipList
end ModernLevelDB
