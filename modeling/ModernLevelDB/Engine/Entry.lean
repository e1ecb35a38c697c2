import ModernLevelDB.Format.InternalKey
import ModernLevelDB.Lib.Newest

/-! # Entries, memtables and tables

A memtable (`memory/memtable.h`) and the contents of a table file are entries in the order of their
internal keys; inside a user key the newest entry comes first. A point search in either is a seek to
the lookup key and a look at the entry there. -/
namespace ModernLevelDB
set_option autoImplicit false

variable {K V : Type*}

/-- One entry. A deletion's value is empty and never read. -/
structure Entry (K V : Type*) where
  key : InternalKey K
  value : V
deriving DecidableEq, Repr

namespace Entry

def sequence (entry : Entry K V) : Nat := entry.key.sequence

/-- A reader of `user` at sequence `limit` may see the entry. -/
def Visible (user : K) (limit : Nat) (entry : Entry K V) : Prop :=
  entry.key.userKey = user ∧ entry.sequence ≤ limit

/-- What the entry shows a reader: a value, or absence for a deletion. -/
def view (entry : Entry K V) : Option V :=
  match entry.key.kind with
  | .value => some entry.value
  | .deletion => none

end Entry

/-- The entries of a table, in order. -/
structure Run (K V : Type*) [LinearOrder K] where
  entries : List (Entry K V)
  sorted : entries.Pairwise (fun a b => a.key ≤ b.key)

/-- The decision of one source: the value or the deletion of its newest visible entry, or nothing if
it has none. -/
inductive Decision (V : Type*) where
  | value (value : V)
  | deletion
  | missing
deriving DecidableEq, Repr

def Decision.ofEntry : Option (Entry K V) → Decision V
  | none => .missing
  | some entry =>
      match entry.key.kind with
      | .value => .value entry.value
      | .deletion => .deletion

namespace Run

variable [LinearOrder K]

def empty : Run K V := ⟨[], .nil⟩

instance : Membership (Entry K V) (Run K V) := ⟨fun run entry => entry ∈ run.entries⟩

instance decidableBAll (run : Run K V) (p : Entry K V → Prop) [DecidablePred p] :
    Decidable (∀ entry ∈ run, p entry) := List.decidableBAll p run.entries

instance decidableBEx (run : Run K V) (p : Entry K V → Prop) [DecidablePred p] :
    Decidable (∃ entry ∈ run, p entry) := List.decidableBEx p run.entries

variable {entry : Entry K V}

theorem mem_def {run : Run K V} : entry ∈ run ↔ entry ∈ run.entries := Iff.rfl

def contents (run : Run K V) : Set (Entry K V) := {entry | entry ∈ run}

@[simp] theorem not_mem_empty : entry ∉ (empty : Run K V) := by
  simp [mem_def, empty]

/-- The seek of a point read, and its check that it stopped at the user key. -/
def newest (run : Run K V) (user : K) (limit : Nat) : Option (Entry K V) :=
  (run.entries.find? (fun entry => InternalKey.lookupKey user limit ≤ entry.key)).filter
    (fun entry => entry.key.userKey = user)

/-- `MemTable::Lookup` and `Table::Get`. -/
def search (run : Run K V) (user : K) (limit : Nat) : Decision V :=
  .ofEntry (run.newest user limit)

theorem le_of_find? {entries : List (Entry K V)} (h : entries.Pairwise (fun a b => a.key ≤ b.key))
    {target : InternalKey K} {found : Entry K V}
    (hfound : entries.find? (fun entry => target ≤ entry.key) = some found) (hmem : entry ∈ entries)
    (htarget : target ≤ entry.key) : found.key ≤ entry.key := by
  obtain ⟨_, before, after, rfl, hbefore⟩ := List.find?_eq_some_iff_append.mp hfound
  rcases List.mem_append.mp hmem with hmem | hmem
  · simpa [htarget] using hbefore entry hmem
  · rcases List.mem_cons.mp hmem with rfl | hmem
    · exact le_rfl
    · exact List.rel_of_pairwise_cons (List.pairwise_append.mp h).2.1 hmem

theorem isNewest_newest (run : Run K V) (user : K) (limit : Nat) :
    Newest.IsNewest Entry.sequence (Entry.Visible user limit) run.contents
      (run.newest user limit) := by
  have hseek : ∀ entry : Entry K V, entry.Visible user limit →
      InternalKey.lookupKey user limit ≤ entry.key := by
    intro entry hv
    exact InternalKey.lookupKey_le_iff.mpr (.inr ⟨hv.1.symm, hv.2⟩)
  unfold newest
  cases hfound : run.entries.find? (fun entry => InternalKey.lookupKey user limit ≤ entry.key) with
  | none =>
    intro entry hmem hv
    have := List.find?_eq_none.mp hfound entry hmem
    simp [hseek entry hv] at this
  | some found =>
    have htarget : InternalKey.lookupKey user limit ≤ found.key := by
      simpa using List.find?_some hfound
    by_cases huser : found.key.userKey = user
    · rw [Option.filter_some_pos (by simpa using huser)]
      refine ⟨List.mem_of_find?_eq_some hfound, ⟨huser, ?_⟩, ?_⟩
      · rcases InternalKey.lookupKey_le_iff.mp htarget with h | ⟨_, h⟩
        · exact absurd huser h.ne'
        · exact h
      · intro entry hmem hv
        have hle := le_of_find? run.sorted hfound hmem (hseek entry hv)
        exact InternalKey.sequence_le_of_le hle (huser.trans hv.1.symm)
    · rw [Option.filter_some_neg (by simpa using huser)]
      intro entry hmem hv
      have hle := le_of_find? run.sorted hfound hmem (hseek entry hv)
      have huserLe : found.key.userKey ≤ user := hv.1 ▸ InternalKey.userKey_mono hle
      rcases InternalKey.lookupKey_le_iff.mp htarget with h | ⟨h, _⟩
      · exact absurd h huserLe.not_gt
      · exact huser h.symm

end Run
end ModernLevelDB
