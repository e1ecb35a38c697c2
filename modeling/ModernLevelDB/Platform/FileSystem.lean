import ModernLevelDB.Base.Bytes
import ModernLevelDB.Base.Result
import Mathlib.Logic.Function.Basic

/-! # The file system (`platform/file_system.h`)

The files of the database directory and the operations on them, one at a time. Which operation fails
or throws is decided from outside: a world has an outcome for each operation of its run, so a theorem
over every world covers every failure at every place. A successful operation has its documented
effect; one that does not succeed may leave the directory in any state. -/
namespace ModernLevelDB
set_option autoImplicit false

/-- The names that the database uses in its directory (`metadata/filenames.h`). -/
inductive FileName where
  | log (number : Nat)
  | table (number : Nat)
  | descriptor (number : Nat)
  | temp (number : Nat)
  | current
  | lock
deriving DecidableEq, Repr

abbrev Disk := FileName → Option Bytes

/-- The operations that a file system may fail. -/
inductive FileOp where
  /-- Creates the file or empties it. -/
  | openWritable (name : FileName)
  | append (name : FileName) (data : Bytes)
  | flush (name : FileName)
  | sync (name : FileName)
  | close (name : FileName)
  | renameFile (source target : FileName)
  | syncDirectory
deriving DecidableEq

def FileOp.effect (disk : Disk) : FileOp → Disk
  | .openWritable name => Function.update disk name (some [])
  | .append name data => Function.update disk name ((disk name).map (· ++ data))
  | .renameFile source target =>
      Function.update (Function.update disk target (disk source)) source none
  | .flush _ | .sync _ | .close _ | .syncDirectory => disk

/-- What becomes of one; a failed one may leave any disk. -/
inductive OpOutcome where
  | succeeds
  | fails (error : Error) (disk : Disk)
  | throws (disk : Disk)

/-- `performed` lists the operations so far, and `outcomes` says what the next ones do. -/
structure World where
  disk : Disk
  performed : List FileOp := []
  outcomes : Nat → OpOutcome := fun _ => .succeeds

/-- How a call ends. -/
inductive Outcome (α : Type*) where
  | returned (value : α)
  | failed (error : Error)
  | threw

def FileM (α : Type) := World → Outcome α × World

instance : Monad FileM where
  pure a := fun w => (.returned a, w)
  bind x f := fun w =>
    match x w with
    | (.returned a, w') => f a w'
    | (.failed e, w') => (.failed e, w')
    | (.threw, w') => (.threw, w')

def perform (op : FileOp) : FileM Unit := fun w =>
  let performed := w.performed ++ [op]
  match w.outcomes w.performed.length with
  | .succeeds => (.returned (), { w with performed, disk := op.effect w.disk })
  | .fails error disk => (.failed error, { w with performed, disk })
  | .throws disk => (.threw, { w with performed, disk })

/-! ## Reading -/

/-- A file that is read front to back. The `k`-th read returns what is left, at most `sizes k` bytes
and at least one. -/
structure SequentialFile where
  rest : Bytes
  sizes : Nat → Nat
  reads : Nat := 0

def SequentialFile.read (file : SequentialFile) (limit : Nat) : Bytes × SequentialFile :=
  let count := min limit (max 1 (file.sizes file.reads))
  (file.rest.take count, { file with rest := file.rest.drop count, reads := file.reads + 1 })

/-- A read returns the next bytes of the file, and none only at its end. -/
theorem SequentialFile.read_eq (file : SequentialFile) {limit : Nat} (h : 0 < limit) :
    ∃ chunk file', file.read limit = (chunk, file') ∧ file.rest = chunk ++ file'.rest ∧
      chunk.length ≤ limit ∧ (chunk = [] → file'.rest = []) := by
  refine ⟨_, _, rfl, (List.take_append_drop _ _).symm, ?_, fun hend => ?_⟩
  · exact Nat.le_trans (List.length_take_le _ _) (Nat.min_le_left _ _)
  · rcases List.take_eq_nil_iff.mp hend with hzero | hrest
    · omega
    · dsimp only
      rw [hrest, List.drop_nil]

/-- What the platform decides about reads: how much one returns, and the text of the error for a file
that is missing. -/
structure ReadPolicy where
  sizes : FileName → Nat → Nat
  missing : FileName → String

def openSequential (policy : ReadPolicy) (disk : Disk) (name : FileName) : Result SequentialFile :=
  match disk name with
  | some contents => .ok { rest := contents, sizes := policy.sizes name }
  | none => .error (Error.notFound (policy.missing name))

/-! ## Calls that succeed -/

namespace FileM

variable {α β : Type} {w w' : World}

theorem bind_returned {x : FileM α} {f : α → FileM β} {b : β}
    (h : (x >>= f) w = (.returned b, w')) :
    ∃ a w₁, x w = (.returned a, w₁) ∧ f a w₁ = (.returned b, w') := by
  change (match x w with
    | (.returned a, w₁) => f a w₁
    | (.failed e, w₁) => (.failed e, w₁)
    | (.threw, w₁) => (.threw, w₁)) = _ at h
  rcases hx : x w with ⟨a | e | _, w₁⟩
  · rw [hx] at h
    exact ⟨a, w₁, rfl, h⟩
  · rw [hx] at h
    cases h
  · rw [hx] at h
    cases h

theorem pure_returned {a b : α} (h : (pure a : FileM α) w = (.returned b, w')) : b = a ∧ w' = w := by
  cases h
  exact ⟨rfl, rfl⟩

end FileM

theorem perform_returned {op : FileOp} {u : Unit} {w w' : World}
    (h : perform op w = (.returned u, w')) : w'.disk = op.effect w.disk := by
  unfold perform at h
  dsimp only at h
  split at h
  · cases h
    rfl
  · cases h
  · cases h

/-! ## Operations that all succeed -/

/-- No operation fails. -/
def World.Reliable (w : World) : Prop := ∀ k, w.outcomes k = .succeeds

/-- Returns a value in every reliable world. -/
def FileM.Returns {α : Type} (x : FileM α) : Prop :=
  ∀ w : World, w.Reliable → ∃ a w', x w = (.returned a, w') ∧ w'.Reliable

namespace FileM

theorem returns_pure {α : Type} (a : α) : (pure a : FileM α).Returns := fun _ h => ⟨a, _, rfl, h⟩

theorem returns_perform (op : FileOp) : (perform op).Returns := by
  intro w h
  unfold perform
  rw [h]
  exact ⟨(), _, rfl, h⟩

theorem Returns.bind {α β : Type} {x : FileM α} {f : α → FileM β} (hx : x.Returns)
    (hf : ∀ a, (f a).Returns) : (x >>= f).Returns := by
  intro w h
  obtain ⟨a, w₁, hxa, h₁⟩ := hx w h
  obtain ⟨b, w', hfb, h'⟩ := hf a w₁ h₁
  refine ⟨b, w', ?_, h'⟩
  change (match x w with
    | (.returned a, w₁) => f a w₁
    | (.failed e, w₁) => (.failed e, w₁)
    | (.threw, w₁) => (.threw, w₁)) = _
  rw [hxa]
  exact hfb

end FileM

theorem effect_append_append (disk : Disk) (name : FileName) (a b : Bytes) :
    (FileOp.append name b).effect ((FileOp.append name a).effect disk) =
      (FileOp.append name (a ++ b)).effect disk := by
  simp only [FileOp.effect, Function.update_self, Function.update_idem, Option.map_map]
  congr 2
  funext data
  simp

theorem effect_append_nil (disk : Disk) (name : FileName) :
    (FileOp.append name []).effect disk = disk := by
  simp [FileOp.effect]

end ModernLevelDB
