import Mathlib.Tactic.TypeStar

/-! Errors and results of `base/result.h`. The source location of an error is left out: no modelled
function reads it. -/
namespace ModernLevelDB
set_option autoImplicit false

inductive ErrorCode where
  | notFound
  | corruption
  | invalidArgument
  | io
  | notSupported
  | busy
  | aborted
  deriving DecidableEq, Repr

structure Error where
  code : ErrorCode
  message : String
  deriving DecidableEq, Repr

namespace Error

def notFound (message : String) : Error := ⟨.notFound, message⟩
def corruption (message : String) : Error := ⟨.corruption, message⟩
def invalidArgument (message : String) : Error := ⟨.invalidArgument, message⟩
def io (message : String) : Error := ⟨.io, message⟩
def aborted (message : String) : Error := ⟨.aborted, message⟩

end Error

/-- A value or an error. -/
abbrev Result (α : Type*) := Except Error α

/-- Success or an error. -/
abbrev Status := Result Unit

theorem Result.bind_eq_ok {α β : Type*} {x : Result α} {f : α → Result β} {b : β} :
    x.bind f = .ok b ↔ ∃ a, x = .ok a ∧ f a = .ok b := by
  cases x with
  | error e => simp [Except.bind]
  | ok a => simp [Except.bind]

theorem Result.forM_eq_ok {α : Type*} {f : α → Status} {l : List α} :
    l.forM f = .ok () ↔ ∀ a ∈ l, f a = .ok () := by
  induction l with
  | nil => exact ⟨fun _ a ha => absurd ha List.not_mem_nil, fun _ => rfl⟩
  | cons a l ih =>
    rw [List.forall_mem_cons, ← ih]
    show (f a).bind (fun _ => l.forM f) = .ok () ↔ _
    rw [Result.bind_eq_ok]
    constructor
    · rintro ⟨_, ha, hl⟩
      exact ⟨ha, hl⟩
    · rintro ⟨ha, hl⟩
      exact ⟨(), ha, hl⟩

end ModernLevelDB
