import Mathlib.Tactic.TypeStar

/-! Byte strings (`base/bytes.h`). A `std::string` of the source is a byte string as well; where one
becomes part of a message, `asString` shows each byte as one character. -/
namespace ModernLevelDB
set_option autoImplicit false

abbrev Bytes := List UInt8

def asString (bytes : Bytes) : String :=
  String.ofList (bytes.map (fun b => Char.ofNat b.toNat))

def sharedPrefixLength : Bytes → Bytes → Nat
  | a :: left, b :: right => if a = b then sharedPrefixLength left right + 1 else 0
  | _, _ => 0

theorem sharedPrefixLength_spec (left right : Bytes) :
    sharedPrefixLength left right ≤ left.length ∧ sharedPrefixLength left right ≤ right.length ∧
      left.take (sharedPrefixLength left right) = right.take (sharedPrefixLength left right) := by
  induction left generalizing right with
  | nil => exact ⟨Nat.le_refl 0, Nat.zero_le _, rfl⟩
  | cons a left ih =>
    cases right with
    | nil => exact ⟨Nat.zero_le _, Nat.le_refl 0, rfl⟩
    | cons b right =>
      rw [sharedPrefixLength]
      split
      · next heq =>
        obtain ⟨hleft, hright, htake⟩ := ih right
        refine ⟨Nat.succ_le_succ hleft, Nat.succ_le_succ hright, ?_⟩
        rw [List.take_succ_cons, List.take_succ_cons, heq, htake]
      · exact ⟨Nat.zero_le _, Nat.zero_le _, rfl⟩

end ModernLevelDB
