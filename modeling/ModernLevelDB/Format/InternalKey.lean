import Mathlib

/-! # Internal keys (`format/internal_key.h`)

A stored entry is named by its user key, its sequence and its kind. The order puts user keys
ascending and, for one user key, the trailer `(sequence << 8) | kind` descending, so that a seek to
`(u, s)` lands on the newest entry of `u` that a reader at sequence `s` may see.

`internalCompare` is `InternalKeyComparator::Compare` over any user comparator. A user comparator
orders logical keys totally; where only that order matters a key is its logical key, in a linear
order, and the internal keys then form a linear order as well. -/
namespace ModernLevelDB
set_option autoImplicit false

inductive ValueKind where
  | deletion
  | value
deriving DecidableEq, Repr

def ValueKind.code : ValueKind → Nat
  | .deletion => 0
  | .value => 1

/-- The kind in the trailer of a seek target: no kind of the same sequence sorts before it. -/
def seekValueKind : ValueKind := .value

def maxSequenceNumber : Nat := 2 ^ 56 - 1

def packInternalKeyTrailer (sequence : Nat) (kind : ValueKind) : Nat := sequence * 256 + kind.code

theorem ValueKind.code_le (kind : ValueKind) : kind.code ≤ 1 := by
  cases kind <;> decide

theorem packInternalKeyTrailer_inj {s t : Nat} {k l : ValueKind}
    (h : packInternalKeyTrailer s k = packInternalKeyTrailer t l) : s = t ∧ k = l := by
  have hk := k.code_le
  have hl := l.code_le
  unfold packInternalKeyTrailer at h
  have hs : s = t := by omega
  refine ⟨hs, ?_⟩
  have hc : k.code = l.code := by omega
  revert hc
  cases k <;> cases l <;> decide

/-- `InternalKey`, over any type of user keys. -/
structure InternalKey (K : Type*) where
  userKey : K
  sequence : Nat
  kind : ValueKind
deriving DecidableEq, Repr

namespace InternalKey

variable {K : Type*}

def trailer (key : InternalKey K) : Nat := packInternalKeyTrailer key.sequence key.kind

def internalCompare (cmp : K → K → Ordering) (left right : InternalKey K) : Ordering :=
  (cmp left.userKey right.userKey).then (compare right.trailer left.trailer)

theorem transCmp_on {α : Type*} (cmp : K → K → Ordering) [h : Std.TransCmp cmp] (f : α → K) :
    Std.TransCmp (fun a b => cmp (f a) (f b)) where
  eq_swap := h.eq_swap
  isLE_trans := h.isLE_trans

theorem transCmp_then {α : Type*} (cmp : K → K → Ordering) [Std.TransCmp cmp] (user : α → K)
    (trailer : α → Nat) :
    Std.TransCmp (fun a b => (cmp (user a) (user b)).then (compare (trailer b) (trailer a))) :=
  have := transCmp_on cmp user
  have := transCmp_on compare trailer
  inferInstanceAs (Std.TransCmp (compareLex (fun a b => cmp (user a) (user b))
    (fun a b => compare (trailer b) (trailer a))))

instance transCmp_internalCompare (cmp : K → K → Ordering) [Std.TransCmp cmp] :
    Std.TransCmp (internalCompare cmp) := transCmp_then cmp userKey InternalKey.trailer

/-! ## The linear order on logical keys -/

def orderKey (key : InternalKey K) : K ×ₗ ℕᵒᵈ := toLex (key.userKey, OrderDual.toDual key.trailer)

theorem orderKey_injective : Function.Injective (orderKey (K := K)) := by
  intro a b h
  have hpair := toLex.injective h
  have huser : a.userKey = b.userKey := congrArg Prod.fst hpair
  have htrailer : a.trailer = b.trailer := OrderDual.toDual.injective (congrArg Prod.snd hpair)
  obtain ⟨hs, hk⟩ := packInternalKeyTrailer_inj htrailer
  cases a
  cases b
  simp_all

variable [LinearOrder K]

instance : LinearOrder (InternalKey K) := LinearOrder.lift' orderKey orderKey_injective

variable {a b : InternalKey K}

theorem lt_iff : a < b ↔ a.userKey < b.userKey ∨ a.userKey = b.userKey ∧ b.trailer < a.trailer := by
  show orderKey a < orderKey b ↔ _
  rw [Prod.Lex.lt_iff]
  exact Iff.rfl

theorem le_iff : a ≤ b ↔ a.userKey < b.userKey ∨ a.userKey = b.userKey ∧ b.trailer ≤ a.trailer := by
  show orderKey a ≤ orderKey b ↔ _
  rw [Prod.Lex.le_iff]
  exact Iff.rfl

theorem userKey_mono (h : a ≤ b) : a.userKey ≤ b.userKey := by
  rcases le_iff.mp h with h | ⟨h, _⟩
  · exact h.le
  · exact h.le

/-- The seek target of a read of `user` at `sequence` (`LookupKey::internal_key`). -/
def lookupKey (user : K) (sequence : Nat) : InternalKey K := ⟨user, sequence, seekValueKind⟩

omit [LinearOrder K] in
@[simp] theorem lookupKey_userKey (user : K) (sequence : Nat) :
    (lookupKey user sequence).userKey = user := rfl

/-- What a seek to a lookup key passes over: the entries of smaller user keys and those of the same
user key that the reader may not see. -/
theorem lookupKey_le_iff {user : K} {sequence : Nat} {key : InternalKey K} :
    lookupKey user sequence ≤ key ↔
      user < key.userKey ∨ user = key.userKey ∧ key.sequence ≤ sequence := by
  rw [le_iff]
  have hk := key.kind.code_le
  have htrailer : key.trailer ≤ (lookupKey user sequence).trailer ↔ key.sequence ≤ sequence := by
    have hseek : (lookupKey user sequence).trailer = sequence * 256 + 1 := rfl
    have hkey : key.trailer = key.sequence * 256 + key.kind.code := rfl
    omega
  rw [htrailer]
  exact Iff.rfl

theorem sequence_le_of_le (h : a ≤ b) (hu : a.userKey = b.userKey) : b.sequence ≤ a.sequence := by
  rcases le_iff.mp h with hlt | ⟨_, ht⟩
  · exact absurd hu hlt.ne
  · have ha := a.kind.code_le
    have hb := b.kind.code_le
    simp only [trailer, packInternalKeyTrailer] at ht
    omega

theorem lt_of_sequence_lt (hu : a.userKey = b.userKey) (hs : b.sequence < a.sequence) : a < b := by
  refine lt_iff.mpr (.inr ⟨hu, ?_⟩)
  have hb := b.kind.code_le
  simp only [trailer, packInternalKeyTrailer]
  omega

end InternalKey
end ModernLevelDB
