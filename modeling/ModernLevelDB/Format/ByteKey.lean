import ModernLevelDB.Base.Coding
import ModernLevelDB.Format.InternalKey

/-! # Encoded internal keys (`format/internal_key.cc`)

An internal key is stored as its user key followed by the trailer in eight bytes. A user comparator
orders logical keys: `logical` gives the logical key of a byte string, in a linear order, and two
byte strings compare equal when it gives the same for both. -/
namespace ModernLevelDB
set_option autoImplicit false

abbrev ByteKey := InternalKey Bytes

namespace ByteKey

/-- `InternalKey::encoded`: the user key and the trailer in eight bytes. -/
def encoded (key : ByteKey) : Bytes := key.userKey ++ encodeFixed 8 key.trailer

def decode (encoded : Bytes) : Result ByteKey :=
  if encoded.length < 8 then
    .error (Error.corruption "internal key is shorter than its trailer")
  else
    let trailer := decodeFixed (encoded.drop (encoded.length - 8))
    let userKey := encoded.take (encoded.length - 8)
    if trailer % 256 = 0 then .ok ⟨userKey, trailer / 256, .deletion⟩
    else if trailer % 256 = 1 then .ok ⟨userKey, trailer / 256, .value⟩
    else .error (Error.corruption "internal key has an unknown value kind")

/-- What the encoding of a key takes for granted: its sequence has 56 bits and its length 32. -/
structure Storable (key : ByteKey) : Prop where
  sequence : key.sequence ≤ maxSequenceNumber
  length : key.userKey.length + 8 < 2 ^ 32

instance (key : ByteKey) : Decidable key.Storable :=
  decidable_of_iff (key.sequence ≤ maxSequenceNumber ∧ key.userKey.length + 8 < 2 ^ 32)
    ⟨fun h => ⟨h.1, h.2⟩, fun h => ⟨h.sequence, h.length⟩⟩

theorem decode_encoded {key : ByteKey} (h : key.Storable) :
    decode (encoded key) = .ok key := by
  have hseq : key.sequence < 2 ^ 56 := by
    have := h.sequence
    unfold maxSequenceNumber at this
    omega
  have hcode := key.kind.code_le
  have htrailer : key.trailer % 256 ^ 8 = key.trailer := by
    apply Nat.mod_eq_of_lt
    unfold InternalKey.trailer packInternalKeyTrailer
    omega
  have hlen : (encoded key).length - 8 = key.userKey.length := by
    simp [encoded]
  unfold decode
  rw [if_neg (by simp [encoded]), hlen]
  unfold encoded
  rw [List.drop_left' rfl, List.take_left' rfl, decodeFixed_encodeFixed, htrailer]
  unfold InternalKey.trailer packInternalKeyTrailer
  rcases key with ⟨userKey, sequence, kind⟩
  cases kind with
  | deletion =>
    have hmod : (sequence * 256 + ValueKind.deletion.code) % 256 = 0 := by
      simp only [ValueKind.code]
      omega
    have hdiv : (sequence * 256 + ValueKind.deletion.code) / 256 = sequence := by
      simp only [ValueKind.code]
      omega
    simp only [hmod, hdiv, if_true]
  | value =>
    have hmod : (sequence * 256 + ValueKind.value.code) % 256 = 1 := by
      simp only [ValueKind.code]
      omega
    have hdiv : (sequence * 256 + ValueKind.value.code) / 256 = sequence := by
      simp only [ValueKind.code]
      omega
    simp only [hmod, hdiv, if_true, one_ne_zero, if_false]

/-! ## The order of encoded keys -/

def userPart (encoded : Bytes) : Bytes := encoded.take (encoded.length - 8)

def trailerPart (encoded : Bytes) : Nat := decodeFixed (encoded.drop (encoded.length - 8))

def compareDescendingTrailers (left right : Bytes) : Ordering :=
  if trailerPart left > trailerPart right then .lt
  else if trailerPart left < trailerPart right then .gt
  else .eq

section Order

variable {K : Type*} [LinearOrder K] (logical : Bytes → K)

def encodedOrder (encoded : Bytes) : K ×ₗ ℕᵒᵈ :=
  toLex (logical (userPart encoded), OrderDual.toDual (trailerPart encoded))

def ordered (key : ByteKey) : InternalKey K := ⟨logical key.userKey, key.sequence, key.kind⟩

theorem userPart_append (user : Bytes) (trailer : Nat) :
    userPart (user ++ encodeFixed 8 trailer) = user := by
  simp [userPart]

theorem trailerPart_append (user : Bytes) (trailer : Nat) :
    trailerPart (user ++ encodeFixed 8 trailer) = trailer % 2 ^ 64 := by
  rw [trailerPart, List.length_append, length_encodeFixed, Nat.add_sub_cancel, List.drop_left' rfl,
    decodeFixed_encodeFixed]
  rfl

theorem trailer_mod {key : ByteKey} (h : key.sequence ≤ maxSequenceNumber) :
    key.trailer % 2 ^ 64 = key.trailer := by
  have hcode := key.kind.code_le
  apply Nat.mod_eq_of_lt
  unfold maxSequenceNumber at h
  unfold InternalKey.trailer packInternalKeyTrailer
  omega

omit [LinearOrder K] in
theorem encodedOrder_encoded {key : ByteKey} (h : key.sequence ≤ maxSequenceNumber) :
    encodedOrder logical key.encoded = (key.ordered logical).orderKey := by
  rw [encodedOrder, encoded, userPart_append, trailerPart_append, trailer_mod h]
  rfl

end Order

end ByteKey

/-! ## Lookup keys -/

/-- A seek target: the length-prefixed key, and where its internal key begins. -/
structure LookupKey where
  memtableKey : Bytes
  internalKeyOffset : Nat

namespace LookupKey

def createTrusted (userKey : Bytes) (sequence : Nat) : LookupKey :=
  let size := encodeVarint32 ((userKey.length + 8) % 2 ^ 32)
  ⟨size ++ ByteKey.encoded (InternalKey.lookupKey userKey sequence), size.length⟩

def create (userKey : Bytes) (sequence : Nat) : Result LookupKey :=
  if sequence > maxSequenceNumber then
    .error (Error.invalidArgument "lookup key sequence exceeds 56 bits")
  else .ok (createTrusted userKey sequence)

def internalKey (key : LookupKey) : Bytes := key.memtableKey.drop key.internalKeyOffset

def userKey (key : LookupKey) : Bytes := ByteKey.userPart key.internalKey

theorem internalKey_create {user : Bytes} {sequence : Nat} {key : LookupKey}
    (h : create user sequence = .ok key) :
    key.internalKey = ByteKey.encoded (InternalKey.lookupKey user sequence) ∧
      sequence ≤ maxSequenceNumber := by
  rw [create] at h
  split at h
  · cases h
  · next hle =>
    cases h
    exact ⟨List.drop_left, Nat.le_of_not_gt hle⟩

end LookupKey

end ModernLevelDB
