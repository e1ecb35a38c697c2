import ModernLevelDB.Base.Hash
import ModernLevelDB.Table.Block

/-! # The loops over varints

`Coding` reads varints by one recursive function that adds groups of seven bits. The source has four
loops: one that checks every byte of a view, one behind a pointer that checks nothing, one between two
pointers of a block, which `Block` has, and one byte each for three small lengths. The first two are
written here as in the source, with its masks, shifts and indices, and each loop is tied to that
function. -/
namespace ModernLevelDB
set_option autoImplicit false

namespace VarintLoops

/-! ## Encoding -/

def varintLengthTrusted (value : Nat) : Nat :=
  if value < 0x80 then 1 else varintLengthTrusted (value >>> 7) + 1
termination_by value
decreasing_by
  rw [Nat.shiftRight_eq_div_pow]
  omega

def encodeVarintTrusted (value : Nat) : Bytes :=
  if value < 0x80 then [byteOf value]
  else byteOf (value &&& 0x7f ||| 0x80) :: encodeVarintTrusted (value >>> 7)
termination_by value
decreasing_by
  rw [Nat.shiftRight_eq_div_pow]
  omega

/-! ## Decoding a view -/

def maxBytes (bits : Nat) : Nat := (bits + 7 - 1) / 7

def readVarintByte (input : Bytes) (index : Nat) : Result Nat :=
  match input[index]? with
  | none => .error (Error.corruption "truncated varint")
  | some b => .ok b.toNat

/-- The loop of `ConsumeVarint` with the rounds that are left, and the view that it leaves behind. -/
def consumeVarintLoop (bits : Nat) (input : Bytes) : (left index value : Nat) → Result Nat × Bytes
  | 0, _, _ => (.error (Error.corruption "invalid varint"), input)
  | left + 1, index, value =>
      match readVarintByte input index with
      | .error error => (.error error, input)
      | .ok byte =>
          let value := foldVarintPayload bits value (byte &&& 0x7f) (index * 7)
          if byte &&& 0x80 = 0 then (.ok value, input.drop (index + 1))
          else if index + 1 = maxBytes bits then (.error (Error.corruption "varint overflow"), input)
          else consumeVarintLoop bits input left (index + 1) value

def consumeVarint (bits : Nat) (input : Bytes) : Result Nat × Bytes :=
  consumeVarintLoop bits input (maxBytes bits) 0 0

/-! ## Decoding behind a pointer -/

def consumeVarintTrusted (bits : Nat) : (shift value : Nat) → Bytes → Option (Nat × Bytes)
  | _, _, [] => none
  | shift, value, b :: input =>
      let value := foldVarintPayload bits value (b.toNat &&& 0x7f) shift
      if b.toNat &&& 0x80 = 0 then some (value, input)
      else consumeVarintTrusted bits (shift + 7) value input

/-! ## Masks and shifts -/

theorem foldVarintPayload_eq {bits value shift : Nat} (payload : Nat) (hvalue : value < 2 ^ shift)
    (hshift : shift ≤ bits) :
    foldVarintPayload bits value payload shift = (value + payload * 2 ^ shift) % 2 ^ bits := by
  obtain ⟨more, rfl⟩ := Nat.exists_eq_add_of_le hshift
  have hpos := Nat.two_pow_pos shift
  have hpayload : payload <<< shift % 2 ^ (shift + more) = (payload % 2 ^ more) <<< shift := by
    rw [Nat.shiftLeft_eq, Nat.shiftLeft_eq, pow_add, Nat.mul_comm (2 ^ shift),
      Nat.mul_mod_mul_right]
  rw [foldVarintPayload, hpayload, or_shiftLeft hvalue, pow_add, Nat.mod_mul,
    Nat.add_mul_mod_self_right, Nat.mod_eq_of_lt hvalue, Nat.add_mul_div_right _ _ hpos,
    Nat.div_eq_of_lt hvalue, Nat.zero_add, Nat.mul_comm (2 ^ shift)]

theorem and_low (n : Nat) : n &&& 0x7f = n % 128 := Nat.and_two_pow_sub_one_eq_mod n 7

theorem and_high (b : UInt8) : b.toNat &&& 0x80 = 0 ↔ b.toNat < 128 := by
  have hall : ∀ n < 256, (n &&& 0x80 = 0 ↔ n < 128) := by decide +kernel
  exact hall _ b.toNat_lt

theorem or_high (n : Nat) : n &&& 0x7f ||| 0x80 = n % 128 + 128 := by
  rw [and_low]
  exact or_shiftLeft (show n % 128 < 2 ^ 7 from Nat.mod_lt n (by decide)) 1

theorem fold_byte {bits value shift : Nat} (b : UInt8) (hvalue : value < 2 ^ shift)
    (hshift : shift ≤ bits) :
    foldVarintPayload bits value (b.toNat &&& 0x7f) shift =
      (value + b.toNat % 128 * 2 ^ shift) % 2 ^ bits := by
  rw [and_low, foldVarintPayload_eq _ hvalue hshift]

theorem fold_lt {value shift : Nat} (bits : Nat) (b : UInt8) (hvalue : value < 2 ^ shift) :
    (value + b.toNat % 128 * 2 ^ shift) % 2 ^ bits < 2 ^ (shift + 7) := by
  refine lt_of_le_of_lt (Nat.mod_le _ _) ?_
  have hgroup : b.toNat % 128 ≤ 127 := Nat.le_of_lt_succ (Nat.mod_lt _ (by decide))
  have hle := Nat.mul_le_mul_right (2 ^ shift) hgroup
  rw [pow_add]
  omega

/-! ## Each loop reads as the recursive reader -/

theorem encodeVarintTrusted_eq : ∀ {fuel value : Nat}, value < 128 ^ (fuel + 1) →
    encodeVarintTrusted value = encodeVarint fuel value ∧
      varintLengthTrusted value = varintLengthFrom fuel value := by
  intro fuel
  induction fuel with
  | zero =>
    intro value hvalue
    rw [encodeVarintTrusted, varintLengthTrusted, if_pos (by simpa using hvalue),
      if_pos (by simpa using hvalue)]
    exact ⟨rfl, rfl⟩
  | succ fuel ih =>
    intro value hvalue
    rw [encodeVarintTrusted, varintLengthTrusted, encodeVarint, varintLengthFrom, or_high,
      Nat.shiftRight_eq_div_pow]
    obtain ⟨hword, hlength⟩ := @ih (value / 2 ^ 7) (by rw [pow_succ] at hvalue; omega)
    rw [hword, hlength]
    exact ⟨rfl, rfl⟩

/-- A decoder that failed leaves its view as it was. -/
def settle (input : Bytes) : Result (Nat × Bytes) → Result Nat × Bytes
  | .ok (value, rest) => (.ok value, rest)
  | .error error => (.error error, input)

theorem drop_of_read {input : Bytes} {index : Nat} {byte : Nat}
    (h : readVarintByte input index = .ok byte) :
    ∃ b : UInt8, b.toNat = byte ∧ input.drop index = b :: input.drop (index + 1) := by
  rw [readVarintByte] at h
  rcases Nat.lt_or_ge index input.length with hin | hout
  · rw [List.getElem?_eq_getElem hin] at h
    exact ⟨input[index], Except.ok.inj h, List.drop_eq_getElem_cons hin⟩
  · rw [List.getElem?_eq_none hout] at h
    cases h

theorem drop_of_truncated {input : Bytes} {index : Nat} {error : Error}
    (h : readVarintByte input index = .error error) :
    input.drop index = [] ∧ error = Error.corruption "truncated varint" := by
  rw [readVarintByte] at h
  rcases Nat.lt_or_ge index input.length with hin | hout
  · rw [List.getElem?_eq_getElem hin] at h
    cases h
  · rw [List.getElem?_eq_none hout] at h
    exact ⟨List.drop_eq_nil_of_le hout, (Except.error.inj h).symm⟩

theorem consumeVarintLoop_eq {bits : Nat} (input : Bytes) {left index value : Nat}
    (hrounds : index + left + 1 = maxBytes bits) (hvalue : value < 2 ^ (index * 7)) :
    consumeVarintLoop bits input (left + 1) index value =
      settle input (consumeVarintFrom bits left (index * 7) value (input.drop index)) := by
  have hshift : index * 7 ≤ bits := by
    rw [maxBytes] at hrounds
    omega
  rw [consumeVarintLoop]
  cases hread : readVarintByte input index with
  | error error =>
    obtain ⟨hdrop, rfl⟩ := drop_of_truncated hread
    rw [hdrop, consumeVarintFrom]
    rfl
  | ok byte =>
    obtain ⟨b, rfl, hdrop⟩ := drop_of_read hread
    dsimp only
    rw [hdrop, fold_byte b hvalue hshift]
    by_cases hlast : b.toNat < 128
    · rw [if_pos ((and_high b).mpr hlast), consumeVarintFrom_last _ _ _ _ _ hlast]
      rfl
    · rw [if_neg (mt (and_high b).mp hlast)]
      cases left with
      | zero =>
        rw [if_pos (by omega), consumeVarintFrom, if_neg hlast]
        rfl
      | succ left =>
        have hnext := fold_lt bits b hvalue
        rw [← Nat.succ_mul] at hnext
        rw [if_neg (by omega), consumeVarintLoop_eq input (by omega) hnext, consumeVarintFrom,
          if_neg hlast, Nat.succ_mul]

theorem consumeVarint_eq {bits : Nat} (hbits : 0 < bits) (input : Bytes) :
    consumeVarint bits input =
      settle input (consumeVarintFrom bits (maxBytes bits - 1) 0 0 input) := by
  have hrounds : maxBytes bits = maxBytes bits - 1 + 1 := by
    rw [maxBytes]
    omega
  rw [consumeVarint, hrounds, consumeVarintLoop_eq input (by omega) (by decide)]
  rfl

theorem consumeVarintTrusted_eq {bits : Nat} {out : Nat × Bytes} : ∀ {fuel shift value : Nat}
    {input : Bytes}, shift + 7 * fuel ≤ bits → value < 2 ^ shift →
      consumeVarintFrom bits fuel shift value input = .ok out →
        consumeVarintTrusted bits shift value input = some out := by
  intro fuel shift value input hfuel hvalue h
  cases input with
  | nil => cases fuel <;> cases h
  | cons b input =>
    rw [consumeVarintTrusted, fold_byte b hvalue (by omega)]
    by_cases hlast : b.toNat < 128
    · rw [consumeVarintFrom_last _ _ _ _ _ hlast] at h
      rw [if_pos ((and_high b).mpr hlast)]
      exact congrArg some (Except.ok.inj h)
    · rw [if_neg (mt (and_high b).mp hlast)]
      cases fuel with
      | zero =>
        rw [consumeVarintFrom, if_neg hlast] at h
        cases h
      | succ fuel =>
        rw [consumeVarintFrom, if_neg hlast] at h
        exact consumeVarintTrusted_eq (by omega) (fold_lt bits b hvalue) h

theorem decodeVarint32Fallback_eq {input : Bytes} : ∀ {left index value : Nat},
    index + left + 1 = 5 → value < 2 ^ (index * 7) →
      decodeVarint32Fallback (left + 1) index value input =
        (consumeVarintFrom 32 left (index * 7) value input).toOption := by
  intro left index value hrounds hvalue
  cases input with
  | nil => cases left <;> rfl
  | cons b input =>
    rw [decodeVarint32Fallback, fold_byte b hvalue (by omega)]
    by_cases hlast : b.toNat < 128
    · rw [if_pos ((and_high b).mpr hlast), consumeVarintFrom_last _ _ _ _ _ hlast]
      rfl
    · rw [if_neg (mt (and_high b).mp hlast)]
      cases left with
      | zero =>
        rw [consumeVarintFrom, if_neg hlast]
        rfl
      | succ left =>
        have hnext := fold_lt 32 b hvalue
        rw [← Nat.succ_mul] at hnext
        rw [decodeVarint32Fallback_eq (by omega) hnext, consumeVarintFrom, if_neg hlast,
          Nat.succ_mul]

theorem decodeVarint32_eq (input : Bytes) : decodeVarint32 input = (consumeVarint32 input).toOption := by
  cases input with
  | nil => rfl
  | cons b input =>
    rw [decodeVarint32]
    split
    · next hlast =>
      rw [consumeVarint32, consumeVarintFrom_last _ _ _ _ _ hlast]
      have hvalue : (0 + b.toNat % 128 * 2 ^ 0) % 2 ^ 32 = b.toNat := by omega
      rw [hvalue]
      rfl
    · exact decodeVarint32Fallback_eq rfl (by decide)

/-! ## Entries -/

def checked (input : Bytes) : Option (Nat × Bytes) :=
  match consumeVarint 32 input with
  | (.ok value, rest) => some (value, rest)
  | (.error _, _) => none

def decodeEntryGeneral (input : Bytes) : Option (EntryHeader × Bytes) := do
  let (shared, input) ← checked input
  let (nonShared, input) ← checked input
  let (valueSize, input) ← checked input
  if hasEntryPayload input ⟨shared, nonShared, valueSize⟩ then
    some (⟨shared, nonShared, valueSize⟩, input)
  else none

theorem checked_eq (input : Bytes) : checked input = (consumeVarint32 input).toOption := by
  have hconsume := consumeVarint_eq (show 0 < 32 by decide) input
  rw [show maxBytes 32 - 1 = 4 from rfl, ← consumeVarint32] at hconsume
  rw [checked, hconsume]
  cases consumeVarint32 input <;> rfl

theorem decodeVarint32_eq_checked : decodeVarint32 = checked := by
  funext input
  rw [decodeVarint32_eq, checked_eq]

theorem checked_of_small {b : UInt8} (h : b.toNat < 128) (input : Bytes) :
    checked (b :: input) = some (b.toNat, input) := by
  rw [← decodeVarint32_eq_checked, decodeVarint32, if_pos h]

theorem length_of_checked {input rest : Bytes} {value : Nat}
    (h : checked input = some (value, rest)) : rest.length < input.length := by
  rw [checked_eq] at h
  cases hconsume : consumeVarint32 input with
  | error error =>
    rw [hconsume] at h
    cases h
  | ok out =>
    rw [hconsume] at h
    cases h
    exact consumeVarintFrom_length_lt hconsume

theorem decodeEntryGeneral_of_short {input : Bytes} (h : input.length < 3) :
    decodeEntryGeneral input = none := by
  rw [decodeEntryGeneral]
  cases ha : checked input with
  | none => rfl
  | some a =>
    have hlength := length_of_checked ha
    cases hb : checked a.2 with
    | none => simp only [Option.bind_eq_bind, Option.bind_some, hb, Option.bind_none]
    | some b =>
      have hlength' := length_of_checked hb
      have hc : checked b.2 = none := by
        cases hc : checked b.2 with
        | none => rfl
        | some c => exact absurd (length_of_checked hc) (by omega)
      simp only [Option.bind_eq_bind, Option.bind_some, hb, hc, Option.bind_none]

theorem or_lt_iff {a b c : UInt8} :
    (a ||| b ||| c).toNat < 128 ↔ a.toNat < 128 ∧ b.toNat < 128 ∧ c.toNat < 128 := by
  rw [UInt8.toNat_or, UInt8.toNat_or]
  constructor
  · intro h
    have hab : a.toNat ||| b.toNat ≤ (a.toNat ||| b.toNat) ||| c.toNat := Nat.left_le_or
    have hc : c.toNat ≤ (a.toNat ||| b.toNat) ||| c.toNat := Nat.right_le_or
    have ha : a.toNat ≤ a.toNat ||| b.toNat := Nat.left_le_or
    have hb : b.toNat ≤ a.toNat ||| b.toNat := Nat.right_le_or
    omega
  · rintro ⟨ha, hb, hc⟩
    exact Nat.or_lt_two_pow (n := 7) (Nat.or_lt_two_pow ha hb) hc

theorem decodeEntry_eq (input : Bytes) : decodeEntry input = decodeEntryGeneral input := by
  match input with
  | [] | [_] | [_, _] => exact (decodeEntryGeneral_of_short (by simp)).symm
  | a :: b :: c :: rest =>
    rw [decodeEntry, if_neg (by simp), decodeEntryHeader, decodeEntryGeneral]
    simp only [List.getD_cons_zero, List.getD_cons_succ]
    split
    · next hsmall =>
      obtain ⟨ha, hb, hc⟩ := or_lt_iff.mp hsmall
      simp only [Option.bind_eq_bind, Option.bind_some, checked_of_small ha, checked_of_small hb,
        checked_of_small hc]
      rfl
    · rw [decodeVarint32_eq_checked]
      simp only [Option.bind_eq_bind, Option.bind_assoc]
      rfl

/-! ## All decoders -/

theorem consumeVarint_encode {bits value : Nat} (hbits : 0 < bits) (hvalue : value < 2 ^ bits)
    (rest : Bytes) :
    consumeVarint bits (encodeVarintTrusted value ++ rest) = (.ok value, rest) ∧
      (encodeVarintTrusted value).length = varintLengthTrusted value := by
  have hgroups : 2 ^ bits ≤ 128 ^ (maxBytes bits - 1 + 1) := by
    rw [show 128 = 2 ^ 7 from rfl, ← pow_mul]
    refine Nat.pow_le_pow_right (by decide) ?_
    rw [maxBytes]
    omega
  obtain ⟨hword, hlength⟩ := encodeVarintTrusted_eq (lt_of_lt_of_le hvalue hgroups)
  have hconsume := consumeVarintFrom_encodeVarint bits rest (maxBytes bits - 1) value 0 0
    (lt_of_lt_of_le hvalue hgroups) (by omega)
  rw [Nat.pow_zero, Nat.mul_one, Nat.zero_add] at hconsume
  rw [hlength, hword, consumeVarint_eq hbits, hconsume, length_encodeVarint]
  exact ⟨rfl, rfl⟩

theorem settle_eq_ok {input rest : Bytes} {value : Nat} {result : Result (Nat × Bytes)} :
    settle input result = (.ok value, rest) ↔ result = .ok (value, rest) := by
  cases result with
  | error error => exact ⟨fun h => (nomatch h), fun h => (nomatch h)⟩
  | ok out =>
    constructor
    · intro h
      cases h
      rfl
    · intro h
      cases h
      rfl

theorem consumeVarintTrusted_of_checked {bits value : Nat} {input rest : Bytes} (hbits : 0 < bits)
    (h : consumeVarint bits input = (.ok value, rest)) :
    consumeVarintTrusted bits 0 0 input = some (value, rest) := by
  rw [consumeVarint_eq hbits, settle_eq_ok] at h
  refine consumeVarintTrusted_eq ?_ (by decide) h
  rw [maxBytes]
  omega

theorem consumeVarint_of_error {bits : Nat} {input rest : Bytes} {error : Error} (hbits : 0 < bits)
    (h : consumeVarint bits input = (.error error, rest)) : rest = input := by
  rw [consumeVarint_eq hbits] at h
  cases hresult : consumeVarintFrom bits (maxBytes bits - 1) 0 0 input with
  | error error =>
    rw [hresult] at h
    cases h
    rfl
  | ok out =>
    rw [hresult] at h
    cases h

theorem checked_eq_some {input rest : Bytes} {value : Nat} :
    checked input = some (value, rest) ↔ consumeVarint 32 input = (.ok value, rest) := by
  rw [checked]
  rcases consumeVarint 32 input with ⟨_ | v, view⟩
  · exact ⟨fun h => (nomatch h), fun h => (nomatch h)⟩
  · simp only [Option.some.injEq, Prod.mk.injEq, Except.ok.injEq]

/-- For a result of any width: what is encoded is read back, the loops agree on every input that the
checked one accepts, and that one leaves its view alone when it fails. The loop of blocks succeeds on
the same inputs as the checked one, and an entry of three small lengths is read as any other. -/
theorem varint_decoders_agree {bits : Nat} (hbits : 0 < bits) :
    (∀ value < 2 ^ bits, ∀ rest : Bytes,
      consumeVarint bits (encodeVarintTrusted value ++ rest) = (.ok value, rest) ∧
        (encodeVarintTrusted value).length = varintLengthTrusted value) ∧
    (∀ (input : Bytes) (value : Nat) (rest : Bytes), consumeVarint bits input = (.ok value, rest) →
      consumeVarintTrusted bits 0 0 input = some (value, rest)) ∧
    (∀ (input : Bytes) (error : Error) (rest : Bytes),
      consumeVarint bits input = (.error error, rest) → rest = input) ∧
    (∀ (input : Bytes) (value : Nat) (rest : Bytes), decodeVarint32 input = some (value, rest) ↔
      consumeVarint 32 input = (.ok value, rest)) ∧
    ∀ input : Bytes, decodeEntry input = decodeEntryGeneral input := by
  refine ⟨fun value hvalue rest => consumeVarint_encode hbits hvalue rest,
    fun input value rest h => consumeVarintTrusted_of_checked hbits h,
    fun input error rest h => consumeVarint_of_error hbits h, fun input value rest => ?_,
    decodeEntry_eq⟩
  rw [decodeVarint32_eq_checked, checked_eq_some]

theorem varint_decoders_agree_300 :
    consumeVarint 64 (encodeVarintTrusted 300 ++ [7]) = (.ok 300, [7]) ∧
      consumeVarintTrusted 32 0 0 [0xac, 0x02, 7] = some (300, [7]) :=
  ⟨((varint_decoders_agree (show 0 < 64 by decide)).1 300 (by decide) [7]).1,
    (varint_decoders_agree (show 0 < 32 by decide)).2.1 [0xac, 0x02, 7] 300 [7] (by decide)⟩

end VarintLoops
end ModernLevelDB
