import ModernLevelDB.Base.Bytes
import ModernLevelDB.Base.Result
import Mathlib.Tactic.Ring

/-! # Integer and string encodings (`base/coding.h`)

Little-endian fixed-width integers, base-128 varints and length-prefixed strings. A consumer returns
its value with the input that is left; it fails with the source's message. The last section says that
each consumer gives back what the matching encoder wrote, in front of any further bytes. -/
namespace ModernLevelDB
set_option autoImplicit false

def byteOf (n : Nat) : UInt8 := UInt8.ofNat n

def ascii (text : String) : Bytes := text.toList.map (fun c => byteOf c.toNat)

@[simp] theorem toNat_byteOf (n : Nat) : (byteOf n).toNat = n % 256 := by
  simp [byteOf]

/-! ## Fixed width -/

/-- `EncodeFixed`: the low `width` bytes of a value, the lowest first. -/
def encodeFixed : (width : Nat) → Nat → Bytes
  | 0, _ => []
  | width + 1, value => byteOf value :: encodeFixed width (value / 256)

def decodeFixed : Bytes → Nat
  | [] => 0
  | b :: rest => b.toNat + 256 * decodeFixed rest

/-! ## Varints -/

/-- The loop of `EncodeVarintTrusted`; `fuel` bounds the bytes after the first one. -/
def encodeVarint : (fuel : Nat) → Nat → Bytes
  | 0, value => [byteOf value]
  | fuel + 1, value =>
      if value < 128 then [byteOf value]
      else byteOf (value % 128 + 128) :: encodeVarint fuel (value / 128)

def varintLengthFrom : (fuel : Nat) → Nat → Nat
  | 0, _ => 1
  | fuel + 1, value => if value < 128 then 1 else varintLengthFrom fuel (value / 128) + 1

/-- A 32-bit value takes at most five groups of seven bits, a 64-bit value at most ten. -/
def encodeVarint32 (value : Nat) : Bytes := encodeVarint 4 value
def encodeVarint64 (value : Nat) : Bytes := encodeVarint 9 value

/-- `FoldVarintPayload`. Bits above the width of the result fall off. -/
def foldVarintPayload (bits value payload shift : Nat) : Nat :=
  value ||| payload <<< shift % 2 ^ bits

/-- The loop of `ConsumeVarint` with `fuel + 1` bytes left: `shift` is the weight of the next group.
Excess bits of the last group fall off; a continuation bit there is an error. -/
def consumeVarintFrom (bits : Nat) : (fuel : Nat) → (shift value : Nat) → Bytes → Result (Nat × Bytes)
  | _, _, _, [] => .error (Error.corruption "truncated varint")
  | fuel, shift, value, b :: rest =>
      let value := (value + b.toNat % 128 * 2 ^ shift) % 2 ^ bits
      if b.toNat < 128 then .ok (value, rest)
      else match fuel with
        | 0 => .error (Error.corruption "varint overflow")
        | fuel + 1 => consumeVarintFrom bits fuel (shift + 7) value rest

def consumeVarint32 (input : Bytes) : Result (Nat × Bytes) := consumeVarintFrom 32 4 0 0 input
def consumeVarint64 (input : Bytes) : Result (Nat × Bytes) := consumeVarintFrom 64 9 0 0 input

/-! ## Length-prefixed strings -/

def encodeLengthPrefixed (value : Bytes) : Bytes := encodeVarint32 value.length ++ value

/-- `EncodeLengthPrefixedTrusted`: the length is cast to 32 bits. -/
def encodeLengthPrefixedTrusted (value : Bytes) : Bytes :=
  encodeVarint32 (value.length % 2 ^ 32) ++ value

def consumeLengthPrefixed (input : Bytes) : Result (Bytes × Bytes) := do
  let (length, remaining) ← consumeVarint32 input
  if remaining.length < length then .error (Error.corruption "truncated length-prefixed value")
  else .ok (remaining.take length, remaining.drop length)

/-! ## Trusted decoders (`base/coding_internal.h`)

They read what an encoder wrote or a checked decoder has accepted, and check nothing. -/

def consumeVarintTrusted (bits : Nat) : (shift value : Nat) → Bytes → Nat × Bytes
  | _, value, [] => (value, [])
  | shift, value, b :: rest =>
      let value := (value + b.toNat % 128 * 2 ^ shift) % 2 ^ bits
      if b.toNat < 128 then (value, rest) else consumeVarintTrusted bits (shift + 7) value rest

def consumeVarint32Trusted (input : Bytes) : Nat × Bytes := consumeVarintTrusted 32 0 0 input

def consumeLengthPrefixedTrusted (input : Bytes) : Bytes × Bytes :=
  let (length, remaining) := consumeVarint32Trusted input
  (remaining.take length, remaining.drop length)

/-! ## Trusted decoders with their reads checked

They give nothing where the source would read behind the input. -/

def readVarintTrusted (bits : Nat) : (shift value : Nat) → Bytes → Option (Nat × Bytes)
  | _, _, [] => none
  | shift, value, b :: rest =>
      let value := (value + b.toNat % 128 * 2 ^ shift) % 2 ^ bits
      if b.toNat < 128 then some (value, rest) else readVarintTrusted bits (shift + 7) value rest

def readLengthPrefixedTrusted (input : Bytes) : Option (Bytes × Bytes) := do
  let (length, remaining) ← readVarintTrusted 32 0 0 input
  if remaining.length < length then none
  else some (remaining.take length, remaining.drop length)

/-! ## Round trips -/

@[simp] theorem length_encodeFixed (width value : Nat) : (encodeFixed width value).length = width := by
  induction width generalizing value with
  | zero => rfl
  | succ width ih => simp [encodeFixed, ih]

theorem decodeFixed_encodeFixed (width value : Nat) :
    decodeFixed (encodeFixed width value) = value % 256 ^ width := by
  induction width generalizing value with
  | zero => simp [encodeFixed, decodeFixed, Nat.mod_one]
  | succ width ih =>
    rw [encodeFixed, decodeFixed, ih, toNat_byteOf, pow_succ', Nat.mod_mul]

variable {value : Nat}

theorem length_encodeVarint (fuel value : Nat) :
    (encodeVarint fuel value).length = varintLengthFrom fuel value := by
  induction fuel generalizing value with
  | zero => rfl
  | succ fuel ih =>
    rw [encodeVarint, varintLengthFrom]
    split
    · rfl
    · rw [List.length_cons, ih]

theorem consumeVarintFrom_encodeVarint (bits : Nat) (rest : Bytes) : ∀ (fuel value shift acc : Nat),
    value < 128 ^ (fuel + 1) → acc + value * 2 ^ shift < 2 ^ bits →
      consumeVarintFrom bits fuel shift acc (encodeVarint fuel value ++ rest) =
        .ok (acc + value * 2 ^ shift, rest) := by
  intro fuel
  induction fuel with
  | zero =>
    intro value shift acc hv hb
    have hv' : value < 128 := by simpa using hv
    have hmod : value % 256 % 128 = value := by omega
    simp only [encodeVarint, List.cons_append, List.nil_append, consumeVarintFrom, toNat_byteOf, hmod]
    rw [if_pos (by omega), Nat.mod_eq_of_lt hb]
  | succ fuel ih =>
    intro value shift acc hv hb
    rw [encodeVarint]
    split
    · next hsmall =>
      have hmod : value % 256 % 128 = value := by omega
      simp only [List.cons_append, List.nil_append, consumeVarintFrom, toNat_byteOf, hmod]
      rw [if_pos (by omega), Nat.mod_eq_of_lt hb]
    · next hbig =>
      have hmod : (value % 128 + 128) % 256 % 128 = value % 128 := by omega
      have hsplit : value * 2 ^ shift =
          value % 128 * 2 ^ shift + value / 128 * 2 ^ (shift + 7) := by
        have hdiv := Nat.mod_add_div value 128
        calc value * 2 ^ shift = (value % 128 + 128 * (value / 128)) * 2 ^ shift := by rw [hdiv]
          _ = value % 128 * 2 ^ shift + value / 128 * 2 ^ (shift + 7) := by rw [pow_add]; ring
      simp only [List.cons_append, consumeVarintFrom, toNat_byteOf, hmod]
      rw [if_neg (by omega), Nat.mod_eq_of_lt (by omega)]
      rw [ih (value / 128) (shift + 7) (acc + value % 128 * 2 ^ shift)
        (by rw [pow_succ] at hv; omega) (by omega)]
      rw [hsplit, Nat.add_assoc]

theorem consumeVarint32_encode (h : value < 2 ^ 32) (rest : Bytes) :
    consumeVarint32 (encodeVarint32 value ++ rest) = .ok (value, rest) := by
  have hc := consumeVarintFrom_encodeVarint 32 rest 4 value 0 0 (by omega) (by omega)
  simpa [consumeVarint32, encodeVarint32] using hc

theorem consumeVarint64_encode (h : value < 2 ^ 64) (rest : Bytes) :
    consumeVarint64 (encodeVarint64 value ++ rest) = .ok (value, rest) := by
  have hc := consumeVarintFrom_encodeVarint 64 rest 9 value 0 0 (by omega) (by omega)
  simpa [consumeVarint64, encodeVarint64] using hc

theorem consumeLengthPrefixed_encode {value : Bytes} (h : value.length < 2 ^ 32) (rest : Bytes) :
    consumeLengthPrefixed (encodeLengthPrefixed value ++ rest) = .ok (value, rest) := by
  unfold consumeLengthPrefixed encodeLengthPrefixed
  rw [List.append_assoc, consumeVarint32_encode h]
  simp [bind, Except.bind]

/-! ## The words that the checked decoders accept -/

variable {bits : Nat}

def varintValue : Bytes → Nat
  | [] => 0
  | b :: rest => b.toNat % 128 + 128 * varintValue rest

/-- At most `fuel + 1` bytes, of which all but the last one have their continuation bit. -/
inductive IsVarint : (fuel : Nat) → Bytes → Prop where
  | last {fuel : Nat} {b : UInt8} (h : b.toNat < 128) : IsVarint fuel [b]
  | more {fuel : Nat} {b : UInt8} {rest : Bytes} (h : 128 ≤ b.toNat) (hrest : IsVarint fuel rest) :
      IsVarint (fuel + 1) (b :: rest)

/-- A length of at most five bytes, of which 32 bits count, and as many bytes. -/
structure IsLengthPrefixed (word value : Bytes) : Prop where
  split : ∃ size, IsVarint 4 size ∧ varintValue size % 2 ^ 32 = value.length ∧ word = size ++ value

theorem mod_fold (value group rest shift bits : Nat) :
    ((value + group * 2 ^ shift) % 2 ^ bits + rest * 2 ^ (shift + 7)) % 2 ^ bits =
      (value + (group + 128 * rest) * 2 ^ shift) % 2 ^ bits := by
  rw [Nat.mod_add_mod]
  congr 1
  rw [pow_add]
  ring

theorem consumeVarintFrom_last (bits fuel shift value : Nat) {b : UInt8} (rest : Bytes)
    (h : b.toNat < 128) :
    consumeVarintFrom bits fuel shift value (b :: rest) =
      .ok ((value + b.toNat % 128 * 2 ^ shift) % 2 ^ bits, rest) := by
  cases fuel <;> rw [consumeVarintFrom, if_pos h]

variable {fuel : Nat} {word : Bytes}

theorem consumeVarintFrom_of_isVarint (bits : Nat) (h : IsVarint fuel word) (rest : Bytes) :
    ∀ shift value : Nat,
    consumeVarintFrom bits fuel shift value (word ++ rest) =
      .ok ((value + varintValue word * 2 ^ shift) % 2 ^ bits, rest) := by
  induction h with
  | last h =>
    intro shift value
    exact consumeVarintFrom_last bits _ shift value rest h
  | more h _ ih =>
    intro shift value
    rw [List.cons_append, consumeVarintFrom, if_neg (Nat.not_lt.mpr h), ih, mod_fold]
    rfl

variable {shift : Nat}

theorem isVarint_of_consumeVarintFrom {value v : Nat} {input rest : Bytes}
    (h : consumeVarintFrom bits fuel shift value input = .ok (v, rest)) :
    ∃ word, IsVarint fuel word ∧ input = word ++ rest := by
  induction input generalizing fuel shift value with
  | nil => cases fuel <;> cases h
  | cons b input ih =>
    by_cases hlast : b.toNat < 128
    · rw [consumeVarintFrom_last _ _ _ _ _ hlast] at h
      cases h
      exact ⟨[b], .last hlast, rfl⟩
    · cases fuel with
      | zero =>
        rw [consumeVarintFrom, if_neg hlast] at h
        cases h
      | succ fuel =>
        rw [consumeVarintFrom, if_neg hlast] at h
        obtain ⟨word, hword, rfl⟩ := ih h
        exact ⟨b :: word, .more (Nat.le_of_not_lt hlast) hword, rfl⟩

/-! ## What the checks are for -/

theorem readVarintTrusted_of_isVarint (bits : Nat) (h : IsVarint fuel word) (rest : Bytes) :
    ∀ shift value : Nat,
    readVarintTrusted bits shift value (word ++ rest) =
      some ((value + varintValue word * 2 ^ shift) % 2 ^ bits, rest) := by
  induction h with
  | last h =>
    intro shift value
    rw [List.cons_append, readVarintTrusted, if_pos h]
    rfl
  | more h _ ih =>
    intro shift value
    rw [List.cons_append, readVarintTrusted, if_neg (Nat.not_lt.mpr h), ih, mod_fold]
    rfl

theorem readVarintTrusted_eq {value : Nat} {input : Bytes} {out : Nat × Bytes}
    (h : consumeVarintFrom bits fuel shift value input = .ok out) :
    readVarintTrusted bits shift value input = some out := by
  obtain ⟨word, hword, rfl⟩ := isVarint_of_consumeVarintFrom h
  rw [consumeVarintFrom_of_isVarint bits hword] at h
  rw [readVarintTrusted_of_isVarint bits hword, Except.ok.inj h]

variable {input : Bytes} {out : Bytes × Bytes}

theorem readLengthPrefixedTrusted_eq (h : consumeLengthPrefixed input = .ok out) :
    readLengthPrefixedTrusted input = some out := by
  obtain ⟨⟨length, remaining⟩, hlength, h⟩ := Result.bind_eq_ok.mp h
  rw [readLengthPrefixedTrusted, readVarintTrusted_eq hlength]
  dsimp only [Option.bind_eq_bind, Option.bind_some] at h ⊢
  split at h
  · cases h
  · next hlong =>
    rw [if_neg hlong]
    exact congrArg some (Except.ok.inj h)

theorem consumeVarintTrusted_of_read {out : Nat × Bytes} :
    ∀ {shift value : Nat}, readVarintTrusted bits shift value input = some out →
      consumeVarintTrusted bits shift value input = out := by
  induction input with
  | nil => exact fun h => nomatch h
  | cons b input ih =>
    intro shift value h
    rw [readVarintTrusted] at h
    rw [consumeVarintTrusted]
    split at h
    · next hlast =>
      rw [if_pos hlast]
      exact Option.some.inj h
    · next hmore =>
      rw [if_neg hmore]
      exact ih h

theorem consumeLengthPrefixedTrusted_of_read (h : readLengthPrefixedTrusted input = some out) :
    consumeLengthPrefixedTrusted input = out := by
  obtain ⟨⟨length, remaining⟩, hlength, h⟩ := Option.bind_eq_some_iff.mp h
  rw [consumeLengthPrefixedTrusted, consumeVarint32Trusted, consumeVarintTrusted_of_read hlength]
  dsimp only at h ⊢
  split at h
  · cases h
  · exact Option.some.inj h

theorem consumeLengthPrefixedTrusted_eq (h : consumeLengthPrefixed input = .ok out) :
    consumeLengthPrefixedTrusted input = out :=
  consumeLengthPrefixedTrusted_of_read (readLengthPrefixedTrusted_eq h)

theorem consumeLengthPrefixed_of_word {value : Bytes} (h : IsLengthPrefixed word value)
    (rest : Bytes) : consumeLengthPrefixed (word ++ rest) = .ok (value, rest) := by
  obtain ⟨size, hsize, hlength, rfl⟩ := h.split
  have hconsume := consumeVarintFrom_of_isVarint 32 hsize (value ++ rest) 0 0
  rw [Nat.zero_add, Nat.pow_zero, Nat.mul_one, hlength] at hconsume
  rw [List.append_assoc, consumeLengthPrefixed, consumeVarint32, hconsume]
  simp [bind, Except.bind]

variable {rest : Bytes}

theorem consumeLengthPrefixed_eq_ok {value : Bytes} :
    consumeLengthPrefixed input = .ok (value, rest) ↔
      ∃ word, IsLengthPrefixed word value ∧ input = word ++ rest := by
  constructor
  · intro h
    obtain ⟨⟨length, remaining⟩, hlength, hrest⟩ := Result.bind_eq_ok.mp h
    obtain ⟨size, hsize, rfl⟩ := isVarint_of_consumeVarintFrom hlength
    have hvalue := consumeVarintFrom_of_isVarint 32 hsize remaining 0 0
    rw [← consumeVarint32, hlength, Nat.zero_add, Nat.pow_zero, Nat.mul_one] at hvalue
    have hsame : length = varintValue size % 2 ^ 32 := congrArg Prod.fst (Except.ok.inj hvalue)
    dsimp only at hrest
    split at hrest
    · cases hrest
    · next hlong =>
      cases hrest
      refine ⟨size ++ remaining.take length, ⟨size, hsize, ?_, rfl⟩, ?_⟩
      · rw [← hsame, List.length_take]
        omega
      · rw [List.append_assoc, List.take_append_drop]
  · rintro ⟨word, hword, rfl⟩
    exact consumeLengthPrefixed_of_word hword rest

/-! ## Bounds of what is consumed -/

theorem decodeFixed_lt (input : Bytes) : decodeFixed input < 256 ^ input.length := by
  induction input with
  | nil => simp [decodeFixed]
  | cons b rest ih =>
    have hb := b.toNat_lt
    rw [decodeFixed, List.length_cons, pow_succ]
    omega

theorem decodeFixed_inj {a b : Bytes} (hlength : a.length = b.length)
    (h : decodeFixed a = decodeFixed b) : a = b := by
  induction a generalizing b with
  | nil => rw [List.length_eq_zero_iff.mp hlength.symm]
  | cons x a ih =>
    cases b with
    | nil => cases hlength
    | cons y b =>
      rw [decodeFixed, decodeFixed] at h
      have hx := x.toNat_lt
      have hy := y.toNat_lt
      have hbyte : x = y := UInt8.toNat_inj.mp (by omega)
      rw [hbyte, ih (Nat.succ.inj hlength) (by omega)]

theorem consumeVarintFrom_lt {value v : Nat} {input rest : Bytes}
    (h : consumeVarintFrom bits fuel shift value input = .ok (v, rest)) : v < 2 ^ bits := by
  obtain ⟨word, hword, rfl⟩ := isVarint_of_consumeVarintFrom h
  rw [consumeVarintFrom_of_isVarint bits hword] at h
  cases h
  exact Nat.mod_lt _ (Nat.two_pow_pos bits)

theorem consumeLengthPrefixed_length {value : Bytes}
    (h : consumeLengthPrefixed input = .ok (value, rest)) : value.length < 2 ^ 32 := by
  obtain ⟨⟨length, remaining⟩, hlength, h⟩ := Result.bind_eq_ok.mp h
  have hlt : length < 2 ^ 32 := consumeVarintFrom_lt hlength
  dsimp only at h
  split at h
  · cases h
  · cases h
    rw [List.length_take]
    omega

theorem IsVarint.length_pos (h : IsVarint fuel word) : 0 < word.length := by
  cases h <;> exact Nat.succ_pos _

theorem consumeVarintFrom_length_lt {v : Nat}
    (h : consumeVarintFrom bits fuel shift value input = .ok (v, rest)) :
    rest.length < input.length := by
  obtain ⟨word, hword, rfl⟩ := isVarint_of_consumeVarintFrom h
  have hpos := hword.length_pos
  rw [List.length_append]
  omega

theorem consumeLengthPrefixed_length_le {value : Bytes}
    (h : consumeLengthPrefixed input = .ok (value, rest)) : rest.length ≤ input.length := by
  obtain ⟨word, _, rfl⟩ := consumeLengthPrefixed_eq_ok.mp h
  rw [List.length_append]
  exact Nat.le_add_left _ _

end ModernLevelDB
