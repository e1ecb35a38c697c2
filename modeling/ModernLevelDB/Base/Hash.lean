import ModernLevelDB.Base.Coding

/-! # Hashes (`base/hash.h`) -/
namespace ModernLevelDB
set_option autoImplicit false

def hashMultiplier : UInt32 := 0xc6a4a793

def mixHashWord (hash word : UInt32) : UInt32 :=
  let hash := (hash + word) * hashMultiplier
  hash ^^^ (hash >>> 16)

/-- `LoadHashWord`, of four or eight bytes. -/
def loadHashWord (input : Bytes) : UInt64 := UInt64.ofNat (decodeFixed input)

def decodeHashTail : (shift : Nat) → Bytes → UInt32 → UInt32
  | _, [], tail => tail
  | shift, b :: rest, tail =>
      decodeHashTail (shift + 8) rest (tail ||| (b.toUInt32 <<< UInt32.ofNat shift))

def mixHashTail (hash tail : UInt32) : UInt32 :=
  let hash := (hash + tail) * hashMultiplier
  hash ^^^ (hash >>> 24)

def foldHashTail (input : Bytes) (hash : UInt32) : UInt32 :=
  if input.isEmpty then hash else mixHashTail hash (decodeHashTail 0 input 0)

/-- The loop of `Hash32` over eight bytes at once, and what follows it. -/
def hashWords (load : Bytes → UInt64) : Bytes → UInt32 → UInt32
  | a :: b :: c :: d :: e :: f :: g :: h :: rest, hash =>
      let words := load [a, b, c, d, e, f, g, h]
      hashWords load rest (mixHashWord (mixHashWord hash words.toUInt32) (words >>> 32).toUInt32)
  | a :: b :: c :: d :: rest, hash =>
      foldHashTail rest (mixHashWord hash (load [a, b, c, d]).toUInt32)
  | rest, hash => foldHashTail rest hash

def hash32 (input : Bytes) (seed : UInt32) : UInt32 :=
  hashWords loadHashWord input (seed ^^^ (UInt32.ofNat input.length * hashMultiplier))

/-! ## The loads of a host -/

/-- `std::endian`. -/
inductive Endian where
  | little
  | big
  | mixed
deriving DecidableEq, Repr

/-- The number that a host of one of the two orders has in these bytes of memory. -/
def nativeWord : Endian → Bytes → Nat
  | .big, input => decodeFixed input.reverse
  | _, input => decodeFixed input

def byteswap (width value : Nat) : Nat := decodeFixed (encodeFixed width value).reverse

def loadBytes : (shift : Nat) → Bytes → Nat → Nat
  | _, [], value => value
  | shift, b :: rest, value => loadBytes (shift + 8) rest (value ||| b.toNat <<< shift)

def loadHashWordOn (host : Endian) (input : Bytes) : UInt64 :=
  UInt64.ofNat (match host with
    | .little => nativeWord .little input
    | .big => byteswap input.length (nativeWord .big input)
    | .mixed => loadBytes 0 input 0)

def hash32On (host : Endian) (input : Bytes) (seed : UInt32) : UInt32 :=
  hashWords (loadHashWordOn host) input (seed ^^^ (UInt32.ofNat input.length * hashMultiplier))

theorem encodeFixed_decodeFixed (input : Bytes) :
    encodeFixed input.length (decodeFixed input) = input := by
  refine decodeFixed_inj (length_encodeFixed _ _) ?_
  rw [decodeFixed_encodeFixed, Nat.mod_eq_of_lt (decodeFixed_lt input)]

theorem byteswap_reverse (input : Bytes) :
    byteswap input.length (decodeFixed input.reverse) = decodeFixed input := by
  have hencode := encodeFixed_decodeFixed input.reverse
  rw [List.length_reverse] at hencode
  rw [byteswap, hencode, List.reverse_reverse]

theorem or_shiftLeft {shift value : Nat} (hvalue : value < 2 ^ shift) (n : Nat) :
    value ||| n <<< shift = value + n * 2 ^ shift := by
  rw [Nat.shiftLeft_eq, Nat.mul_comm, Nat.or_comm, ← Nat.two_pow_add_eq_or_of_lt hvalue, Nat.add_comm]

theorem loadBytes_eq (input : Bytes) : ∀ {shift value : Nat}, value < 2 ^ shift →
    loadBytes shift input value = value + decodeFixed input * 2 ^ shift := by
  induction input with
  | nil =>
    intro shift value _
    rw [loadBytes, decodeFixed, Nat.zero_mul, Nat.add_zero]
  | cons b rest ih =>
    intro shift value hvalue
    have hb := Nat.mul_le_mul_right (2 ^ shift) (Nat.le_of_lt_succ b.toNat_lt)
    have hnext : value + b.toNat * 2 ^ shift < 2 ^ (shift + 8) := by
      rw [pow_add]
      omega
    rw [loadBytes, or_shiftLeft hvalue, ih hnext, decodeFixed, pow_add]
    ring

theorem loadBytes_zero (input : Bytes) : loadBytes 0 input 0 = decodeFixed input := by
  rw [loadBytes_eq input Nat.one_pos, pow_zero, Nat.mul_one, Nat.zero_add]

theorem loadHashWordOn_eq (host : Endian) (input : Bytes) :
    loadHashWordOn host input = loadHashWord input := by
  refine congrArg UInt64.ofNat ?_
  cases host with
  | little => rfl
  | big => exact byteswap_reverse input
  | mixed => exact loadBytes_zero input

theorem hash32On_eq (host : Endian) (input : Bytes) (seed : UInt32) :
    hash32On host input seed = hash32 input seed := by
  rw [hash32On, hash32, funext (loadHashWordOn_eq host)]

/-! ## The hash of LevelDB -/

/-- `h += w; h *= m; h ^= (h >> shift)`, with LevelDB's `m`. -/
def referenceMix (shift h : UInt32) (w : Nat) : UInt32 :=
  let h := (h + UInt32.ofNat w) * 0xc6a4a793
  h ^^^ (h >>> shift)

/-- Words of four bytes, one at a time, as long as there are four bytes. -/
def referenceWords (mix : UInt32 → Nat → UInt32) (tail : UInt32 → Bytes → UInt32) :
    Bytes → UInt32 → UInt32
  | a :: b :: c :: d :: rest, h =>
      referenceWords mix tail rest
        (mix h (a.toNat + 256 * (b.toNat + 256 * (c.toNat + 256 * d.toNat))))
  | rest, h => tail h rest

/-- The one to three bytes that are left are one more word. -/
def referenceTail (h : UInt32) : Bytes → UInt32
  | [a, b, c] => referenceMix 24 h (a.toNat + 256 * (b.toNat + 256 * c.toNat))
  | [a, b] => referenceMix 24 h (a.toNat + 256 * b.toNat)
  | [a] => referenceMix 24 h a.toNat
  | _ => h

/-- LevelDB's `Hash`; its `n * m` has the width of `n` and is cut to 32 bits with the seed. -/
def referenceHash (input : Bytes) (seed : UInt32) : UInt32 :=
  referenceWords (referenceMix 16) referenceTail input
    (seed ^^^ UInt32.ofNat (input.length * 0xc6a4a793))

theorem toNat_decodeHashTail (input : Bytes) : ∀ {shift : Nat} {tail : UInt32},
    shift + 8 * input.length ≤ 32 →
    (decodeHashTail shift input tail).toNat = loadBytes shift input tail.toNat := by
  induction input with
  | nil => exact fun _ => rfl
  | cons b rest ih =>
    intro shift tail hfits
    rw [List.length_cons] at hfits
    have hshift : (UInt32.ofNat shift).toNat % 32 = shift := by
      rw [UInt32.toNat_ofNat']
      omega
    have hpow : 2 ^ (shift + 8) ≤ 2 ^ 32 := Nat.pow_le_pow_right (by decide) (by omega)
    have hb := Nat.mul_lt_mul_of_pos_right b.toNat_lt (Nat.two_pow_pos shift)
    have hbyte : (b.toUInt32 <<< UInt32.ofNat shift).toNat = b.toNat <<< shift := by
      rw [UInt32.toNat_shiftLeft, hshift, UInt8.toNat_toUInt32, Nat.shiftLeft_eq]
      refine Nat.mod_eq_of_lt (lt_of_lt_of_le hb ?_)
      rw [pow_add] at hpow
      omega
    rw [decodeHashTail, ih (by omega), UInt32.toNat_or, hbyte, loadBytes]

theorem mixHashWord_eq (hash : UInt32) {word : UInt32} {w : Nat} (hword : word = UInt32.ofNat w) :
    mixHashWord hash word = referenceMix 16 hash w := by
  rw [hword]
  rfl

theorem foldHashTail_eq {rest : Bytes} (hshort : rest.length < 4) (hash : UInt32) :
    foldHashTail rest hash = referenceTail hash rest := by
  have htail : (decodeHashTail 0 rest 0).toNat = decodeFixed rest := by
    rw [toNat_decodeHashTail rest (by omega)]
    exact loadBytes_zero rest
  have hmix : rest ≠ [] → foldHashTail rest hash = referenceMix 24 hash (decodeFixed rest) := by
    intro hne
    rw [foldHashTail, if_neg (by simpa using hne), ← htail, referenceMix, UInt32.ofNat_toNat]
    rfl
  match rest, hshort with
  | [], _ => rfl
  | [a], _ | [a, b], _ | [a, b, c], _ =>
    exact hmix (by simp)

theorem decodeFixed_append (low high : Bytes) :
    decodeFixed (low ++ high) = decodeFixed low + 256 ^ low.length * decodeFixed high := by
  induction low with
  | nil => simp [decodeFixed]
  | cons b rest ih =>
    rw [List.cons_append, decodeFixed, decodeFixed, ih, List.length_cons, pow_succ]
    ring

theorem toUInt32_loadHashWord (low high : Bytes) (hlow : low.length = 4) :
    (loadHashWord (low ++ high)).toUInt32 = UInt32.ofNat (decodeFixed low) := by
  rw [loadHashWord, UInt64.toUInt32_ofNat', decodeFixed_append, hlow]
  refine UInt32.toNat_inj.mp ?_
  rw [UInt32.toNat_ofNat', UInt32.toNat_ofNat']
  omega

theorem shiftRight_loadHashWord (low high : Bytes) (hlow : low.length = 4) :
    (loadHashWord (low ++ high) >>> 32).toUInt32 = UInt32.ofNat (decodeFixed high) := by
  have hlt := decodeFixed_lt low
  rw [hlow] at hlt
  refine UInt32.toNat_inj.mp ?_
  rw [UInt64.toNat_toUInt32, UInt64.toNat_shiftRight, loadHashWord, UInt64.toNat_ofNat',
    UInt32.toNat_ofNat', decodeFixed_append, hlow, Nat.shiftRight_eq_div_pow]
  change (_ % 2 ^ 64) / 2 ^ 32 % 2 ^ 32 = _
  omega

theorem length_lt_of_ne {input : Bytes}
    (hne : ∀ a b c d rest, input ≠ a :: b :: c :: d :: rest) : input.length < 4 := by
  match input with
  | [] | [_] | [_, _] | [_, _, _] => simp
  | a :: b :: c :: d :: rest => exact absurd rfl (hne a b c d rest)

theorem referenceWords_of_short {mix : UInt32 → Nat → UInt32} {tail : UInt32 → Bytes → UInt32}
    {rest : Bytes} {hash : UInt32} (hshort : rest.length < 4) :
    referenceWords mix tail rest hash = tail hash rest := by
  match rest, hshort with
  | [], _ | [_], _ | [_, _], _ | [_, _, _], _ => rfl

theorem hashWords_eq (input : Bytes) (hash : UInt32) : hashWords loadHashWord input hash =
    referenceWords (referenceMix 16) referenceTail input hash := by
  fun_induction hashWords loadHashWord input hash with
  | case1 a b c d e f g h rest hash words ih =>
    -- one round of the loop is two rounds of the reference
    have hlow : words.toUInt32 = _ := toUInt32_loadHashWord [a, b, c, d] [e, f, g, h] rfl
    have hhigh : (words >>> 32).toUInt32 = _ := shiftRight_loadHashWord [a, b, c, d] [e, f, g, h] rfl
    rw [ih, mixHashWord_eq _ hhigh, mixHashWord_eq hash hlow, referenceWords, referenceWords]
    rfl
  | case2 a b c d rest hash hshort =>
    have hrest := length_lt_of_ne hshort
    rw [referenceWords, referenceWords_of_short hrest, foldHashTail_eq hrest]
    exact congrArg (referenceTail · rest) (mixHashWord_eq hash (toUInt32_loadHashWord [a, b, c, d] [] rfl))
  | case3 hash rest _ hshort =>
    have hrest := length_lt_of_ne hshort
    rw [referenceWords_of_short hrest, foldHashTail_eq hrest]

theorem hash32On_reference (host : Endian) (input : Bytes) (seed : UInt32) :
    hash32On host input seed = referenceHash input seed := by
  rw [hash32On_eq, hash32, hashWords_eq, referenceHash, UInt32.ofNat_mul]
  rfl

/-- The golden vectors of the Bloom seed, one for each length. -/
example : [0xff, 0x00, 0x80, 0x7f, 0x01, 0xfe, 0x02, 0x81, 0x03, 0xfd, 0x04, 0x82].inits.map
    (hash32On .big · 0xbc9f1d34) =
      [0xbc9f1d34, 0xc20e0a90, 0xcb25c908, 0x127d2876, 0xc7e876bd, 0x7fb3016d, 0xd3382565, 0x65bb7174,
        0x9c75fd14, 0xbeb24b88, 0xccead32b, 0x2fc294a5, 0x361fc11b] := by
  decide

end ModernLevelDB
