import ModernLevelDB.Base.Hash
import ModernLevelDB.Lib.BitArray

/-! # Bloom filters (`table/bloom_filter.h`) -/
namespace ModernLevelDB
set_option autoImplicit false

open BitArray

structure BloomFilterPolicy where
  bitsPerKey : UInt32
deriving DecidableEq, Repr

namespace BloomFilterPolicy

def probes (policy : BloomFilterPolicy) : Nat := min (max (policy.bitsPerKey.toNat * 69 / 100) 1) 30

def name : String := "leveldb.BuiltinBloomFilter2"

/-- `FilterSize`. Too many bits give the largest number of them. -/
def filterSize (policy : BloomFilterPolicy) (keyCount : Nat) : Nat :=
  let bits :=
    if policy.bitsPerKey ≠ 0 ∧ keyCount > (2 ^ 64 - 1) / policy.bitsPerKey.toNat then 2 ^ 64 - 1
    else max 64 (keyCount * policy.bitsPerKey.toNat)
  (bits - 1) / 8 + 2

def bloomHash (key : Bytes) : UInt32 := hash32 key 0xbc9f1d34

/-- `std::rotr(hash, 17)`. -/
def bloomHashDelta (hash : UInt32) : UInt32 := (hash >>> 17) ||| (hash <<< 15)

def bitPositions (bits : Nat) (delta : UInt32) : (probes : Nat) → (hash : UInt32) → List Nat
  | 0, _ => []
  | probes + 1, hash => hash.toNat % bits :: bitPositions bits delta probes (hash + delta)

def setKey (policy : BloomFilterPolicy) (bits : Nat) (filter key : Bytes) : Bytes :=
  let hash := bloomHash key
  (bitPositions bits (bloomHashDelta hash) policy.probes hash).foldl setBit filter

/-- `CreateFilter`, which appends to the output. -/
def createFilter (policy : BloomFilterPolicy) (keys : List Bytes) (output : Bytes) : Bytes :=
  let bytes := policy.filterSize keys.length - 1
  output ++ keys.foldl (policy.setKey (bytes * 8)) (List.replicate bytes 0) ++ [byteOf policy.probes]

def keyMayMatch (key filter : Bytes) : Bool :=
  if filter.length < 2 then false
  else
    let bits := (filter.length - 1) * 8
    let probes := (filter.getLastD 0).toNat
    if probes > 30 then true
    else
      let hash := bloomHash key
      (bitPositions bits (bloomHashDelta hash) probes hash).all (bitIsSet filter)

/-! ## Keys of a filter match -/

variable (policy : BloomFilterPolicy)

theorem probes_pos : 0 < policy.probes := by
  rw [probes]
  omega

theorem probes_le : policy.probes ≤ 30 := Nat.min_le_right _ _

theorem filterSize_ge (keyCount : Nat) : 9 ≤ policy.filterSize keyCount := by
  rw [filterSize]
  split <;> omega

theorem bitPositions_lt {bits : Nat} (hbits : 0 < bits) (delta : UInt32) (probes : Nat) :
    ∀ {hash : UInt32} {p : Nat}, p ∈ bitPositions bits delta probes hash → p < bits := by
  induction probes with
  | zero => exact fun h => absurd h List.not_mem_nil
  | succ probes ih =>
    intro hash p h
    rcases List.mem_cons.mp h with rfl | h
    · exact Nat.mod_lt _ hbits
    · exact ih h

theorem length_setKeys (bits : Nat) (keys : List Bytes) : ∀ filter : Bytes,
    (keys.foldl (policy.setKey bits) filter).length = filter.length := by
  induction keys with
  | nil => exact fun _ => rfl
  | cons key keys ih => exact fun filter => (ih _).trans (length_foldl_setBit _ _)

theorem bitIsSet_setKeys {bits : Nat} (hbits : 0 < bits) (keys : List Bytes) :
    ∀ {filter : Bytes}, filter.length * 8 = bits → ∀ {q : Nat},
      bitIsSet filter q = true ∨ (∃ key ∈ keys,
        q ∈ bitPositions bits (bloomHashDelta (bloomHash key)) policy.probes (bloomHash key)) →
      bitIsSet (keys.foldl (policy.setKey bits) filter) q = true := by
  induction keys with
  | nil =>
    intro filter _ q h
    rcases h with h | ⟨key, hkey, _⟩
    · exact h
    · exact absurd hkey List.not_mem_nil
  | cons key keys ih =>
    intro filter hlength q h
    have hset : bitIsSet (policy.setKey bits filter key) q = (bitIsSet filter q || decide (q ∈
        bitPositions bits (bloomHashDelta (bloomHash key)) policy.probes (bloomHash key))) := by
      refine bitIsSet_foldl_setBit (fun p hp => ?_) q
      have hlt := bitPositions_lt hbits _ _ hp
      omega
    have hlength' : (policy.setKey bits filter key).length * 8 = bits := by
      rw [setKey, length_foldl_setBit, hlength]
    rw [List.foldl_cons]
    refine ih hlength' ?_
    rw [hset, Bool.or_eq_true, decide_eq_true_iff]
    rcases h with h | ⟨key', hkey', hq⟩
    · exact .inl (.inl h)
    · rcases List.mem_cons.mp hkey' with rfl | hkey'
      · exact .inl (.inr hq)
      · exact .inr ⟨key', hkey', hq⟩

def filterOf (keys : List Bytes) : Bytes := policy.createFilter keys []

theorem createFilter_eq (keys : List Bytes) (output : Bytes) :
    policy.createFilter keys output = output ++ policy.filterOf keys := by
  rw [filterOf, createFilter, createFilter, List.nil_append, List.append_assoc]

theorem length_filterOf (keys : List Bytes) :
    (policy.filterOf keys).length = policy.filterSize keys.length := by
  have hsize := policy.filterSize_ge keys.length
  rw [filterOf, createFilter, List.nil_append, List.length_append, length_setKeys,
    List.length_replicate, List.length_singleton]
  omega

theorem keyMayMatch_filterOf {keys : List Bytes} {key : Bytes} (hkey : key ∈ keys) :
    keyMayMatch key (policy.filterOf keys) = true := by
  have hsize := policy.filterSize_ge keys.length
  have hlength := policy.length_filterOf keys
  have hprobes := policy.probes_le
  have hlast : ((policy.filterOf keys).getLastD 0).toNat = policy.probes := by
    rw [filterOf, createFilter, List.getLastD_concat, byteOf,
      UInt8.toNat_ofNat_of_lt' (show policy.probes < 256 by omega)]
  rw [keyMayMatch, if_neg (by omega), hlast]
  dsimp only
  rw [if_neg (by omega), hlength, List.all_eq_true]
  intro q hq
  have hbits : 0 < (policy.filterSize keys.length - 1) * 8 := by omega
  have hlt := bitPositions_lt hbits _ _ hq
  have hset := policy.bitIsSet_setKeys hbits keys (by rw [List.length_replicate])
    (.inr ⟨key, hkey, hq⟩ : bitIsSet (List.replicate (policy.filterSize keys.length - 1) 0) q = true ∨ _)
  have hinside : q / 8 < (keys.foldl (policy.setKey ((policy.filterSize keys.length - 1) * 8))
      (List.replicate (policy.filterSize keys.length - 1) 0)).length := by
    rw [length_setKeys, List.length_replicate]
    omega
  rw [bitIsSet, filterOf, createFilter, List.nil_append, List.getD_eq_getElem?_getD,
    List.getElem?_append_left hinside, ← List.getD_eq_getElem?_getD]
  exact hset

end BloomFilterPolicy

end ModernLevelDB
