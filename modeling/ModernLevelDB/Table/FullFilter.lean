import ModernLevelDB.Table.BloomFilter
import ModernLevelDB.Lib.Lanes

/-! # Filters of whole tables (`table/full_filter.h`)

The filter is a header and regions of 64 bytes. A key has one region, chosen by its first hash, and its
second hash chooses the bits there. The probe of a region is a loop over bits, or the same with eight
bits at once. -/
namespace ModernLevelDB
set_option autoImplicit false

open BitArray

namespace FullFilter

def magic : Nat := 0x31464c4d
def headerBytes : Nat := 16
def regionBytes : Nat := 64
def regionBits : Nat := regionBytes * 8
def maximumRegions : Nat := (2 ^ 32 - 1 - headerBytes) / regionBytes
def maximumPayload : Nat := headerBytes + maximumRegions * regionBytes
def bucketSeed : UInt32 := 0xbc9f1d34
def probeSeed : UInt32 := 0x9e3779b9
def probeMultiplier : UInt32 := 0x9e3779b9

/-- As many keys as the largest payload has bits for. -/
def maximumKeyCount (bitsPerKey : UInt32) : Nat :=
  if bitsPerKey = 0 then 2 ^ 64 - 1
  else min (maximumRegions * regionBits / bitsPerKey.toNat) (2 ^ 64 - 1)

/-- The region of a key, from its first hash. -/
def regionOf (hash : UInt32) (regions : Nat) : Nat := (hash.toNat * regions) >>> 32

/-- The sizes of a header and whole regions. -/
def isFullFilterBlockSize (size : Nat) : Bool :=
  headerBytes + regionBytes ≤ size && size ≤ maximumPayload && (size - headerBytes) % regionBytes == 0

theorem regionOf_lt (hash : UInt32) {regions : Nat} (h : 0 < regions) :
    regionOf hash regions < regions := by
  rw [regionOf, Nat.shiftRight_eq_div_pow, Nat.div_lt_iff_lt_mul (by decide), Nat.mul_comm]
  exact Nat.mul_lt_mul_of_pos_left hash.toNat_lt h

theorem isFullFilterBlockSize_iff {size : Nat} : isFullFilterBlockSize size = true ↔
    80 ≤ size ∧ size ≤ 4294967248 ∧ (size - 16) % 64 = 0 := by
  rw [isFullFilterBlockSize, Bool.and_eq_true, Bool.and_eq_true, decide_eq_true_iff,
    decide_eq_true_iff, beq_iff_eq, and_assoc]
  rfl

end FullFilter

open FullFilter

/-! ## Building -/

/-- The hashes that choose a region and its bits. -/
structure HashPair where
  bucket : UInt32
  probes : UInt32

/-- The hashes of the keys so far. -/
structure FullFilterBuilder where
  policy : BloomFilterPolicy
  hashes : List HashPair := []

/-- The bits of a key in its region. -/
def probeBits : (probes : Nat) → (value : UInt32) → List Nat
  | 0, _ => []
  | probes + 1, value => (value >>> 23).toNat :: probeBits probes (value * probeMultiplier)

namespace FullFilterBuilder

/-- Keeps the hashes of a key. -/
def addKey (builder : FullFilterBuilder) (key : Bytes) : Result FullFilterBuilder :=
  if builder.hashes.length = maximumKeyCount builder.policy.bitsPerKey then
    .error (Error.invalidArgument "full filter exceeds the uint32 size limit")
  else .ok { builder with
    hashes := builder.hashes ++ [⟨hash32 key bucketSeed, hash32 key probeSeed⟩] }

/-- The number of regions, counted in 64 bits and kept in 32. -/
def regions (builder : FullFilterBuilder) : Nat :=
  let bits := builder.hashes.length * builder.policy.bitsPerKey.toNat % 2 ^ 64
  max 1 ((bits + regionBits - 1) % 2 ^ 64 / regionBits) % 2 ^ 32

/-- The version, the number of probes and the number of regions. -/
def header (probes regions : Nat) : Bytes :=
  encodeFixed 4 magic ++ [byteOf probes, 0, 0, 0] ++ encodeFixed 4 regions ++ [0, 0, 0, 0]

/-- Sets the bits of a key. -/
def setHash (probes regions : Nat) (result : Bytes) (hash : HashPair) : Bytes :=
  let start := headerBytes + regionOf hash.bucket regions * regionBytes
  ((probeBits probes hash.probes).map (8 * start + ·)).foldl setBit result

/-- The header, and the regions with the bits of all keys. -/
def finish (builder : FullFilterBuilder) : Bytes :=
  let regions := builder.regions
  builder.hashes.foldl (setHash builder.policy.probes regions)
    (header builder.policy.probes regions ++ List.replicate (regions * regionBytes) 0)

/-- Adds keys one by one, until one fails. -/
def addKeys (policy : BloomFilterPolicy) (keys : List Bytes) : Result FullFilterBuilder :=
  keys.foldlM addKey { policy }

end FullFilterBuilder

/-! ## Probes -/

abbrev Region := Fin 64 → UInt8

theorem shiftRight_lt (hash : UInt32) : (hash >>> 23).toNat < 512 := by
  have hlt := hash.toNat_lt
  rw [UInt32.toNat_shiftRight]
  show hash.toNat >>> 23 < 512
  rw [Nat.shiftRight_eq_div_pow]
  omega

/-- Tests the bit that the upper nine bits of the hash choose. -/
def Region.probe (region : Region) (hash : UInt32) : Bool :=
  testMask (region ⟨(hash >>> 23).toNat / 8, by have := shiftRight_lt hash; omega⟩) (hash >>> 23).toNat

/-- The portable probe: bit by bit, up to the first that is not set. -/
def scalarMayMatch : (hash : UInt32) → (probes : Nat) → Region → Bool
  | _, 0, _ => true
  | hash, probes + 1, region =>
      if region.probe hash = false then false
      else scalarMayMatch (hash * probeMultiplier) probes region

namespace Avx2

/-- The powers of the multiplier. -/
def powers : Nat → UInt32
  | 0 => 1
  | index + 1 => powers index * probeMultiplier

/-- Eight probes at once. A lane takes its word from the upper half when its hash is negative. -/
def group (lower upper : Lanes.Vec) (remaining : Nat) (hashes : Lanes.Vec) : Bool :=
  let lanes : Lanes.Vec := fun i => BitVec.ofNat 32 i
  let addresses := Lanes.shiftRight hashes 28
  let fromLower := Lanes.permute lower addresses
  let fromUpper := Lanes.permute upper addresses
  let words := Lanes.blendBytes fromLower fromUpper (Lanes.shiftRightSigned hashes 31)
  let bits := Lanes.and (Lanes.shiftRight hashes 23) (Lanes.broadcast 31#32)
  let masks := Lanes.shiftLeftEach (Lanes.broadcast 1#32) bits
  let active := Lanes.greater (Lanes.broadcast (BitVec.ofNat 32 remaining)) lanes
  Lanes.testCarry words (Lanes.and masks active)

/-- The groups of probes from `offset` on. -/
def mayMatchFrom (lower upper : Lanes.Vec) (probes : Nat) :
    (fuel offset : Nat) → (hashes : Lanes.Vec) → Bool
  | 0, _, _ => true
  | fuel + 1, offset, hashes =>
      if offset < probes then
        if group lower upper (probes - offset) hashes = false then false
        else
          mayMatchFrom lower upper probes fuel (offset + 8)
            (Lanes.mulLow hashes (Lanes.broadcast (powers 8).toBitVec))
      else true

/-- The probe with vectors. -/
def mayMatch (hash : UInt32) (probes : Nat) (region : Region) : Bool :=
  let lower := Lanes.load (fun i => region ⟨i, by omega⟩)
  let upper := Lanes.load (fun i => region ⟨32 + i, by omega⟩)
  let multipliers : Lanes.Vec := fun i => (powers i).toBitVec
  mayMatchFrom lower upper probes probes 0
    (Lanes.mulLow (Lanes.broadcast hash.toBitVec) multipliers)

end Avx2

/-! ## Reading -/

/-- `FullFilterReader`, with what `Create` checks. -/
structure FullFilterReader where
  contents : Bytes
  regions : Nat
  probes : Nat
  probes_pos : 0 < probes
  probes_le : probes ≤ 30
  regions_pos : 0 < regions
  size_eq : regions * regionBytes + headerBytes = contents.length

namespace FullFilterReader

/-- Accepts a payload whose header agrees with its size. -/
def create (contents : Bytes) : Result FullFilterReader :=
  if isFullFilterBlockSize contents.length = false then
    .error (Error.corruption "full filter size is invalid")
  else if decodeFixed (contents.take 4) ≠ magic then
    .error (Error.corruption "full filter version is invalid")
  else if contents.getD 5 0 ≠ 0 ∨ contents.getD 6 0 ≠ 0 ∨ contents.getD 7 0 ≠ 0 ∨
      decodeFixed ((contents.drop 12).take 4) ≠ 0 then
    .error (Error.corruption "full filter reserved fields are not zero")
  else
    let probes := (contents.getD 4 0).toNat
    if hprobes : probes = 0 ∨ probes > 30 then
      .error (Error.corruption "full filter probe count is invalid")
    else
      let regions := decodeFixed ((contents.drop 8).take 4)
      if hregions : regions = 0 ∨ regions * regionBytes + headerBytes ≠ contents.length then
        .error (Error.corruption "full filter region count is invalid")
      else .ok {
        contents, regions, probes
        probes_pos := Nat.pos_of_ne_zero (fun h => hprobes (.inl h))
        probes_le := Nat.le_of_not_lt (fun h => hprobes (.inr h))
        regions_pos := Nat.pos_of_ne_zero (fun h => hregions (.inl h))
        size_eq := Decidable.of_not_not (fun h => hregions (.inr h)) }

def region (reader : FullFilterReader) (index : Fin reader.regions) : Region :=
  fun i => reader.contents.get ⟨headerBytes + index * regionBytes + i, by
    have hsize := reader.size_eq
    have hindex : (index + 1) * regionBytes ≤ reader.regions * regionBytes :=
      Nat.mul_le_mul_right _ index.isLt
    rw [Nat.succ_mul] at hindex
    have hbyte : (i : Nat) < regionBytes := i.isLt
    omega⟩

/-- Whether the filter may have the key, by one of the probes. -/
def keyMayMatch (reader : FullFilterReader) (probe : UInt32 → Nat → Region → Bool) (userKey : Bytes) :
    Bool :=
  probe (hash32 userKey probeSeed) reader.probes
    (reader.region ⟨regionOf (hash32 userKey bucketSeed) reader.regions, regionOf_lt _ reader.regions_pos⟩)

end FullFilterReader

/-! ## The probes agree -/

theorem powers_succ (hash : UInt32) (index : Nat) :
    hash * probeMultiplier * Avx2.powers index = hash * Avx2.powers (index + 1) := by
  rw [Avx2.powers, UInt32.mul_assoc, UInt32.mul_comm probeMultiplier]

theorem scalarMayMatch_iff {region : Region} (probes : Nat) : ∀ {hash : UInt32},
    scalarMayMatch hash probes region = true ↔
      ∀ p < probes, region.probe (hash * Avx2.powers p) = true := by
  induction probes with
  | zero => simp [scalarMayMatch]
  | succ probes ih =>
    intro hash
    have hfirst : hash * Avx2.powers 0 = hash := UInt32.mul_one hash
    rw [scalarMayMatch, Nat.forall_lt_succ_left, hfirst]
    cases region.probe hash with
    | false => simp
    | true =>
      rw [if_neg Bool.true_eq_false.mp, ih]
      simp only [powers_succ, true_and]

namespace Avx2

theorem getLsbD_load (bytes : Fin 32 → UInt8) (i : Fin 8) {j k : Nat} (hj : j < 4) (hk : k < 8) :
    (Lanes.load bytes i).getLsbD (8 * j + k) = (bytes ⟨4 * i + j, by omega⟩).toBitVec.getLsbD k :=
  Lanes.getLsbD_pack _ ⟨j, hj⟩ hk

theorem toNat_shiftRight_28 (hash : UInt32) : (hash >>> 28).toNat = hash.toNat / 2 ^ 28 := by
  rw [UInt32.toNat_shiftRight, ← Nat.shiftRight_eq_div_pow]
  rfl

theorem toNat_shiftRight_23 (hash : UInt32) : (hash >>> 23).toNat = hash.toNat / 2 ^ 23 := by
  rw [UInt32.toNat_shiftRight, ← Nat.shiftRight_eq_div_pow]
  rfl

/-- One bit of a region. -/
def bitOf (region : Region) (bit : Fin 512) : Bool :=
  (region ⟨bit / 8, by omega⟩).toBitVec.getLsbD (bit % 8)

theorem getLsbD_lower (region : Region) {bit : Nat} (h : bit < 256) {i : Fin 8}
    (hi : (i : Nat) = bit / 32) :
    (Lanes.load (fun i => region ⟨i, by omega⟩) i).getLsbD (bit % 32) =
      bitOf region ⟨bit, by omega⟩ := by
  have hsplit : bit % 32 = 8 * (bit % 32 / 8) + bit % 8 := by omega
  rw [hsplit, getLsbD_load _ i (by omega) (by omega), bitOf]
  congr 4
  dsimp only
  omega

theorem getLsbD_upper (region : Region) {bit : Nat} (hle : 256 ≤ bit) (hlt : bit < 512) {i : Fin 8}
    (hi : (i : Nat) = bit / 32 - 8) :
    (Lanes.load (fun i => region ⟨32 + i, by omega⟩) i).getLsbD (bit % 32) =
      bitOf region ⟨bit, hlt⟩ := by
  have hsplit : bit % 32 = 8 * (bit % 32 / 8) + bit % 8 := by omega
  rw [hsplit, getLsbD_load _ i (by omega) (by omega), bitOf]
  congr 4
  dsimp only
  omega

theorem getLsbD_word (region : Region) (hash : UInt32) {i : Fin 8}
    (hi : (i : Nat) = (hash >>> 28).toNat % 8) :
    (if hash.toBitVec.msb then Lanes.load (fun i => region ⟨32 + i, by omega⟩) i
      else Lanes.load (fun i => region ⟨i, by omega⟩) i).getLsbD ((hash >>> 23).toNat % 32) =
      region.probe hash := by
  have hlt := shiftRight_lt hash
  have hbit := toNat_shiftRight_23 hash
  have hmsb : hash.toBitVec.msb = decide (2 ^ 31 ≤ hash.toNat) := BitVec.msb_eq_decide _
  rw [toNat_shiftRight_28] at hi
  rw [hmsb, show region.probe hash = bitOf region ⟨_, hlt⟩ from testMask_eq _ _]
  by_cases hsign : 2 ^ 31 ≤ hash.toNat
  · rw [decide_eq_true hsign, if_pos rfl]
    exact getLsbD_upper region (by omega) hlt (by omega)
  · rw [decide_eq_false hsign, if_neg Bool.false_ne_true]
    exact getLsbD_lower region (by omega) (by omega)

theorem group_iff (region : Region) {remaining : Nat} (hremaining : remaining ≤ 30)
    (hashes : Fin 8 → UInt32) :
    group (Lanes.load (fun i => region ⟨i, by omega⟩)) (Lanes.load (fun i => region ⟨32 + i, by omega⟩))
        remaining (fun i => (hashes i).toBitVec) = true ↔
      ∀ i : Fin 8, (i : Nat) < remaining → region.probe (hashes i) = true := by
  have hbits (i : Fin 8) : (Lanes.and (Lanes.shiftRight (fun i => (hashes i).toBitVec) 23)
      (Lanes.broadcast 31#32) i).toNat = (hashes i >>> 23).toNat % 32 := by
    rw [Lanes.and, Lanes.shiftRight, Lanes.broadcast, BitVec.toNat_and]
    exact Nat.and_two_pow_sub_one_eq_mod _ 5
  have hactive (i : Fin 8) : Lanes.greater (Lanes.broadcast (BitVec.ofNat 32 remaining))
      (fun i => BitVec.ofNat 32 i) i =
        if (i : Nat) < remaining then BitVec.allOnes 32 else 0#32 := by
    have hsmall {n : Nat} (hn : n < 2 ^ 31) : (BitVec.ofNat 32 n).toInt = n := by
      have hnat : (BitVec.ofNat 32 n).toNat = n := Nat.mod_eq_of_lt (by omega)
      rw [BitVec.toInt_eq_toNat_of_lt (by omega), hnat]
    rw [Lanes.greater, Lanes.broadcast, hsmall (by omega), hsmall (by omega)]
    simp only [Int.ofNat_lt]
  rw [group, Lanes.testCarry_single (fun i => ?_) hactive]
  · refine forall_congr' (fun i => imp_congr_right (fun _ => ?_))
    rw [hbits, Lanes.blendBytes_eq (Lanes.shiftRightSigned_sign _ i), Lanes.permute, Lanes.permute,
      getLsbD_word region (hashes i)]
    rfl
  · rw [hbits]
    exact Nat.mod_lt _ (by decide)

/-- The hashes of the lanes for the probes from `offset` on. -/
def hashesAt (hash : UInt32) (offset : Nat) (i : Fin 8) : UInt32 := hash * powers (offset + i)

theorem powers_add (a b : Nat) : powers a * powers b = powers (a + b) := by
  induction b with
  | zero => exact UInt32.mul_one _
  | succ b ih => rw [powers, ← UInt32.mul_assoc, ih, Nat.add_succ, powers]

theorem mulLow_hashesAt (hash : UInt32) (offset : Nat) :
    Lanes.mulLow (fun i => (hashesAt hash offset i).toBitVec) (Lanes.broadcast (powers 8).toBitVec) =
      fun i => (hashesAt hash (offset + 8) i).toBitVec := by
  funext i
  rw [Lanes.mulLow, Lanes.broadcast, ← UInt32.toBitVec_mul, hashesAt, hashesAt, UInt32.mul_assoc,
    powers_add, Nat.add_right_comm]

theorem mayMatchFrom_iff {region : Region} {hash : UInt32} {probes : Nat} (hprobes : probes ≤ 30)
    (fuel : Nat) : ∀ (offset : Nat), probes ≤ offset + 8 * fuel →
    (mayMatchFrom (Lanes.load (fun i => region ⟨i, by omega⟩))
        (Lanes.load (fun i => region ⟨32 + i, by omega⟩)) probes fuel offset
        (fun i => (hashesAt hash offset i).toBitVec) = true ↔
      ∀ p, offset ≤ p → p < probes → region.probe (hash * powers p) = true) := by
  induction fuel with
  | zero =>
    intro offset hfuel
    rw [mayMatchFrom, iff_true_left rfl]
    intro p hp hlt
    omega
  | succ fuel ih =>
    intro offset hfuel
    rw [mayMatchFrom]
    by_cases hmore : offset < probes
    · rw [if_pos hmore]
      have hremaining : probes - offset ≤ 30 := by omega
      have hgroup := group_iff region hremaining (hashesAt hash offset)
      have hrest := ih (offset + 8) (by omega)
      rw [mulLow_hashesAt]
      constructor
      · intro h p hp hlt
        split at h
        · cases h
        · next hall =>
          rcases Nat.lt_or_ge p (offset + 8) with hlane | hlater
          · have hprobe := hgroup.mp (Bool.not_eq_false _ ▸ hall) ⟨p - offset, by omega⟩
              (show p - offset < probes - offset by omega)
            rwa [hashesAt, Nat.add_sub_cancel' hp] at hprobe
          · exact hrest.mp h p hlater hlt
      · intro h
        have hall := hgroup.mpr (fun i hi => h (offset + i) (Nat.le_add_right _ _) (by omega))
        rw [if_neg (by rw [hall]; exact Bool.true_eq_false.mp)]
        exact hrest.mpr (fun p hp => h p (by omega))
    · rw [if_neg hmore, iff_true_left rfl]
      intro p hp hlt
      omega

theorem mayMatch_eq (hash : UInt32) {probes : Nat} (hprobes : probes ≤ 30) (region : Region) :
    mayMatch hash probes region = scalarMayMatch hash probes region := by
  have hstart : Lanes.mulLow (Lanes.broadcast hash.toBitVec) (fun i => (powers i).toBitVec) =
      fun i => (hashesAt hash 0 i).toBitVec := by
    funext i
    rw [Lanes.mulLow, Lanes.broadcast, ← UInt32.toBitVec_mul, hashesAt, Nat.zero_add]
  rw [mayMatch, hstart, Bool.eq_iff_iff, mayMatchFrom_iff hprobes probes 0 (by omega),
    scalarMayMatch_iff]
  exact ⟨fun h p hp => h p (Nat.zero_le p) hp, fun h p _ hp => h p hp⟩

end Avx2

/-! ## Finished filters -/

namespace FullFilterBuilder

def hashPair (key : Bytes) : HashPair := ⟨hash32 key bucketSeed, hash32 key probeSeed⟩

theorem foldlM_addKey (keys : List Bytes) : ∀ {builder builder' : FullFilterBuilder},
    keys.foldlM addKey builder = .ok builder' →
    builder.hashes.length ≤ maximumKeyCount builder.policy.bitsPerKey →
    builder'.policy = builder.policy ∧ builder'.hashes = builder.hashes ++ keys.map hashPair ∧
      builder'.hashes.length ≤ maximumKeyCount builder.policy.bitsPerKey := by
  induction keys with
  | nil =>
    intro builder builder' h hle
    cases h
    exact ⟨rfl, (List.append_nil _).symm, hle⟩
  | cons key keys ih =>
    intro builder builder' h hle
    rw [List.foldlM_cons] at h
    obtain ⟨next, hadd, hrest⟩ := Result.bind_eq_ok.mp h
    rw [addKey] at hadd
    split at hadd
    · cases hadd
    · next hne =>
      cases hadd
      have hmore : builder.hashes.length + 1 ≤ maximumKeyCount builder.policy.bitsPerKey := by omega
      obtain ⟨hpolicy, hhashes, hlength⟩ := ih hrest (by
        rw [List.length_append]
        exact hmore)
      refine ⟨hpolicy, ?_, hlength⟩
      rw [hhashes, List.append_assoc]
      rfl

theorem regions_eq {builder : FullFilterBuilder}
    (hlength : builder.hashes.length ≤ maximumKeyCount builder.policy.bitsPerKey) :
    builder.regions =
        max 1 ((builder.hashes.length * builder.policy.bitsPerKey.toNat + 511) / 512) ∧
      builder.regions ≤ maximumRegions := by
  have hbits : builder.hashes.length * builder.policy.bitsPerKey.toNat ≤ maximumRegions * regionBits := by
    rw [maximumKeyCount] at hlength
    split at hlength
    · next hzero =>
      rw [hzero]
      exact Nat.zero_le _
    · have hle := Nat.le_trans hlength (Nat.min_le_left _ _)
      exact Nat.le_trans (Nat.mul_le_mul_right _ hle) (Nat.div_mul_le_self _ _)
  rw [regions]
  generalize builder.hashes.length * builder.policy.bitsPerKey.toNat = bits at hbits ⊢
  simp only [maximumRegions, regionBits, regionBytes, headerBytes] at hbits ⊢
  omega

/-- The bits of a key behind the header. -/
def hashPositions (probes regions : Nat) (hash : HashPair) : List Nat :=
  (probeBits probes hash.probes).map (8 * (regionOf hash.bucket regions * regionBytes) + ·)

theorem length_header (probes regions : Nat) : (header probes regions).length = headerBytes := rfl

theorem setHash_header (probes regions : Nat) (body : Bytes) (hash : HashPair) :
    setHash probes regions (header probes regions ++ body) hash =
      header probes regions ++ (hashPositions probes regions hash).foldl setBit body := by
  rw [setHash, ← foldl_setBit_append, hashPositions, List.map_map, length_header]
  congr 2
  funext bit
  show _ = 8 * headerBytes + (_ + bit)
  rw [Nat.mul_add, Nat.add_assoc]

theorem foldl_setHash_header (probes regions : Nat) (hashes : List HashPair) : ∀ body : Bytes,
    hashes.foldl (setHash probes regions) (header probes regions ++ body) =
      header probes regions ++
        (hashes.flatMap (hashPositions probes regions)).foldl setBit body := by
  induction hashes with
  | nil => exact fun _ => rfl
  | cons hash hashes ih =>
    intro body
    rw [List.foldl_cons, setHash_header, ih, List.flatMap_cons, List.foldl_append]

end FullFilterBuilder

theorem mem_probeBits {probes : Nat} : ∀ {value : UInt32} {bit : Nat},
    bit ∈ probeBits probes value ↔ ∃ p < probes, bit = ((value * Avx2.powers p) >>> 23).toNat := by
  induction probes with
  | zero => simp [probeBits]
  | succ probes ih =>
    intro value bit
    have hfirst : value * Avx2.powers 0 = value := UInt32.mul_one value
    rw [probeBits, List.mem_cons, ih, Nat.exists_lt_succ_left, hfirst]
    simp only [powers_succ]

theorem FullFilterReader.create_header {probes regions : Nat} {body : Bytes} (hprobes : 0 < probes)
    (hprobes' : probes ≤ 30) (hregions : 0 < regions) (hregions' : regions ≤ maximumRegions)
    (hbody : body.length = regions * regionBytes) :
    isFullFilterBlockSize (FullFilterBuilder.header probes regions ++ body).length = true ∧
    ∃ reader, FullFilterReader.create (FullFilterBuilder.header probes regions ++ body) = .ok reader ∧
      reader.contents = FullFilterBuilder.header probes regions ++ body ∧
      reader.regions = regions ∧ reader.probes = probes := by
  have hlength : (FullFilterBuilder.header probes regions ++ body).length =
      headerBytes + regions * regionBytes := by
    rw [List.length_append, FullFilterBuilder.length_header, hbody]
  have hsize : isFullFilterBlockSize (FullFilterBuilder.header probes regions ++ body).length = true := by
    rw [hlength, isFullFilterBlockSize_iff]
    simp only [maximumRegions, regionBytes, headerBytes] at hregions' ⊢
    omega
  have hmagic : decodeFixed ((FullFilterBuilder.header probes regions ++ body).take 4) = magic := by
    have hfour : (FullFilterBuilder.header probes regions ++ body).take 4 = encodeFixed 4 magic := rfl
    rw [hfour, decodeFixed_encodeFixed, Nat.mod_eq_of_lt (by decide)]
  have hcount : decodeFixed (((FullFilterBuilder.header probes regions ++ body).drop 8).take 4) =
      regions := by
    have hfour : ((FullFilterBuilder.header probes regions ++ body).drop 8).take 4 =
        encodeFixed 4 regions := rfl
    rw [hfour, decodeFixed_encodeFixed, Nat.mod_eq_of_lt]
    simp only [maximumRegions, regionBytes, headerBytes] at hregions'
    omega
  have hprobe : ((FullFilterBuilder.header probes regions ++ body).getD 4 0).toNat = probes := by
    have hfourth : (FullFilterBuilder.header probes regions ++ body).getD 4 0 = byteOf probes := rfl
    rw [hfourth, toNat_byteOf, Nat.mod_eq_of_lt (by omega)]
  refine ⟨hsize, ?_⟩
  rw [FullFilterReader.create, if_neg (by rw [hsize]; exact Bool.true_eq_false.mp),
    if_neg (fun h => h hmagic), if_neg (by rintro (h | h | h | h) <;> exact h rfl)]
  dsimp only
  rw [dif_neg (by rw [hprobe]; omega), dif_neg (by rw [hcount, hlength]; omega)]
  exact ⟨_, rfl, rfl, hcount, hprobe⟩

theorem FullFilterReader.probe_region (reader : FullFilterReader) (index : Fin reader.regions)
    (hash : UInt32) : (reader.region index).probe hash = bitIsSet reader.contents
      (8 * (headerBytes + index * regionBytes) + (hash >>> 23).toNat) := by
  rw [Region.probe, FullFilterReader.region, List.get_eq_getElem, bitIsSet, testMask_eq, testMask_eq,
    Nat.mul_add_mod, Nat.mul_add_div (by decide), List.getD_eq_getElem?_getD,
    List.getElem?_eq_getElem, Option.getD_some]

theorem FullFilterReader.keyMayMatch_scalar {reader : FullFilterReader} {front body key : Bytes}
    (hcontents : reader.contents = front ++ body) (hfront : front.length = headerBytes)
    (hset : ∀ bit ∈ FullFilterBuilder.hashPositions reader.probes reader.regions
      (FullFilterBuilder.hashPair key), bitIsSet body bit = true) :
    reader.keyMayMatch scalarMayMatch key = true := by
  rw [FullFilterReader.keyMayMatch, scalarMayMatch_iff]
  intro p hp
  have hbit := hset _ (List.mem_map_of_mem (mem_probeBits.mpr ⟨p, hp, rfl⟩))
  rw [← bitIsSet_append front, ← hcontents, hfront, ← Nat.add_assoc, ← Nat.mul_add] at hbit
  rw [reader.probe_region]
  exact hbit

theorem fullFilter_matches (policy : BloomFilterPolicy) (keys : List Bytes)
    (builder : FullFilterBuilder) (hkeys : FullFilterBuilder.addKeys policy keys = .ok builder) :
    (isFullFilterBlockSize builder.finish.length = true ∧ builder.finish.length < 2 ^ 32 ∧
      ∃ reader, FullFilterReader.create builder.finish = .ok reader ∧ reader.regions < 2 ^ 32 ∧
        reader.regions = max 1 ((keys.length * policy.bitsPerKey.toNat + 511) / 512) ∧
        ∀ key ∈ keys, reader.keyMayMatch scalarMayMatch key = true) ∧
    ∀ (hash : UInt32) (probes : Nat) (region : Region), 1 ≤ probes → probes ≤ 30 →
      Avx2.mayMatch hash probes region = scalarMayMatch hash probes region := by
  refine ⟨?_, fun hash probes region _ hprobes => Avx2.mayMatch_eq hash hprobes region⟩
  obtain ⟨hpolicy, hhashes, hlength⟩ := FullFilterBuilder.foldlM_addKey keys hkeys (Nat.zero_le _)
  rw [← hpolicy] at hlength
  obtain ⟨hcount, hle⟩ := FullFilterBuilder.regions_eq hlength
  have hpos : 0 < builder.regions := by omega
  have hfinish := FullFilterBuilder.foldl_setHash_header builder.policy.probes builder.regions
    builder.hashes (List.replicate (builder.regions * regionBytes) 0)
  rw [← FullFilterBuilder.finish] at hfinish
  have hinside : ∀ q ∈ builder.hashes.flatMap
      (FullFilterBuilder.hashPositions builder.policy.probes builder.regions),
      q / 8 < (List.replicate (builder.regions * regionBytes) (0 : UInt8)).length := by
    intro q hq
    obtain ⟨hash, _, hposition⟩ := List.mem_flatMap.mp hq
    obtain ⟨bit, hbit, rfl⟩ := List.mem_map.mp hposition
    obtain ⟨p, _, rfl⟩ := mem_probeBits.mp hbit
    have hbound := shiftRight_lt (hash.probes * Avx2.powers p)
    have hregion := Nat.mul_le_mul_right regionBytes (regionOf_lt hash.bucket hpos)
    rw [Nat.succ_mul] at hregion
    rw [List.length_replicate]
    simp only [regionBytes] at hregion ⊢
    omega
  obtain ⟨hsize, reader, hcreate, hcontents, hregions, hprobes⟩ :=
    FullFilterReader.create_header builder.policy.probes_pos builder.policy.probes_le hpos hle
      ((length_foldl_setBit _ _).trans List.length_replicate)
  rw [← hfinish] at hsize hcreate hcontents
  have hpayload := isFullFilterBlockSize_iff.mp hsize
  refine ⟨hsize, by omega, reader, hcreate, ?_, ?_, fun key hkey => ?_⟩
  · rw [hregions]
    exact Nat.lt_of_le_of_lt hle (by decide)
  · rw [hregions, hcount, hhashes, hpolicy, List.nil_append, List.length_map]
  · rw [hfinish] at hcontents
    refine FullFilterReader.keyMayMatch_scalar hcontents rfl (fun bit hbit => ?_)
    rw [bitIsSet_foldl_setBit hinside, Bool.or_eq_true, decide_eq_true_iff]
    right
    rw [hprobes, hregions] at hbit
    refine List.mem_flatMap.mpr ⟨_, ?_, hbit⟩
    rw [hhashes]
    exact List.mem_append_right _ (List.mem_map_of_mem hkey)

theorem fullFilter_matches_two :
    ∃ builder, FullFilterBuilder.addKeys ⟨10⟩ [[97], [98, 99]] = .ok builder ∧
      ∃ reader, FullFilterReader.create builder.finish = .ok reader ∧
        reader.keyMayMatch scalarMayMatch [97] = true := by
  obtain ⟨⟨_, _, reader, hcreate, _, _, hmatch⟩, _⟩ := fullFilter_matches ⟨10⟩ [[97], [98, 99]] _ rfl
  exact ⟨_, rfl, reader, hcreate, hmatch [97] List.mem_cons_self⟩

end ModernLevelDB
