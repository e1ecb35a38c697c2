import ModernLevelDB.Table.FilterBlock
import ModernLevelDB.Table.FullFilter

/-! # Filters of arbitrary bytes

The two readers with every access checked: a byte or a view outside the contents, a size below zero
and a remainder by zero give `none`. On contents that `Create` accepts they give what the unchecked
readers give. -/
namespace ModernLevelDB
set_option autoImplicit false

open BitArray FullFilter

namespace FilterAccess

def view (contents : Bytes) (offset size : Nat) : Option Bytes :=
  if offset + size ≤ contents.length then some ((contents.drop offset).take size) else none

def probeFrom (filter : Bytes) (bits : Nat) (delta : UInt32) : (probes : Nat) → UInt32 → Option Bool
  | 0, _ => some true
  | probes + 1, hash =>
      if bits = 0 then none
      else do
        let byte ← filter[hash.toNat % bits / 8]?
        if testMask byte (hash.toNat % bits) = false then some false
        else probeFrom filter bits delta probes (hash + delta)

def bloomMayMatch (key filter : Bytes) : Option Bool :=
  if filter.length < 2 then some false
  else do
    let last ← filter[filter.length - 1]?
    if last.toNat > 30 then some true
    else
      let hash := BloomFilterPolicy.bloomHash key
      probeFrom filter ((filter.length - 1) * 8) (BloomFilterPolicy.bloomHashDelta hash) last.toNat hash

def filterOffset (reader : FilterBlockReader) (index : Nat) : Option Nat :=
  (view reader.contents (reader.arrayOffset + 4 * index) 4).map decodeFixed

def keyMayMatch (reader : FilterBlockReader) (blockOffset : Nat) (key : Bytes) : Option Bool :=
  let index := blockOffset >>> filterRangeShift
  if index ≥ reader.filterCount then some true
  else do
    let start ← filterOffset reader index
    let limit ← filterOffset reader (index + 1)
    if limit < start then none
    else do
      let filter ← view reader.contents start (limit - start)
      bloomMayMatch key filter

def scalarMayMatch (contents : Bytes) (offset : Nat) : (hash : UInt32) → (probes : Nat) → Option Bool
  | _, 0 => some true
  | hash, probes + 1 => do
      let byte ← contents[offset + (hash >>> 23).toNat / 8]?
      if testMask byte (hash >>> 23).toNat = false then some false
      else scalarMayMatch contents offset (hash * probeMultiplier) probes

/-- `Avx2::MayMatch`, which loads the two halves of a region at once. -/
def avx2MayMatch (contents : Bytes) (offset : Nat) (hash : UInt32) (probes : Nat) : Option Bool := do
  let lower ← view contents offset 32
  let upper ← view contents (offset + 32) 32
  some (Avx2.mayMatch hash probes fun i => (lower ++ upper).getD i 0)

def fullMayMatch (reader : FullFilterReader)
    (probe : Bytes → Nat → UInt32 → Nat → Option Bool) (userKey : Bytes) : Option Bool :=
  probe reader.contents (headerBytes + regionOf (hash32 userKey bucketSeed) reader.regions * regionBytes)
    (hash32 userKey probeSeed) reader.probes

/-! ## Bloom filters -/

theorem probeFrom_eq {filter : Bytes} {bits : Nat} (hbits : 0 < bits) (hfits : bits ≤ filter.length * 8)
    (delta : UInt32) (probes : Nat) : ∀ hash : UInt32, probeFrom filter bits delta probes hash =
      some ((BloomFilterPolicy.bitPositions bits delta probes hash).all (bitIsSet filter)) := by
  induction probes with
  | zero => exact fun _ => rfl
  | succ probes ih =>
    intro hash
    have hlt := Nat.mod_lt hash.toNat hbits
    have hin : hash.toNat % bits / 8 < filter.length := by omega
    rw [probeFrom, if_neg (Nat.ne_of_gt hbits), List.getElem?_eq_getElem hin,
      BloomFilterPolicy.bitPositions, List.all_cons, bitIsSet, List.getD_eq_getElem?_getD,
      List.getElem?_eq_getElem hin, Option.getD_some]
    dsimp only [Option.bind_eq_bind, Option.bind_some]
    split
    · next hclear => rw [hclear, Bool.false_and]
    · next hset => rw [ih, Bool.eq_true_of_not_eq_false hset, Bool.true_and]

theorem bloomMayMatch_eq (key filter : Bytes) :
    bloomMayMatch key filter = some (BloomFilterPolicy.keyMayMatch key filter) := by
  rw [bloomMayMatch, BloomFilterPolicy.keyMayMatch]
  split
  · rfl
  · next hlong =>
    have hin : filter.length - 1 < filter.length := by omega
    have hlast : filter[filter.length - 1]? = some (filter.getLastD 0) := by
      rw [List.getLastD_eq_getLast?, List.getLast?_eq_getElem?, List.getElem?_eq_getElem hin,
        Option.getD_some]
    rw [hlast]
    dsimp only [Option.bind_eq_bind, Option.bind_some]
    split
    · rfl
    · exact probeFrom_eq (by omega) (by omega) _ _ _

/-! ## Filter blocks -/

variable {contents : Bytes} {reader : FilterBlockReader}

/-- What the checks at the opening leave. -/
structure Accepted (contents : Bytes) (reader : FilterBlockReader) : Prop where
  contents_eq : reader.contents = contents
  size_eq : contents.length = reader.arrayOffset + 4 * reader.filterCount + filterTrailerSize
  last_eq : reader.filterOffset reader.filterCount = reader.arrayOffset
  valid : reader.offsetsAreValid = true

theorem accepted_of_create (h : FilterBlockReader.create contents = .ok reader) :
    Accepted contents reader := by
  rw [FilterBlockReader.create] at h
  split at h
  · cases h
  split at h
  · cases h
  dsimp only at h
  split at h
  · cases h
  split at h
  · cases h
  next hsize _ harray hvalid =>
    cases h
    simp only [filterTrailerSize] at hsize harray
    have hcount : decodeFixed ((contents.drop (contents.length - 5)).take 4) +
        4 * ((contents.length - 5 - decodeFixed ((contents.drop (contents.length - 5)).take 4)) / 4) =
          contents.length - 5 := by omega
    refine ⟨rfl, ?_, ?_, Bool.eq_true_of_not_eq_false hvalid⟩
    · simp only [filterTrailerSize]
      omega
    · simp only [FilterBlockReader.filterOffset, filterTrailerSize]
      rw [hcount]

theorem offsets_of_valid (reader : FilterBlockReader) (left : Nat) : ∀ {index previous : Nat},
    reader.offsetsAreValidFrom left index previous = true →
      (0 < left → previous ≤ reader.filterOffset index ∧ (index = 0 → reader.filterOffset 0 = 0)) ∧
        ∀ i, index ≤ i → i + 1 < index + left → reader.filterOffset i ≤ reader.filterOffset (i + 1) := by
  induction left with
  | zero => exact fun _ => ⟨fun h => absurd h (Nat.lt_irrefl 0), fun i hle hlt => by omega⟩
  | succ left ih =>
    intro index previous h
    rw [FilterBlockReader.offsetsAreValidFrom] at h
    split at h
    · cases h
    · next hok =>
      obtain ⟨hfirst, hrest⟩ := ih h
      refine ⟨fun _ => ⟨by omega, fun hzero => ?_⟩, fun i hle hlt => ?_⟩
      · subst hzero
        omega
      · rcases Nat.eq_or_lt_of_le hle with rfl | hlt'
        · exact (hfirst (by omega)).1
        · exact hrest i hlt' (by omega)

namespace Accepted

variable (h : Accepted contents reader)

include h

theorem offsets : reader.filterOffset 0 = 0 ∧
    ∀ i < reader.filterCount, reader.filterOffset i ≤ reader.filterOffset (i + 1) := by
  obtain ⟨hfirst, hrest⟩ := offsets_of_valid reader _ h.valid
  exact ⟨(hfirst (Nat.succ_pos _)).2 rfl, fun i hi => hrest i (Nat.zero_le i) (by omega)⟩

theorem offset_le {i : Nat} (hi : i ≤ reader.filterCount) :
    reader.filterOffset i ≤ reader.arrayOffset := by
  rw [← h.last_eq]
  induction hi using Nat.decreasingInduction with
  | self => exact Nat.le_refl _
  | of_succ i hi ih => exact Nat.le_trans (h.offsets.2 i hi) ih

theorem filterOffset_eq {index : Nat} (hi : index ≤ reader.filterCount) :
    filterOffset reader index = some (reader.filterOffset index) := by
  have hsize := h.size_eq
  simp only [filterTrailerSize] at hsize
  rw [filterOffset, view, h.contents_eq, if_pos (by omega), Option.map_some,
    FilterBlockReader.filterOffset, h.contents_eq]

theorem keyMayMatch_eq (blockOffset : Nat) (key : Bytes) :
    keyMayMatch reader blockOffset key = some (reader.keyMayMatch blockOffset key) := by
  rw [keyMayMatch, FilterBlockReader.keyMayMatch]
  generalize blockOffset >>> filterRangeShift = index
  dsimp only
  split
  · rfl
  · next hindex =>
    have hlt : index + 1 ≤ reader.filterCount := Nat.lt_of_not_le hindex
    have hle := h.offsets.2 index hlt
    have hlimit := h.offset_le hlt
    have hsize := h.size_eq
    rw [h.filterOffset_eq (Nat.le_of_lt hlt), h.filterOffset_eq hlt]
    dsimp only [Option.bind_eq_bind, Option.bind_some]
    rw [if_neg (Nat.not_lt.mpr hle), view, h.contents_eq, if_pos (by omega), Option.bind_some,
      bloomMayMatch_eq]

theorem partition : (List.range reader.filterCount).flatMap (fun i =>
      (contents.drop (reader.filterOffset i)).take (reader.filterOffset (i + 1) - reader.filterOffset i)) =
    contents.take reader.arrayOffset := by
  suffices hpart : ∀ n ≤ reader.filterCount, (List.range n).flatMap (fun i =>
      (contents.drop (reader.filterOffset i)).take (reader.filterOffset (i + 1) - reader.filterOffset i)) =
        contents.take (reader.filterOffset n) by
    rw [hpart _ (Nat.le_refl _), h.last_eq]
  intro n
  induction n with
  | zero => simp [h.offsets.1]
  | succ n ih =>
    intro hn
    have hle := h.offsets.2 n hn
    rw [List.range_succ, List.flatMap_append, ih (Nat.le_of_lt hn), List.flatMap_singleton,
      ← List.take_add, Nat.add_sub_cancel' hle]

end Accepted

/-! ## Filters of whole tables -/

variable (full : FullFilterReader) (index : Fin full.regions)

theorem region_inside : headerBytes + index * regionBytes + regionBytes ≤ full.contents.length := by
  have hsize := full.size_eq
  have hindex : (index + 1) * regionBytes ≤ full.regions * regionBytes :=
    Nat.mul_le_mul_right _ index.isLt
  rw [Nat.succ_mul] at hindex
  omega

omit index in
theorem contents_of_create {contents : Bytes} {full : FullFilterReader}
    (h : FullFilterReader.create contents = .ok full) : full.contents = contents := by
  rw [FullFilterReader.create] at h
  split at h
  · cases h
  split at h
  · cases h
  split at h
  · cases h
  dsimp only at h
  split at h
  · cases h
  split at h
  · cases h
  cases h
  rfl

theorem scalarMayMatch_eq (probes : Nat) : ∀ hash : UInt32,
    scalarMayMatch full.contents (headerBytes + index * regionBytes) hash probes =
      some (ModernLevelDB.scalarMayMatch hash probes (full.region index)) := by
  induction probes with
  | zero => exact fun _ => rfl
  | succ probes ih =>
    intro hash
    have hbit := shiftRight_lt hash
    have hinside := region_inside full index
    have hin : headerBytes + index * regionBytes + (hash >>> 23).toNat / 8 < full.contents.length := by
      simp only [regionBytes] at hinside ⊢
      omega
    rw [scalarMayMatch, List.getElem?_eq_getElem hin, ModernLevelDB.scalarMayMatch, Region.probe]
    dsimp only [Option.bind_eq_bind, Option.bind_some]
    rw [ih]
    split
    · next hclear => exact (if_pos hclear).symm ▸ rfl
    · next hset => exact (if_neg hset).symm ▸ rfl

theorem avx2MayMatch_eq (hash : UInt32) (probes : Nat) :
    avx2MayMatch full.contents (headerBytes + index * regionBytes) hash probes =
      some (Avx2.mayMatch hash probes (full.region index)) := by
  have hinside := region_inside full index
  simp only [regionBytes] at hinside
  rw [avx2MayMatch, view, view, if_pos (by simp only [regionBytes]; omega),
    if_pos (by simp only [regionBytes]; omega)]
  dsimp only [Option.bind_eq_bind, Option.bind_some]
  congr 2
  funext i
  have hin : headerBytes + index * regionBytes + i < full.contents.length := by
    simp only [regionBytes]
    omega
  have hhalves (offset : Nat) : (full.contents.drop offset).take 32 ++
      (full.contents.drop (offset + 32)).take 32 = (full.contents.drop offset).take (32 + 32) := by
    rw [List.take_add, List.drop_drop]
  rw [hhalves, List.getD_eq_getElem?_getD, List.getElem?_take_of_lt i.isLt, List.getElem?_drop,
    List.getElem?_eq_getElem hin]
  rfl

/-- Whatever bytes `Create` accepts, a probe reads inside them and ends with the result of the
unchecked one. The filters of a block are one behind the other up to the array of their offsets, and
the region of every key is inside a full filter. -/
theorem filter_readers_in_bounds {contents fullContents : Bytes} {reader : FilterBlockReader}
    {full : FullFilterReader} (h : FilterBlockReader.create contents = .ok reader)
    (hfull : FullFilterReader.create fullContents = .ok full) :
    (∀ (blockOffset : Nat) (key : Bytes),
      keyMayMatch reader blockOffset key = some (reader.keyMayMatch blockOffset key)) ∧
    (reader.filterOffset 0 = 0 ∧
      (∀ i < reader.filterCount, reader.filterOffset i ≤ reader.filterOffset (i + 1)) ∧
      reader.filterOffset reader.filterCount = reader.arrayOffset) ∧
    ((List.range reader.filterCount).flatMap (fun i => (contents.drop (reader.filterOffset i)).take
      (reader.filterOffset (i + 1) - reader.filterOffset i)) = contents.take reader.arrayOffset) ∧
    ∀ userKey : Bytes,
      headerBytes + regionOf (hash32 userKey bucketSeed) full.regions * regionBytes + regionBytes ≤
          fullContents.length ∧
        fullMayMatch full scalarMayMatch userKey =
          some (full.keyMayMatch ModernLevelDB.scalarMayMatch userKey) ∧
        fullMayMatch full avx2MayMatch userKey = some (full.keyMayMatch Avx2.mayMatch userKey) := by
  have haccepted := accepted_of_create h
  refine ⟨haccepted.keyMayMatch_eq, ⟨haccepted.offsets.1, haccepted.offsets.2, haccepted.last_eq⟩,
    haccepted.partition, fun userKey => ?_⟩
  have hregion := regionOf_lt (hash32 userKey bucketSeed) full.regions_pos
  refine ⟨?_, scalarMayMatch_eq full ⟨_, hregion⟩ _ _, avx2MayMatch_eq full ⟨_, hregion⟩ _ _⟩
  rw [← contents_of_create hfull]
  exact region_inside full ⟨_, hregion⟩

/-- One filter of two bytes, and a full filter of one region. -/
theorem filter_readers_in_bounds_small :
    ∃ reader, FilterBlockReader.create [0xff, 1, 0, 0, 0, 0, 2, 0, 0, 0, 11] = .ok reader ∧
      keyMayMatch reader 0 [7] = some (reader.keyMayMatch 0 [7]) := by
  obtain ⟨reader, h⟩ : ∃ reader,
      FilterBlockReader.create [0xff, 1, 0, 0, 0, 0, 2, 0, 0, 0, 11] = .ok reader := ⟨_, rfl⟩
  obtain ⟨full, hfull⟩ : ∃ full, FullFilterReader.create
      (FullFilterBuilder.header 1 1 ++ List.replicate 64 0) = .ok full := ⟨_, rfl⟩
  exact ⟨reader, h, (filter_readers_in_bounds h hfull).1 0 [7]⟩

end FilterAccess
end ModernLevelDB
