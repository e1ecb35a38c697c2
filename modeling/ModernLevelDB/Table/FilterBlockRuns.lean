import ModernLevelDB.Table.BlockFinish
import ModernLevelDB.Table.FilterBlock

/-! # The keys of a filter block

Each range of block offsets has the keys that were added while it was the current one. What a builder
has written is a function of these keys, as long as its sizes are checked. -/
namespace ModernLevelDB
set_option autoImplicit false

namespace FilterBlockBuilder

/-! ## Keys in one piece -/

def startsFrom (offset : Nat) : List Bytes → List Nat
  | [] => []
  | key :: keys => offset :: startsFrom (offset + key.length) keys

theorem length_startsFrom (keys : List Bytes) : ∀ offset : Nat,
    (startsFrom offset keys).length = keys.length := by
  induction keys with
  | nil => exact fun _ => rfl
  | cons key keys ih => exact fun offset => congrArg (· + 1) (ih _)

theorem startsFrom_append (keys : List Bytes) (key : Bytes) : ∀ offset : Nat,
    startsFrom offset (keys ++ [key]) = startsFrom offset keys ++ [offset + keys.flatten.length] := by
  induction keys with
  | nil => exact fun _ => rfl
  | cons first keys ih =>
    intro offset
    rw [List.cons_append, startsFrom, startsFrom, ih, List.flatten_cons, List.length_append,
      List.cons_append, Nat.add_assoc]

theorem splitKeys_startsFrom (keys : List Bytes) : ∀ before : Bytes,
    splitKeys (before ++ keys.flatten)
      (startsFrom before.length keys ++ [before.length + keys.flatten.length]) = keys := by
  induction keys with
  | nil => exact fun _ => rfl
  | cons key keys ih =>
    intro before
    have hrest : splitKeys (before ++ (key :: keys).flatten)
        (startsFrom (before.length + key.length) keys ++
          [before.length + (key :: keys).flatten.length]) = keys := by
      have hkeys := ih (before ++ key)
      rw [List.length_append] at hkeys
      rwa [List.flatten_cons, ← List.append_assoc, List.length_append, ← Nat.add_assoc]
    -- The limit of the first key is the first of the other starts.
    have hlimit : ∃ starts, startsFrom (before.length + key.length) keys ++
        [before.length + (key :: keys).flatten.length] = (before.length + key.length) :: starts := by
      cases keys with
      | nil => exact ⟨[], by rw [List.flatten_singleton]; rfl⟩
      | cons next keys => exact ⟨_, rfl⟩
    obtain ⟨starts, hstarts⟩ := hlimit
    rw [hstarts] at hrest
    rw [startsFrom, List.cons_append, hstarts, splitKeys, hrest, Nat.add_sub_cancel_left,
      List.drop_left, List.flatten_cons, List.take_left]

/-! ## What a builder holds -/

def rangeFilter (policy : BloomFilterPolicy) (keys : List Bytes) : Bytes :=
  if keys.isEmpty then [] else policy.filterOf keys

def rangeStart (policy : BloomFilterPolicy) (ranges : List (List Bytes)) (i : Nat) : Nat :=
  ((ranges.take i).flatMap (rangeFilter policy)).length

/-- `ranges` are the keys of the filters so far, and `pending` those of the current range. -/
structure Holds (builder : FilterBlockBuilder) (ranges : List (List Bytes)) (pending : List Bytes) :
    Prop where
  result : builder.result = ranges.flatMap (rangeFilter builder.policy)
  offsets : builder.filterOffsets =
    (List.range ranges.length).map (rangeStart builder.policy ranges)
  keys : builder.keys = pending.flatten
  keyStarts : builder.keyStarts = startsFrom 0 pending
  small : (rangeFilter builder.policy pending).length + builder.result.length +
    4 * (ranges.length + min pending.length 1) + filterTrailerSize ≤ maximumFilterBlockSize

/-- The key belongs to range `i`. -/
def Located (ranges : List (List Bytes)) (pending : List Bytes) (i : Nat) (key : Bytes) : Prop :=
  (∃ keys, ranges[i]? = some keys ∧ key ∈ keys) ∨ i = ranges.length ∧ key ∈ pending

theorem Located.add {ranges : List (List Bytes)} {pending : List Bytes} {i : Nat} {key : Bytes}
    (h : Located ranges pending i key) (key' : Bytes) : Located ranges (pending ++ [key']) i key :=
  h.imp_right fun ⟨hi, hkey⟩ => ⟨hi, List.mem_append_left _ hkey⟩

theorem Located.generate {ranges : List (List Bytes)} {pending : List Bytes} {i : Nat} {key : Bytes}
    (h : Located ranges pending i key) : Located (ranges ++ [pending]) [] i key := by
  rcases h with ⟨keys, hkeys, hkey⟩ | ⟨rfl, hkey⟩
  · refine .inl ⟨keys, ?_, hkey⟩
    rw [List.getElem?_append_left (List.getElem?_eq_some_iff.mp hkeys).1, hkeys]
  · exact .inl ⟨pending, List.getElem?_concat_length, hkey⟩

theorem rangeStart_append (policy : BloomFilterPolicy) (ranges : List (List Bytes)) (keys : List Bytes)
    {i : Nat} (hi : i ≤ ranges.length) :
    rangeStart policy (ranges ++ [keys]) i = rangeStart policy ranges i := by
  rw [rangeStart, List.take_append_of_le_length hi, rangeStart]

theorem rangeStart_length (policy : BloomFilterPolicy) (ranges : List (List Bytes)) :
    rangeStart policy ranges ranges.length = (ranges.flatMap (rangeFilter policy)).length := by
  rw [rangeStart, List.take_length]

variable {builder builder' : FilterBlockBuilder} {ranges : List (List Bytes)} {pending : List Bytes}

theorem holds_create (policy : BloomFilterPolicy) : Holds { policy } [] [] :=
  ⟨rfl, rfl, rfl, rfl, show 0 + 0 + 4 * (0 + min 0 1) + 5 ≤ 2 ^ 32 - 1 by decide⟩

section

variable (h : Holds builder ranges pending)

include h

theorem Holds.isEmpty_keyStarts :
    builder.keyStarts.isEmpty = pending.isEmpty := by
  rw [h.keyStarts]
  cases pending <;> rfl

theorem Holds.length_offsets :
    builder.filterOffsets.length = ranges.length := by
  rw [h.offsets, List.length_map, List.length_range]

theorem Holds.length_rangeFilter :
    (rangeFilter builder.policy pending).length =
      if builder.keyStarts.isEmpty then 0 else builder.policy.filterSize builder.keyStarts.length := by
  rw [rangeFilter, h.isEmpty_keyStarts, h.keyStarts, length_startsFrom]
  split
  · rfl
  · exact builder.policy.length_filterOf pending

theorem Holds.addKey {key : Bytes}
    (hadd : builder.addKey key = .ok builder') : Holds builder' ranges (pending ++ [key]) := by
  rw [FilterBlockBuilder.addKey, h.length_offsets] at hadd
  split at hadd
  · cases hadd
  next hsmall =>
  cases hadd
  refine ⟨h.result, h.offsets, ?_, ?_, ?_⟩
  · rw [h.keys, List.flatten_append, List.flatten_singleton]
  · rw [h.keyStarts, h.keys, startsFrom_append, Nat.zero_add]
  · have hsize : (rangeFilter builder.policy (pending ++ [key])).length =
        builder.policy.filterSize (builder.keyStarts.length + 1) := by
      rw [rangeFilter, if_neg (by simp), BloomFilterPolicy.length_filterOf, h.keyStarts,
        length_startsFrom, List.length_append, List.length_singleton]
    dsimp only
    rw [hsize, List.length_append, List.length_singleton]
    omega

theorem Holds.generateFilter
    (hsmall : (rangeFilter builder.policy pending).length + builder.result.length +
      4 * (ranges.length + 1) + filterTrailerSize ≤ maximumFilterBlockSize) :
    Holds builder.generateFilter (ranges ++ [pending]) [] := by
  have hlength : builder.result.length % 2 ^ 32 = builder.result.length := by
    rw [maximumFilterBlockSize] at hsmall
    exact Nat.mod_eq_of_lt (by omega)
  have hoffsets : builder.filterOffsets ++ [builder.result.length % 2 ^ 32] =
      (List.range (ranges ++ [pending]).length).map (rangeStart builder.policy (ranges ++ [pending])) := by
    rw [hlength, List.length_append, List.length_singleton, List.range_succ, List.map_append,
      List.map_singleton, rangeStart_append _ _ _ (Nat.le_refl _), rangeStart_length, ← h.result, h.offsets]
    refine congrArg (· ++ _) (List.map_congr_left fun i hi => ?_)
    rw [rangeStart_append _ _ _ (List.mem_range.mp hi).le]
  have hresult : (ranges ++ [pending]).flatMap (rangeFilter builder.policy) =
      builder.result ++ rangeFilter builder.policy pending := by
    rw [List.flatMap_append, List.flatMap_singleton, ← h.result]
  have hlimit : builder.keys.length = 0 + pending.flatten.length := by
    rw [h.keys, Nat.zero_add]
  rw [FilterBlockBuilder.generateFilter, h.isEmpty_keyStarts]
  dsimp only
  split
  · next hempty =>
    obtain rfl : pending = [] := List.isEmpty_iff.mp hempty
    refine ⟨?_, hoffsets, h.keys, h.keyStarts, ?_⟩
    · rw [hresult]
      exact (List.append_nil _).symm
    · simp only [List.length_append, List.length_singleton, List.length_nil] at hsmall ⊢
      omega
  · next hsome =>
    have hsplit := splitKeys_startsFrom pending []
    rw [List.nil_append, List.length_nil, ← hlimit, ← h.keys, ← h.keyStarts] at hsplit
    have hfilter : rangeFilter builder.policy pending = builder.policy.filterOf pending :=
      if_neg hsome
    refine ⟨?_, hoffsets, rfl, rfl, ?_⟩
    · dsimp only
      rw [hsplit, BloomFilterPolicy.createFilter_eq, hresult, hfilter]
    · dsimp only
      rw [hsplit, BloomFilterPolicy.createFilter_eq, ← hfilter]
      simp only [List.length_append, List.length_singleton, List.length_nil] at hsmall ⊢
      have hnone : (rangeFilter builder.policy []).length = 0 := rfl
      omega

end

theorem policy_generateFilter : builder.generateFilter.policy = builder.policy := by
  rw [FilterBlockBuilder.generateFilter]
  dsimp only
  split <;> rfl

theorem Holds.generateFilters (rounds : Nat) : ∀ {builder : FilterBlockBuilder}
    {ranges : List (List Bytes)} {pending : List Bytes}, Holds builder ranges pending →
    (rangeFilter builder.policy pending).length + builder.result.length +
      4 * (ranges.length + rounds) + filterTrailerSize ≤ maximumFilterBlockSize → rounds ≠ 0 →
    ∃ ranges', Holds (builder.generateFilters rounds) ranges' [] ∧
      ranges'.length = ranges.length + rounds ∧
      ∀ {i : Nat} {key : Bytes}, Located ranges pending i key → Located ranges' [] i key := by
  induction rounds with
  | zero => exact fun _ _ h => absurd rfl h
  | succ rounds ih =>
    intro builder ranges pending h hsmall _
    have hnext := h.generateFilter (by omega)
    have hresult : builder.generateFilter.result.length =
        builder.result.length + (rangeFilter builder.policy pending).length := by
      rw [hnext.result, policy_generateFilter, List.flatMap_append, List.flatMap_singleton, ← h.result,
        List.length_append]
    rcases Nat.eq_zero_or_pos rounds with rfl | hpos
    · exact ⟨_, hnext, by rw [List.length_append, List.length_singleton], fun h => h.generate⟩
    · obtain ⟨ranges', hlast, hlength, hlocated⟩ := ih hnext (by
        rw [hresult, List.length_append, List.length_singleton]
        have hnone : (rangeFilter builder.generateFilter.policy []).length = 0 := rfl
        omega) hpos.ne'
      refine ⟨ranges', hlast, ?_, fun h => hlocated h.generate⟩
      rw [hlength, List.length_append, List.length_singleton]
      omega

theorem Holds.startBlock (h : Holds builder ranges pending) {blockOffset : Nat}
    (hle : ranges.length ≤ blockOffset >>> filterRangeShift)
    (hstart : builder.startBlock blockOffset = .ok builder') :
    ∃ ranges' pending', Holds builder' ranges' pending' ∧
      ranges'.length = blockOffset >>> filterRangeShift ∧
      ∀ {i : Nat} {key : Bytes}, Located ranges pending i key → Located ranges' pending' i key := by
  rw [FilterBlockBuilder.startBlock, h.length_offsets] at hstart
  dsimp only at hstart
  split at hstart
  · next heq =>
    cases hstart
    exact ⟨ranges, pending, h, heq.symm, fun h => h⟩
  next hne =>
  rw [← h.length_rangeFilter] at hstart
  split at hstart
  · cases hstart
  next hsmall =>
  cases hstart
  obtain ⟨ranges', hlast, hlength, hlocated⟩ := Holds.generateFilters
    (blockOffset >>> filterRangeShift - ranges.length) h (by omega) (by omega)
  exact ⟨ranges', [], hlast, by omega, hlocated⟩

/-! ## The finished block -/

def encodedRanges (policy : BloomFilterPolicy) (ranges : List (List Bytes)) : Bytes :=
  ranges.flatMap (rangeFilter policy) ++
    (((List.range (ranges.length + 1)).map (rangeStart policy ranges)).flatMap (encodeFixed 4) ++
      [byteOf filterRangeShift])

theorem length_encodedRanges (policy : BloomFilterPolicy) (ranges : List (List Bytes)) :
    (encodedRanges policy ranges).length = (ranges.flatMap (rangeFilter policy)).length +
      4 * ranges.length + filterTrailerSize := by
  rw [encodedRanges, List.length_append, List.length_append, BlockBuilder.length_flatMap_fixed,
    List.length_map, List.length_range, List.length_singleton, filterTrailerSize]
  omega

theorem Holds.encoded (h : Holds builder ranges []) :
    builder.result ++ builder.filterOffsets.flatMap (encodeFixed 4) ++
        encodeFixed 4 (builder.result.length % 2 ^ 32) ++ [byteOf filterRangeShift] =
      encodedRanges builder.policy ranges ∧
    (encodedRanges builder.policy ranges).length ≤ maximumFilterBlockSize := by
  have hsmall := h.small
  have hnone : (rangeFilter builder.policy []).length = 0 := rfl
  rw [hnone, List.length_nil] at hsmall
  constructor
  · rw [Nat.mod_eq_of_lt (by rw [maximumFilterBlockSize] at hsmall; omega), encodedRanges,
      List.range_succ, List.map_append, List.map_singleton, List.flatMap_append, List.flatMap_singleton,
      rangeStart_length, ← h.result, ← h.offsets]
    simp only [List.append_assoc]
  · rw [length_encodedRanges, ← h.result]
    omega

theorem Holds.finish (h : Holds builder ranges pending) :
    ∃ ranges', builder.finish = encodedRanges builder.policy ranges' ∧
      (encodedRanges builder.policy ranges').length ≤ maximumFilterBlockSize ∧
      ∀ {i : Nat} {key : Bytes}, Located ranges pending i key →
        ∃ keys, ranges'[i]? = some keys ∧ key ∈ keys := by
  have hfound {ranges : List (List Bytes)} {i : Nat} {key : Bytes} (hkey : Located ranges [] i key) :
      ∃ keys, ranges[i]? = some keys ∧ key ∈ keys :=
    hkey.resolve_right fun ⟨_, hnone⟩ => absurd hnone List.not_mem_nil
  rw [FilterBlockBuilder.finish, h.isEmpty_keyStarts]
  cases hpending : pending with
  | nil =>
    subst hpending
    exact ⟨ranges, h.encoded.1, h.encoded.2, hfound⟩
  | cons key keys =>
    have hsmall := h.small
    rw [hpending, List.length_cons, Nat.min_eq_right (Nat.le_add_left _ _), ← hpending] at hsmall
    have hnext := h.generateFilter hsmall
    have hencoded := hnext.encoded
    rw [policy_generateFilter] at hencoded
    refine ⟨_, hencoded.1, hencoded.2, fun hkey => hfound ?_⟩
    rw [← hpending] at hkey
    exact hkey.generate

end FilterBlockBuilder

/-! ## Reading -/

namespace FilterBlockReader

open FilterBlockBuilder

variable {policy : BloomFilterPolicy} {ranges : List (List Bytes)}

/-- What `Create` makes of a block with these filters. -/
def ofRanges (policy : BloomFilterPolicy) (ranges : List (List Bytes)) : FilterBlockReader :=
  ⟨encodedRanges policy ranges, (ranges.flatMap (rangeFilter policy)).length, ranges.length⟩

theorem rangeStart_le (policy : BloomFilterPolicy) (ranges : List (List Bytes)) (i : Nat) :
    rangeStart policy ranges i ≤ (ranges.flatMap (rangeFilter policy)).length := by
  conv_rhs => rw [← List.take_append_drop i ranges, List.flatMap_append, List.length_append]
  exact Nat.le_add_right _ _

theorem filterOffset_ofRanges
    (hsmall : (encodedRanges policy ranges).length ≤ maximumFilterBlockSize) {i : Nat}
    (hi : i ≤ ranges.length) :
    (ofRanges policy ranges).filterOffset i = rangeStart policy ranges i := by
  have hle := rangeStart_le policy ranges i
  have hvalue : ((List.range (ranges.length + 1)).map (rangeStart policy ranges))[i]? =
      some (rangeStart policy ranges i) := by
    rw [List.getElem?_map, List.getElem?_range (Nat.lt_succ_of_le hi)]
    rfl
  rw [length_encodedRanges, maximumFilterBlockSize] at hsmall
  rw [filterOffset, ofRanges, encodedRanges]
  dsimp only
  rw [← List.drop_drop, List.drop_left, BlockBuilder.take_flatMap_fixed _ _ hvalue,
    decodeFixed_encodeFixed]
  exact Nat.mod_eq_of_lt (by omega)

theorem rangeStart_succ {i : Nat} {keys : List Bytes} (hkeys : ranges[i]? = some keys) :
    rangeStart policy ranges (i + 1) = rangeStart policy ranges i + (rangeFilter policy keys).length := by
  rw [rangeStart, List.take_add_one, hkeys, Option.toList_some, List.flatMap_append,
    List.flatMap_singleton, List.length_append, rangeStart]

theorem rangeStart_mono {i : Nat} :
    rangeStart policy ranges i ≤ rangeStart policy ranges (i + 1) := by
  cases hkeys : ranges[i]? with
  | none =>
    have hge := List.getElem?_eq_none_iff.mp hkeys
    rw [rangeStart, rangeStart, List.take_of_length_le hge, List.take_of_length_le (by omega)]
  | some keys =>
    rw [rangeStart_succ hkeys]
    exact Nat.le_add_right _ _

section

variable (hsmall : (encodedRanges policy ranges).length ≤ maximumFilterBlockSize)

include hsmall

theorem offsetsAreValid_ofRanges :
    (ofRanges policy ranges).offsetsAreValid = true := by
  -- The previous offset is the start of the range before.
  have hfrom (left : Nat) : ∀ index : Nat, index + left = ranges.length + 1 →
      (ofRanges policy ranges).offsetsAreValidFrom left index
        (rangeStart policy ranges (index - 1)) = true := by
    induction left with
    | zero => exact fun _ _ => rfl
    | succ left ih =>
      intro index hindex
      have hoffset := filterOffset_ofRanges hsmall (show index ≤ ranges.length by omega)
      rw [offsetsAreValidFrom, hoffset]
      have hvalid : ¬(index = 0 ∧ rangeStart policy ranges index ≠ 0 ∨
          rangeStart policy ranges index < rangeStart policy ranges (index - 1)) := by
        cases index with
        | zero => exact fun h => h.elim (fun h => h.2 rfl) (Nat.lt_irrefl _)
        | succ index =>
          have hmono : rangeStart policy ranges index ≤ rangeStart policy ranges (index + 1) :=
            rangeStart_mono
          rw [Nat.add_sub_cancel]
          omega
      rw [if_neg hvalid]
      exact ih (index + 1) (by omega)
  exact hfrom (ranges.length + 1) 0 (Nat.zero_add _)

theorem create_ofRanges :
    create (encodedRanges policy ranges) = .ok (ofRanges policy ranges) := by
  have hlength := length_encodedRanges policy ranges
  have hlast : ((encodedRanges policy ranges).getLastD 0).toNat = filterRangeShift := by
    rw [encodedRanges, ← List.append_assoc, List.getLastD_concat]
    rfl
  have hend : (encodedRanges policy ranges).length - filterTrailerSize =
      (ranges.flatMap (rangeFilter policy)).length + 4 * ranges.length := by
    omega
  have harray : decodeFixed (((encodedRanges policy ranges).drop
      ((ranges.flatMap (rangeFilter policy)).length + 4 * ranges.length)).take 4) =
        (ranges.flatMap (rangeFilter policy)).length :=
    (filterOffset_ofRanges hsmall (Nat.le_refl _)).trans (rangeStart_length policy ranges)
  have hcount : ((ranges.flatMap (rangeFilter policy)).length + 4 * ranges.length -
      (ranges.flatMap (rangeFilter policy)).length) / 4 = ranges.length := by
    omega
  have hvalid := offsetsAreValid_ofRanges hsmall
  rw [ofRanges] at hvalid ⊢
  rw [create, if_neg (by omega), if_neg (not_not_intro hlast), hend]
  dsimp only
  rw [harray, if_neg (by omega), hcount, hvalid]
  rfl

/-- The key of a range matches at every offset in the range. -/
theorem keyMayMatch_ofRanges {blockOffset : Nat}
    {keys : List Bytes} (hkeys : ranges[blockOffset >>> filterRangeShift]? = some keys) {key : Bytes}
    (hkey : key ∈ keys) : (ofRanges policy ranges).keyMayMatch blockOffset key = true := by
  obtain ⟨hlt, hget⟩ := List.getElem?_eq_some_iff.mp hkeys
  have hcount : ¬blockOffset >>> filterRangeShift ≥ (ofRanges policy ranges).filterCount :=
    Nat.not_le_of_lt hlt
  have hsplit : ranges.flatMap (rangeFilter policy) =
      (ranges.take (blockOffset >>> filterRangeShift)).flatMap (rangeFilter policy) ++
        (rangeFilter policy keys ++
          (ranges.drop (blockOffset >>> filterRangeShift + 1)).flatMap (rangeFilter policy)) := by
    conv_lhs => rw [← List.take_append_drop (blockOffset >>> filterRangeShift) ranges,
      List.drop_eq_getElem_cons hlt, hget]
    rw [List.flatMap_append, List.flatMap_cons]
  have hfilter : rangeFilter policy keys = policy.filterOf keys := by
    rw [rangeFilter, if_neg]
    exact fun hempty => List.not_mem_nil (List.isEmpty_iff.mp hempty ▸ hkey)
  rw [keyMayMatch, if_neg hcount, filterOffset_ofRanges hsmall hlt.le,
    filterOffset_ofRanges hsmall hlt, rangeStart_succ hkeys]
  dsimp only
  rw [Nat.add_sub_cancel_left, ofRanges, encodedRanges, hsplit, List.append_assoc, rangeStart,
    List.drop_left, List.append_assoc, List.take_left, hfilter]
  exact policy.keyMayMatch_filterOf hkey

end

end FilterBlockReader

end ModernLevelDB
