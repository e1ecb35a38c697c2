import ModernLevelDB.Table.BlockBuilder
import ModernLevelDB.Table.VarintLoops

/-! # What a finished block holds

The builder's bytes, row by row. `Rows` says what an iterator may rely on: where each entry begins,
which bytes its key shares with the one before, and at which entries the restart points are. -/
namespace ModernLevelDB
set_option autoImplicit false

/-! ## Headers -/

theorem encodeVarint32_small {value : Nat} (rest : Bytes)
    (h : ((encodeVarint32 value ++ rest).getD 0 0).toNat < 128) :
    value < 128 ∧ encodeVarint32 value = [byteOf value] := by
  by_cases hsmall : value < 128
  · exact ⟨hsmall, by rw [encodeVarint32, encodeVarint, if_pos hsmall]⟩
  · rw [encodeVarint32, encodeVarint, if_neg hsmall] at h
    simp only [List.cons_append, List.getD_cons_zero, toNat_byteOf] at h
    omega

theorem decodeVarint32_encode {value : Nat} (h : value < 2 ^ 32) (rest : Bytes) :
    decodeVarint32 (encodeVarint32 value ++ rest) = some (value, rest) := by
  rw [VarintLoops.decodeVarint32_eq, consumeVarint32_encode h]
  rfl

theorem decodeEntryHeader_encode {shared nonShared valueSize : Nat} (hshared : shared < 2 ^ 32)
    (hnonShared : nonShared < 2 ^ 32) (hvalue : valueSize < 2 ^ 32) (rest : Bytes) :
    decodeEntryHeader (BlockBuilder.entryHeader shared nonShared valueSize ++ rest) =
      some (⟨shared, nonShared, valueSize⟩, rest) := by
  rw [BlockBuilder.entryHeader, Nat.mod_eq_of_lt hshared, Nat.mod_eq_of_lt hnonShared,
    Nat.mod_eq_of_lt hvalue, List.append_assoc, List.append_assoc, decodeEntryHeader]
  split
  · next hfast =>
    obtain ⟨h₀, h₁, h₂⟩ := VarintLoops.or_lt_iff.mp hfast
    obtain ⟨hs, hone⟩ := encodeVarint32_small _ h₀
    rw [hone, List.singleton_append] at h₁ h₂ ⊢
    obtain ⟨hn, hone⟩ := encodeVarint32_small (encodeVarint32 valueSize ++ rest) h₁
    rw [hone, List.singleton_append] at h₂ ⊢
    obtain ⟨hv, hone⟩ := encodeVarint32_small rest h₂
    rw [hone, List.singleton_append]
    simp only [List.getD_cons_zero, List.getD_cons_succ, toNat_byteOf, List.drop_succ_cons,
      List.drop_zero]
    rw [Nat.mod_eq_of_lt (by omega), Nat.mod_eq_of_lt (by omega), Nat.mod_eq_of_lt (by omega)]
  · rw [decodeVarint32_encode hshared]
    simp only [Option.bind_eq_bind, Option.bind_some]
    rw [decodeVarint32_encode hnonShared]
    simp only [Option.bind_some]
    rw [decodeVarint32_encode hvalue]
    rfl

/-! ## Rows -/

/-- The bytes at `offset` decode to this key and value. -/
structure RowAt (block : Block) (offset keyOffset next shared : Nat) (key value : Bytes) : Prop where
  decode : block.decodeEntry offset =
    some (⟨shared, key.length - shared, value.length⟩, keyOffset)
  shared_le : shared ≤ key.length
  delta : block.slice keyOffset (key.length - shared) = key.drop shared
  value_eq : block.slice (keyOffset + (key.length - shared)) value.length = value
  next_eq : keyOffset + (key.length - shared) + value.length = next
  advances : offset < keyOffset

/-- The entries of a block: entry `i` begins at `offset i` and shares `shared i` bytes with the entry
before, and restart point `j` is the offset of entry `restart j`. -/
structure Rows (block : Block) (entries : List (Bytes × Bytes)) where
  offset : Nat → Nat
  shared : Nat → Nat
  restart : Nat → Nat
  offset_zero : offset 0 = 0
  offset_end : offset entries.length = block.entriesEnd
  row : ∀ {i : Nat} {entry : Bytes × Bytes}, entries[i]? = some entry →
    ∃ keyOffset, RowAt block (offset i) keyOffset (offset (i + 1)) (shared i) entry.1 entry.2
  common : ∀ {i : Nat} {entry entry' : Bytes × Bytes}, entries[i]? = some entry →
    entries[i + 1]? = some entry' → shared (i + 1) ≤ entry.1.length ∧
      entry.1.take (shared (i + 1)) = entry'.1.take (shared (i + 1))
  restarts_pos : 0 < block.restartCount
  restart_zero : restart 0 = 0
  restart_lt : ∀ {j : Nat}, j + 1 < block.restartCount → restart j < restart (j + 1)
  restart_inside : ∀ {j : Nat}, 0 < j → j < block.restartCount → restart j < entries.length
  restart_point : ∀ {j : Nat}, j < block.restartCount → block.restartPoint j = offset (restart j)
  restart_shared : ∀ {j : Nat}, j < block.restartCount → shared (restart j) = 0

namespace Rows

variable {block : Block} {entries : List (Bytes × Bytes)} (rows : Rows block entries)

variable {i : Nat}

theorem offset_lt_succ (h : i < entries.length) : rows.offset i < rows.offset (i + 1) := by
  obtain ⟨keyOffset, hrow⟩ := rows.row (List.getElem?_eq_getElem h)
  have hadvances := hrow.advances
  have hnext := hrow.next_eq
  omega

variable {j : Nat}

theorem offset_lt (hij : i < j) (hj : j ≤ entries.length) : rows.offset i < rows.offset j := by
  induction hij with
  | refl => exact rows.offset_lt_succ hj
  | step _ ih => exact (ih (Nat.le_of_succ_le hj)).trans (rows.offset_lt_succ hj)

theorem offset_lt_iff (hi : i ≤ entries.length) (hj : j ≤ entries.length) :
    rows.offset i < rows.offset j ↔ i < j := by
  constructor
  · intro h
    by_contra hle
    rcases Nat.eq_or_lt_of_le (Nat.le_of_not_lt hle) with rfl | hlt
    · exact lt_irrefl _ h
    · exact absurd (rows.offset_lt hlt hi) h.asymm
  · exact fun h => rows.offset_lt h hj

theorem offset_lt_end (hi : i ≤ entries.length) :
    rows.offset i < block.entriesEnd ↔ i < entries.length := by
  rw [← rows.offset_end]
  exact rows.offset_lt_iff hi (Nat.le_refl _)

theorem offset_le_end (hi : i ≤ entries.length) : rows.offset i ≤ block.entriesEnd := by
  rw [← rows.offset_end]
  rcases Nat.eq_or_lt_of_le hi with rfl | hlt
  · exact Nat.le_refl _
  · exact (rows.offset_lt hlt (Nat.le_refl _)).le

theorem restart_le (hj : j < block.restartCount) : rows.restart j ≤ entries.length := by
  cases j with
  | zero =>
    rw [rows.restart_zero]
    exact Nat.zero_le _
  | succ j => exact (rows.restart_inside (Nat.succ_pos j) hj).le

theorem restart_lt_length (hsome : 0 < entries.length) (hj : j < block.restartCount) :
    rows.restart j < entries.length := by
  cases j with
  | zero =>
    rw [rows.restart_zero]
    exact hsome
  | succ j => exact rows.restart_inside (Nat.succ_pos j) hj

theorem restartPoint_eq (hj : j < block.restartCount) :
    BlockIterator.restartPoint block j = some (rows.offset (rows.restart j)) := by
  rw [BlockIterator.restartPoint, rows.restart_point hj,
    if_pos (rows.offset_le_end (rows.restart_le hj))]

/-- The bytes of the key before an entry are known, as far as the entry needs them. -/
def Kept (i : Nat) (previous : Bytes) : Prop :=
  rows.shared i = 0 ∨ ∃ before, i = before + 1 ∧ (entries[before]?).map Prod.fst = some previous

variable {entry : Bytes × Bytes}

theorem kept_succ (h : entries[i]? = some entry) :
    rows.Kept (i + 1) entry.1 := .inr ⟨i, rfl, by rw [h]; rfl⟩

theorem key_eq {previous : Bytes} (h : entries[i]? = some entry) (hprevious : rows.Kept i previous) :
    rows.shared i ≤ previous.length ∧
      previous.take (rows.shared i) ++ entry.1.drop (rows.shared i) = entry.1 := by
  rcases hprevious with hzero | ⟨before, rfl, hbefore⟩
  · rw [hzero]
    exact ⟨Nat.zero_le _, rfl⟩
  · obtain ⟨entry', hentry', rfl⟩ := Option.map_eq_some_iff.mp hbefore
    obtain ⟨hle, htake⟩ := rows.common hentry' h
    exact ⟨hle, by rw [htake, List.take_append_drop]⟩

theorem le_offset (hi : i ≤ entries.length) : i ≤ rows.offset i := by
  induction i with
  | zero => exact Nat.zero_le _
  | succ i ih => exact Nat.succ_le_of_lt ((ih (Nat.le_of_succ_le hi)).trans_lt (rows.offset_lt_succ hi))

theorem length_le (rows : Rows block entries) : entries.length ≤ block.entriesEnd := by
  rw [← rows.offset_end]
  exact rows.le_offset (Nat.le_refl _)

/-! ## Validation -/

/-- Before entry `i` the first `matched` restart points were met. -/
structure Matched (i matched : Nat) : Prop where
  le : matched ≤ block.restartCount
  before : ∀ {j : Nat}, j < matched → rows.restart j < i
  behind : ∀ {j : Nat}, matched ≤ j → j < block.restartCount → i ≤ rows.restart j

theorem restart_strictMono {k : Nat} (hjk : j < k) (hk : k < block.restartCount) :
    rows.restart j < rows.restart k := by
  induction hjk with
  | refl => exact rows.restart_lt hk
  | step _ ih => exact (ih (Nat.lt_of_succ_lt hk)).trans (rows.restart_lt hk)

theorem Matched.step {matched : Nat} (h : rows.Matched i matched) (hi : i < entries.length) :
    ∃ matched', block.validateRestartEntry (rows.offset i) (rows.shared i) matched = .ok matched' ∧
      rows.Matched (i + 1) matched' := by
  unfold Block.validateRestartEntry
  by_cases hmore : matched < block.restartCount
  · rw [if_pos hmore, rows.restart_point hmore]
    have hbehind := h.behind (Nat.le_refl _) hmore
    have hle := rows.restart_le hmore
    have hnot : ¬rows.offset (rows.restart matched) < rows.offset i := by
      rw [rows.offset_lt_iff hle hi.le]
      omega
    by_cases heq : rows.restart matched = i
    · have hzero := rows.restart_shared hmore
      rw [heq] at hzero ⊢
      rw [if_neg (by simp [hzero]), if_pos rfl]
      refine ⟨matched + 1, rfl, hmore, fun hj => ?_, fun {j} hj hcount => ?_⟩
      · rcases Nat.eq_or_lt_of_le (Nat.le_of_lt_succ hj) with rfl | hlt
        · omega
        · exact (h.before hlt).trans (Nat.lt_succ_self i)
      · have hlt := rows.restart_strictMono (Nat.lt_of_succ_le hj) hcount
        omega
    · have hne : rows.offset (rows.restart matched) ≠ rows.offset i := by
        have hlt := rows.offset_lt (Nat.lt_of_le_of_ne hbehind (Ne.symm heq)) hle
        omega
      rw [if_neg (by simp [hnot, hne]), if_neg hne]
      refine ⟨matched, rfl, h.le, fun hj => (h.before hj).trans (Nat.lt_succ_self i),
        fun {j} hj hcount => ?_⟩
      rcases Nat.eq_or_lt_of_le hj with rfl | hlt
      · omega
      · have hlater := rows.restart_strictMono hlt hcount
        omega
  · rw [if_neg hmore]
    exact ⟨matched, rfl, h.le, fun hj => (h.before hj).trans (Nat.lt_succ_self i),
      fun hj hcount => absurd (Nat.lt_of_le_of_lt hj hcount) hmore⟩

theorem Matched.all {matched : Nat} (h : rows.Matched entries.length matched) :
    (if block.entriesEnd = 0 then 1 else matched) = block.restartCount := by
  have hpos := rows.restarts_pos
  have hlength := rows.length_le
  split
  · next hempty =>
    by_contra hne
    have hinside := rows.restart_inside Nat.one_pos (by omega)
    omega
  · next hsome =>
    have hlt : 0 < entries.length := by
      by_contra hzero
      have hend := rows.offset_end
      rw [show entries.length = 0 by omega, rows.offset_zero] at hend
      exact hsome hend.symm
    refine Nat.le_antisymm h.le (Nat.le_of_not_lt (fun hmore => ?_))
    have hbehind := h.behind (Nat.le_refl _) hmore
    have hinside := rows.restart_lt_length hlt hmore
    omega

theorem readEntry_eq {previous : Bytes} (h : entries[i]? = some entry)
    (hle : rows.shared i ≤ previous.length) :
    ∃ headerSize, block.readEntry (rows.offset i) previous.length =
        some ⟨rows.shared i, entry.1.drop (rows.shared i), entry.2, headerSize⟩ ∧
      rows.offset i + headerSize + (entry.1.drop (rows.shared i)).length + entry.2.length =
        rows.offset (i + 1) := by
  obtain ⟨keyOffset, hrow⟩ := rows.row h
  refine ⟨keyOffset - rows.offset i, ?_, ?_⟩
  · simp only [Block.readEntry, hrow.decode, hrow.delta, hrow.value_eq]
    rw [if_neg (Nat.not_lt.mpr hle)]
  · have hnext := hrow.next_eq
    have hadvances := hrow.advances
    rw [List.length_drop]
    omega

theorem validateFromWith_eq {σ : Type} (visitor : σ → Bytes → Bytes → Result σ) (fuel : Nat) :
    ∀ {i matched : Nat} {previous : Bytes} (state : σ), i ≤ entries.length →
      entries.length - i < fuel → rows.Matched i matched → rows.Kept i previous →
      block.validateFromWith visitor fuel (rows.offset i) previous matched state =
        (entries.drop i).foldlM (fun state entry => visitor state entry.1 entry.2) state := by
  induction fuel with
  | zero => intro i matched previous _ _ hfuel; omega
  | succ fuel ih =>
    intro i matched previous state hi hfuel hmatched hkept
    rw [Block.validateFromWith]
    by_cases hmore : i < entries.length
    · have hentry := List.getElem?_eq_getElem hmore
      obtain ⟨hle, hkey⟩ := rows.key_eq hentry hkept
      obtain ⟨headerSize, hread, hend⟩ := rows.readEntry_eq hentry hle
      obtain ⟨matched', hrestart, hmatched'⟩ := hmatched.step rows hmore
      rw [if_pos ((rows.offset_lt_end hi).mpr hmore), hread]
      dsimp only
      rw [hrestart, hend, hkey, List.drop_eq_getElem_cons hmore, List.foldlM_cons]
      show (visitor state _ _).bind _ = (visitor state _ _).bind _
      congr 1
      funext state'
      exact ih state' hmore (by omega) hmatched' (rows.kept_succ hentry)
    · obtain rfl : i = entries.length := by omega
      rw [if_neg (by rw [rows.offset_end]; exact lt_irrefl _)]
      dsimp only
      rw [hmatched.all rows, if_neg (by simp), List.drop_length]
      rfl

theorem validateEntriesWith_eq {σ : Type} (rows : Rows block entries)
    (visitor : σ → Bytes → Bytes → Result σ) (state : σ) :
    block.validateEntriesWith visitor state =
      entries.foldlM (fun state entry => visitor state entry.1 entry.2) state := by
  have hpos := rows.restarts_pos
  have hstart : rows.Matched 0 0 :=
    ⟨Nat.zero_le _, fun hj => absurd hj (Nat.not_lt_zero _), fun _ _ => Nat.zero_le _⟩
  have hkept : rows.Kept 0 [] := by
    left
    have hshared := rows.restart_shared hpos
    rwa [rows.restart_zero] at hshared
  rw [Block.validateEntriesWith, if_neg]
  · have hall := rows.validateFromWith_eq visitor (block.entriesEnd + 1) state (Nat.zero_le _)
      (by have := rows.length_le; omega) hstart hkept
    rw [rows.offset_zero] at hall
    exact hall
  · rw [rows.restart_point hpos, rows.restart_zero, rows.offset_zero]
    omega

theorem validateEntries_eq (rows : Rows block entries) (visitor : Bytes → Bytes → Status) :
    block.validateEntries visitor = entries.forM (fun entry => visitor entry.1 entry.2) := by
  rw [Block.validateEntries, rows.validateEntriesWith_eq]
  generalize entries = list
  induction list with
  | nil => rfl
  | cons entry list ih =>
    rw [List.foldlM_cons]
    show (visitor entry.1 entry.2).bind _ = (visitor entry.1 entry.2).bind _
    congr 1
    funext _
    exact ih

end Rows

end ModernLevelDB
