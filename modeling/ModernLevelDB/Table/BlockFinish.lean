import ModernLevelDB.Table.BlockRows

/-! # The block that a builder finishes

The builder's buffer is its entries, row by row, and the restart points are the offsets of the rows
that share nothing with the row before. As long as the block is smaller than 4 GiB, no length is cut
by its cast to 32 bits, and the finished bytes are a block with these rows. -/
namespace ModernLevelDB
set_option autoImplicit false

/-! ## The rows of a builder -/

/-- An entry, and how the builder wrote it. -/
structure Row where
  shared : Nat
  restart : Bool
  entry : Bytes × Bytes

namespace Row

def header (row : Row) : Bytes :=
  BlockBuilder.entryHeader row.shared (row.entry.1.length - row.shared) row.entry.2.length

def encoded (row : Row) : Bytes := row.header ++ (row.entry.1.drop row.shared ++ row.entry.2)

/-- The row shares what it leaves out with the key before it, and nothing at a restart point. -/
structure Follows (row : Row) (last : Bytes) : Prop where
  le_last : row.shared ≤ last.length
  le_key : row.shared ≤ row.entry.1.length
  take_eq : last.take row.shared = row.entry.1.take row.shared
  restart : row.restart = true → row.shared = 0

end Row

def encodedRows (rows : List Row) : Bytes := rows.flatMap Row.encoded

/-- The rows of a builder that has written `since` entries since its last restart point. -/
def rowsFrom (interval : Nat) : (since : Nat) → (last : Bytes) → List (Bytes × Bytes) → List Row
  | _, _, [] => []
  | since, last, entry :: entries =>
      let restart := since == interval
      ⟨if restart then 0 else sharedPrefixLength last entry.1, restart, entry⟩ ::
        rowsFrom interval (if restart then 1 else since + 1) entry.1 entries

def restartIndices : List Row → List Nat
  | [] => []
  | row :: rows => (if row.restart then [0] else []) ++ (restartIndices rows).map (· + 1)

/-- Each row shares with the one before it. -/
def Linked : Bytes → List Row → Prop
  | _, [] => True
  | last, row :: rows => row.Follows last ∧ Linked row.entry.1 rows

theorem linked_rowsFrom (interval : Nat) (entries : List (Bytes × Bytes)) :
    ∀ (since : Nat) (last : Bytes), Linked last (rowsFrom interval since last entries) := by
  induction entries with
  | nil => exact fun _ _ => trivial
  | cons entry entries ih =>
    intro since last
    refine ⟨?_, ih _ _⟩
    obtain ⟨hlast, hkey, htake⟩ := sharedPrefixLength_spec last entry.1
    split
    · exact ⟨Nat.zero_le _, Nat.zero_le _, rfl, fun _ => rfl⟩
    · next hnot => exact ⟨hlast, hkey, htake, fun h => absurd h hnot⟩

theorem map_entry_rowsFrom (interval : Nat) (entries : List (Bytes × Bytes)) :
    ∀ (since : Nat) (last : Bytes),
      (rowsFrom interval since last entries).map Row.entry = entries := by
  induction entries with
  | nil => exact fun _ _ => rfl
  | cons entry entries ih => exact fun since last => congrArg (entry :: ·) (ih _ _)

variable {rows : List Row}

variable {last : Bytes}

theorem Linked.follows (h : Linked last rows) :
    ∀ {i : Nat} {row row' : Row}, rows[i]? = some row → rows[i + 1]? = some row' →
      row'.Follows row.entry.1 := by
  induction rows generalizing last with
  | nil =>
    intro i row row' hrow
    cases hrow
  | cons first rows ih =>
    intro i row row' hrow hrow'
    cases i with
    | zero =>
      cases hrow
      cases rows with
      | nil => cases hrow'
      | cons second rows =>
        cases hrow'
        exact h.2.1
    | succ i => exact ih h.2 hrow hrow'

variable {row : Row}

theorem Linked.restart (h : Linked last rows) (hrow : row ∈ rows) :
    row.shared ≤ row.entry.1.length ∧ (row.restart = true → row.shared = 0) := by
  induction rows generalizing last with
  | nil => cases hrow
  | cons first rows ih =>
    rcases List.mem_cons.mp hrow with rfl | hrow
    · exact ⟨h.1.le_key, h.1.restart⟩
    · exact ih h.2 hrow

theorem length_encoded_row :
    row.encoded.length = row.header.length + (row.entry.1.length - row.shared) + row.entry.2.length := by
  rw [Row.encoded, List.length_append, List.length_append, List.length_drop]
  omega

theorem encodedRows_cons (row : Row) (rows : List Row) :
    encodedRows (row :: rows) = row.encoded ++ encodedRows rows := List.flatMap_cons

theorem encodedRows_append (rows more : List Row) :
    encodedRows (rows ++ more) = encodedRows rows ++ encodedRows more := List.flatMap_append

theorem Linked.shared_le (h : Linked last rows) :
    ∀ {i : Nat} {row : Row}, rows[i]? = some row →
      row.shared ≤ last.length + (encodedRows (rows.take i)).length ∧
        row.entry.1.length ≤ last.length + (encodedRows (rows.take (i + 1))).length := by
  induction rows generalizing last with
  | nil =>
    intro i row hrow
    cases hrow
  | cons first rows ih =>
    have hfirst := h.1.le_last
    have hlength : first.encoded.length = _ := length_encoded_row
    intro i row hrow
    cases i with
    | zero =>
      cases hrow
      refine ⟨Nat.le_add_right_of_le hfirst, ?_⟩
      rw [List.take_succ_cons, encodedRows_cons, List.length_append]
      omega
    | succ i =>
      have hrest := ih h.2 hrow
      rw [List.take_succ_cons, List.take_succ_cons, encodedRows_cons, encodedRows_cons,
        List.length_append, List.length_append]
      have hkey := h.1.le_key
      omega

theorem mem_restartIndices : ∀ {i : Nat}, i ∈ restartIndices rows →
    ∃ row, rows[i]? = some row ∧ row.restart = true := by
  induction rows with
  | nil =>
    intro i hi
    cases hi
  | cons row rows ih =>
    intro i hi
    rw [restartIndices] at hi
    rcases List.mem_append.mp hi with hi | hi
    · split at hi
      · next hrestart =>
        cases List.mem_singleton.mp hi
        exact ⟨row, rfl, hrestart⟩
      · cases hi
    · obtain ⟨k, hk, rfl⟩ := List.mem_map.mp hi
      exact ih hk

theorem restartIndices_sorted (rows : List Row) : (restartIndices rows).Pairwise (· < ·) := by
  induction rows with
  | nil => exact .nil
  | cons row rows ih =>
    rw [restartIndices, List.pairwise_append]
    refine ⟨?_, List.pairwise_map.mpr (ih.imp (fun h => Nat.succ_lt_succ h)), ?_⟩
    · split
      · exact List.pairwise_singleton _ _
      · exact .nil
    · intro a ha b hb
      obtain ⟨k, _, rfl⟩ := List.mem_map.mp hb
      split at ha
      · cases List.mem_singleton.mp ha
        exact Nat.succ_pos k
      · cases ha

/-! ## The builder writes the rows -/

namespace BlockBuilder

theorem add_row (builder : BlockBuilder) (entry : Bytes × Bytes) :
    let restart := builder.entriesSinceRestart == builder.restartInterval
    let row : Row :=
      ⟨if restart then 0 else sharedPrefixLength builder.lastKey entry.1, restart, entry⟩
    builder.add entry.1 entry.2 = {
      restartInterval := builder.restartInterval
      entriesSinceRestart := if restart then 1 else builder.entriesSinceRestart + 1
      buffer := builder.buffer ++ row.encoded
      restarts := builder.restarts ++ if restart then [builder.buffer.length % 2 ^ 32] else []
      lastKey := entry.1 } := by
  dsimp only
  obtain ⟨_, _, htake⟩ := sharedPrefixLength_spec builder.lastKey entry.1
  rw [add]
  cases builder.entriesSinceRestart == builder.restartInterval with
  | true => simp [beginRestart, Row.encoded, Row.header]
  | false => simp [Row.encoded, Row.header, htake]

theorem addAll_rows (entries : List (Bytes × Bytes)) : ∀ builder : BlockBuilder,
    let rows := rowsFrom builder.restartInterval builder.entriesSinceRestart builder.lastKey entries
    (builder.addAll entries).buffer = builder.buffer ++ encodedRows rows ∧
      (builder.addAll entries).restarts = builder.restarts ++ (restartIndices rows).map (fun i =>
        (builder.buffer.length + (encodedRows (rows.take i)).length) % 2 ^ 32) := by
  induction entries with
  | nil =>
    intro builder
    exact ⟨(List.append_nil _).symm, (List.append_nil _).symm⟩
  | cons entry entries ih =>
    intro builder
    have hrest := ih (builder.add entry.1 entry.2)
    have hall : builder.addAll (entry :: entries) = (builder.add entry.1 entry.2).addAll entries := rfl
    have hrow := builder.add_row entry
    dsimp only at hrest hrow ⊢
    rw [hall]
    rw [hrow] at hrest ⊢
    rw [rowsFrom]
    dsimp only at hrest ⊢
    refine ⟨?_, ?_⟩
    · rw [hrest.1, encodedRows_cons, List.append_assoc]
    · rw [hrest.2, restartIndices, List.map_append, List.map_map, List.append_assoc]
      congr 2
      · split
        · simp [encodedRows]
        · rfl
      · refine List.map_congr_left (fun i _ => ?_)
        rw [Function.comp_apply, List.take_succ_cons, encodedRows_cons, List.length_append,
          List.length_append, Nat.add_assoc]

/-! ## The finished bytes -/

theorem length_flatMap_fixed (values : List Nat) :
    (values.flatMap (encodeFixed 4)).length = 4 * values.length := by
  induction values with
  | nil => rfl
  | cons value values ih =>
    rw [List.flatMap_cons, List.length_append, ih, length_encodeFixed, List.length_cons]
    omega

theorem length_finish (builder : BlockBuilder) : builder.finish.length = builder.currentSizeEstimate := by
  rw [finish, currentSizeEstimate]
  simp only [List.length_append, length_encodeFixed, length_flatMap_fixed]
  omega

theorem finish_eq (builder : BlockBuilder) : builder.finish =
    builder.buffer ++ ((0 :: builder.restarts).flatMap (encodeFixed 4) ++
      encodeFixed 4 ((builder.restarts.length + 1) % 2 ^ 32)) := by
  rw [finish, List.append_assoc, List.flatMap_cons]

variable {builder : BlockBuilder}

theorem create_finish (h : builder.finish.length < 2 ^ 32) :
    Block.create builder.finish =
      .ok ⟨builder.finish, builder.buffer.length, builder.restarts.length + 1⟩ := by
  have hlength := builder.length_finish
  rw [currentSizeEstimate] at hlength
  have hcount : decodeFixed (builder.finish.drop (builder.finish.length - 4)) =
      builder.restarts.length + 1 := by
    have hdrop : builder.finish.drop (builder.finish.length - 4) =
        encodeFixed 4 ((builder.restarts.length + 1) % 2 ^ 32) := by
      rw [finish]
      refine List.drop_left' ?_
      simp only [List.length_append, length_encodeFixed]
      omega
    rw [hdrop, decodeFixed_encodeFixed]
    omega
  rw [Block.create, Block.readRestartCount, if_neg (by omega), hcount, if_neg (by omega)]
  show Except.ok _ = Except.ok _
  rw [hlength]
  congr 2
  omega

theorem take_flatMap_fixed (rest : Bytes) (values : List Nat) : ∀ {j value : Nat},
    values[j]? = some value →
      ((values.flatMap (encodeFixed 4) ++ rest).drop (4 * j)).take 4 = encodeFixed 4 value := by
  induction values with
  | nil =>
    intro j value h
    cases h
  | cons first values ih =>
    intro j value h
    rw [List.flatMap_cons, List.append_assoc]
    cases j with
    | zero =>
      cases h
      exact List.take_left' (length_encodeFixed 4 first)
    | succ j =>
      rw [show 4 * (j + 1) = (encodeFixed 4 first).length + 4 * j by rw [length_encodeFixed]; omega,
        ← List.drop_drop, List.drop_left]
      exact ih h

theorem restartPoint_finish {j value : Nat} (hvalue : (0 :: builder.restarts)[j]? = some value)
    (hsmall : value < 2 ^ 32) :
    Block.restartPoint ⟨builder.finish, builder.buffer.length, builder.restarts.length + 1⟩ j =
      value := by
  rw [Block.restartPoint, Block.slice, finish_eq]
  dsimp only
  rw [← List.drop_drop, List.drop_left, take_flatMap_fixed _ _ hvalue, decodeFixed_encodeFixed]
  omega

end BlockBuilder

/-! ## The rows of the finished block -/

theorem length_encodeVarint32_pos (value : Nat) : 0 < (encodeVarint32 value).length := by
  rw [encodeVarint32, encodeVarint]
  split <;> simp

theorem three_le_header (row : Row) : 3 ≤ row.header.length := by
  have h₁ := length_encodeVarint32_pos (row.shared % 2 ^ 32)
  have h₂ := length_encodeVarint32_pos ((row.entry.1.length - row.shared) % 2 ^ 32)
  have h₃ := length_encodeVarint32_pos (row.entry.2.length % 2 ^ 32)
  rw [Row.header, BlockBuilder.entryHeader, List.length_append, List.length_append]
  omega

theorem rowAt_of_encoded {before after tail : Bytes} {restartCount : Nat}
    (hshared : row.shared < 2 ^ 32) (hkey : row.entry.1.length - row.shared < 2 ^ 32)
    (hvalue : row.entry.2.length < 2 ^ 32) (hle : row.shared ≤ row.entry.1.length) :
    RowAt ⟨before ++ (row.encoded ++ after) ++ tail, (before ++ (row.encoded ++ after)).length,
        restartCount⟩ before.length (before.length + row.header.length)
      (before.length + row.encoded.length) row.shared row.entry.1 row.entry.2 := by
  have hthree := three_le_header row
  have hlength : row.encoded.length = _ := length_encoded_row
  have hdrop : (before ++ (row.encoded ++ after) ++ tail).drop (before.length + row.header.length) =
      row.entry.1.drop row.shared ++ (row.entry.2 ++ (after ++ tail)) := by
    rw [← List.drop_drop, List.append_assoc, List.drop_left, Row.encoded]
    simp only [List.append_assoc]
    exact List.drop_left
  have hdelta : (row.entry.1.drop row.shared).length = row.entry.1.length - row.shared :=
    List.length_drop
  refine ⟨?_, hle, ?_, ?_, by rw [hlength]; omega, by omega⟩
  · rw [Block.decodeEntry, ModernLevelDB.decodeEntry]
    dsimp only
    rw [List.take_left' rfl, List.drop_left, Row.encoded, List.append_assoc, Row.header,
      decodeEntryHeader_encode hshared hkey hvalue, if_neg, ← Row.header]
    · simp only [Option.bind_eq_bind, Option.bind_some, hasEntryPayload, decide_eq_true_eq]
      rw [if_pos]
      · rw [Option.map_some]
        congr 2
        simp only [List.length_append, hdelta]
        omega
      · simp only [List.length_append, hdelta]
        omega
    · rw [← Row.header, List.length_append]
      omega
  · rw [Block.slice, hdrop, ← hdelta, List.take_left]
  · rw [Block.slice, ← List.drop_drop, hdrop, ← hdelta, List.drop_left, List.take_left]

theorem encodedRows_split {i : Nat} (h : rows[i]? = some row) :
    encodedRows rows =
        encodedRows (rows.take i) ++ (row.encoded ++ encodedRows (rows.drop (i + 1))) ∧
      (encodedRows (rows.take (i + 1))).length =
        (encodedRows (rows.take i)).length + row.encoded.length := by
  obtain ⟨hi, rfl⟩ := List.getElem?_eq_some_iff.mp h
  constructor
  · rw [← encodedRows_cons, ← encodedRows_append, ← List.drop_eq_getElem_cons hi,
      List.take_append_drop]
  · rw [List.take_succ_eq_append_getElem hi, encodedRows_append, List.length_append]
    simp [encodedRows]

def restartRow (rows : List Row) : Nat → Nat
  | 0 => 0
  | j + 1 => (restartIndices rows).getD j 0

section Finished

variable (interval : Nat) (entries : List (Bytes × Bytes))

def blockBuilderOf : BlockBuilder := ({ restartInterval := interval } : BlockBuilder).addAll entries

def finishedBlock : Block :=
  ⟨(blockBuilderOf interval entries).finish, (blockBuilderOf interval entries).buffer.length,
    (blockBuilderOf interval entries).restarts.length + 1⟩

def builtRows : List Row := rowsFrom interval 0 [] entries

theorem buffer_built :
    (blockBuilderOf interval entries).buffer = encodedRows (builtRows interval entries) :=
  (BlockBuilder.addAll_rows entries { restartInterval := interval }).1

theorem restarts_built : (blockBuilderOf interval entries).restarts =
    (restartIndices (builtRows interval entries)).map (fun i =>
      (encodedRows ((builtRows interval entries).take i)).length % 2 ^ 32) := by
  refine (BlockBuilder.addAll_rows entries { restartInterval := interval }).2.trans ?_
  rw [List.nil_append]
  refine List.map_congr_left (fun i _ => ?_)
  rw [List.length_nil, Nat.zero_add]
  rfl

theorem row_of_entry {i : Nat} {entry : Bytes × Bytes} (h : entries[i]? = some entry) :
    ∃ row, (builtRows interval entries)[i]? = some row ∧ row.entry = entry := by
  rw [← map_entry_rowsFrom interval entries 0 [], List.getElem?_map] at h
  exact Option.map_eq_some_iff.mp h

variable {interval} {entries}

theorem rowAt_built (hsize : (blockBuilderOf interval entries).finish.length < 2 ^ 32) {i : Nat}
    {row : Row} (hrow : (builtRows interval entries)[i]? = some row) :
    ∃ keyOffset, RowAt (finishedBlock interval entries)
      (encodedRows ((builtRows interval entries).take i)).length keyOffset
      (encodedRows ((builtRows interval entries).take (i + 1))).length row.shared row.entry.1
      row.entry.2 := by
  have hlinked : Linked [] (builtRows interval entries) := linked_rowsFrom interval entries 0 []
  obtain ⟨hsplit, hnext⟩ := encodedRows_split hrow
  have hbuffer := (buffer_built interval entries).trans hsplit
  have hlength := (blockBuilderOf interval entries).length_finish
  rw [BlockBuilder.currentSizeEstimate, hbuffer, List.length_append, List.length_append] at hlength
  have hrowLength : row.encoded.length = _ := length_encoded_row
  have hshared := (hlinked.shared_le hrow).1
  rw [List.length_nil, Nat.zero_add] at hshared
  rw [finishedBlock, BlockBuilder.finish_eq, hbuffer, hnext]
  exact ⟨_, rowAt_of_encoded (by omega) (by omega) (by omega)
    (hlinked.restart (List.mem_of_getElem? hrow)).1⟩

theorem restartIndices_built_pos (hinterval : 1 ≤ interval) {i : Nat}
    (hi : i ∈ restartIndices (builtRows interval entries)) : 0 < i := by
  cases entries with
  | nil => cases hi
  | cons entry entries =>
    have hfirst : (0 == interval) = false := by
      rw [beq_eq_false_iff_ne]
      omega
    rw [builtRows, rowsFrom, restartIndices, hfirst] at hi
    obtain ⟨k, _, rfl⟩ := List.mem_map.mp hi
    exact Nat.succ_pos k

theorem restartCount_built : (finishedBlock interval entries).restartCount =
    (restartIndices (builtRows interval entries)).length + 1 := by
  rw [finishedBlock]
  dsimp only
  rw [restarts_built, List.length_map]

variable {j : Nat}

theorem restartRow_succ (hj : j + 1 < (finishedBlock interval entries).restartCount) :
    (restartIndices (builtRows interval entries))[j]? =
      some (restartRow (builtRows interval entries) (j + 1)) := by
  rw [restartCount_built] at hj
  rw [restartRow, List.getD_eq_getElem?_getD, List.getElem?_eq_getElem (by omega)]
  rfl

theorem row_of_restart (hj : j + 1 < (finishedBlock interval entries).restartCount) :
    ∃ row, (builtRows interval entries)[restartRow (builtRows interval entries) (j + 1)]? = some row ∧
      row.restart = true :=
  mem_restartIndices (List.mem_of_getElem? (restartRow_succ hj))

theorem restartRow_lt (hinterval : 1 ≤ interval)
    (hj : j + 1 < (finishedBlock interval entries).restartCount) :
    restartRow (builtRows interval entries) j < restartRow (builtRows interval entries) (j + 1) := by
  have hsucc := restartRow_succ hj
  cases j with
  | zero => exact restartIndices_built_pos hinterval (List.mem_of_getElem? hsucc)
  | succ j =>
    have hsorted := restartIndices_sorted (builtRows interval entries)
    obtain ⟨h₁, heq₁⟩ := List.getElem?_eq_some_iff.mp (restartRow_succ (Nat.lt_of_succ_lt hj))
    obtain ⟨h₂, heq₂⟩ := List.getElem?_eq_some_iff.mp hsucc
    rw [← heq₁, ← heq₂]
    exact List.pairwise_iff_getElem.mp hsorted j (j + 1) h₁ h₂ (Nat.lt_succ_self j)

theorem restartPoint_built (hsize : (blockBuilderOf interval entries).finish.length < 2 ^ 32)
    (hj : j < (finishedBlock interval entries).restartCount) :
    (finishedBlock interval entries).restartPoint j = (encodedRows ((builtRows interval entries).take
      (restartRow (builtRows interval entries) j))).length := by
  have hlength := (blockBuilderOf interval entries).length_finish
  rw [BlockBuilder.currentSizeEstimate, buffer_built] at hlength
  cases j with
  | zero => exact BlockBuilder.restartPoint_finish rfl (Nat.two_pow_pos 32)
  | succ j =>
    obtain ⟨row, hrow, _⟩ := row_of_restart hj
    have hsplit := congrArg List.length (encodedRows_split hrow).1
    rw [List.length_append] at hsplit
    have hsmall : (encodedRows ((builtRows interval entries).take
        (restartRow (builtRows interval entries) (j + 1)))).length < 2 ^ 32 := by
      omega
    refine BlockBuilder.restartPoint_finish ?_ hsmall
    rw [List.getElem?_cons_succ, restarts_built, List.getElem?_map, restartRow_succ hj,
      Option.map_some, Nat.mod_eq_of_lt hsmall]

theorem rows_finishedBlock (hinterval : 1 ≤ interval)
    (hsize : (blockBuilderOf interval entries).finish.length < 2 ^ 32) :
    Nonempty (Rows (finishedBlock interval entries) entries) := by
  have hlinked : Linked [] (builtRows interval entries) := linked_rowsFrom interval entries 0 []
  have hlength : (builtRows interval entries).length = entries.length := by
    rw [← List.length_map Row.entry, builtRows, map_entry_rowsFrom]
  refine ⟨{
    offset := fun i => (encodedRows ((builtRows interval entries).take i)).length
    shared := fun i => (((builtRows interval entries)[i]?).map Row.shared).getD 0
    restart := restartRow (builtRows interval entries)
    offset_zero := rfl
    offset_end := ?_
    row := fun {i entry} hentry => ?_
    common := fun {i entry entry'} hentry hentry' => ?_
    restarts_pos := Nat.succ_pos _
    restart_zero := rfl
    restart_lt := restartRow_lt hinterval
    restart_inside := fun {j} hpos hj => ?_
    restart_point := restartPoint_built hsize
    restart_shared := fun {j} hj => ?_ }⟩
  · rw [← hlength, List.take_length, ← buffer_built]
    rfl
  · obtain ⟨row, hrow, rfl⟩ := row_of_entry interval entries hentry
    rw [hrow]
    exact rowAt_built hsize hrow
  · obtain ⟨row, hrow, rfl⟩ := row_of_entry interval entries hentry
    obtain ⟨row', hrow', rfl⟩ := row_of_entry interval entries hentry'
    rw [hrow']
    have hfollows := hlinked.follows hrow hrow'
    exact ⟨hfollows.le_last, hfollows.take_eq⟩
  · obtain ⟨j, rfl⟩ := Nat.exists_eq_succ_of_ne_zero hpos.ne'
    obtain ⟨row, hrow, _⟩ := row_of_restart hj
    rw [← hlength]
    exact (List.getElem?_eq_some_iff.mp hrow).1
  · cases j with
    | zero =>
      cases entries with
      | nil => rfl
      | cons entry entries => exact Nat.le_zero.mp hlinked.1.le_last
    | succ j =>
      obtain ⟨row, hrow, hrestart⟩ := row_of_restart hj
      rw [hrow]
      exact (hlinked.restart (List.mem_of_getElem? hrow)).2 hrestart

end Finished

end ModernLevelDB
