import ModernLevelDB.Table.BlockBounds
import ModernLevelDB.Table.BlockIterator

/-! # What the validation of a block is for

`ValidateEntries` walks over the entries of a block once. Any block that it accepts has rows, so that
its iterators show these entries and report no damage, whatever the comparator. -/
namespace ModernLevelDB
set_option autoImplicit false

namespace Block

/-! ## The walk -/

/-- An entry that a walk has passed. -/
structure WalkRow where
  offset : Nat
  shared : Nat
  key : Bytes
  value : Bytes

def startOf (block : Block) : List WalkRow → Nat
  | [] => block.entriesEnd
  | row :: _ => row.offset

/-- The rounds of `ValidateEntries` from an offset on, with the key before and the restart points that
were met. -/
inductive Walk (block : Block) : (previous : Bytes) → (matched : Nat) → List WalkRow → Prop
  | done {previous : Bytes} : Walk block previous block.restartCount []
  | entry {previous : Bytes} {matched matched' : Nat} {row : WalkRow} {rows : List WalkRow}
      {keyOffset : Nat} (at_row : RowAt block row.offset keyOffset (block.startOf rows) row.shared
        row.key row.value)
      (shared_le : row.shared ≤ previous.length)
      (common : previous.take row.shared = row.key.take row.shared)
      (restart : block.validateRestartEntry row.offset row.shared matched = .ok matched')
      (rest : Walk block row.key matched' rows) : Walk block previous matched (row :: rows)

variable {block : Block}

variable {previous : Bytes}

theorem rowAt_of_decode (hblock : block.Created) {offset keyOffset : Nat} {header : EntryHeader}
    (hdecode : block.decodeEntry offset = some (header, keyOffset)) (hbehind : offset < keyOffset)
    (hpayload : keyOffset + header.nonShared + header.valueSize ≤ block.entriesEnd)
    (hshared : header.shared ≤ previous.length) :
    RowAt block offset keyOffset (keyOffset + header.nonShared + header.valueSize) header.shared
      (previous.take header.shared ++ block.slice keyOffset header.nonShared)
      (block.slice (keyOffset + header.nonShared) header.valueSize) := by
  have hcreated : block.contents.length = _ := hblock
  have hdelta : (block.slice keyOffset header.nonShared).length = header.nonShared :=
    BlockAccess.length_slice (by omega)
  have hvalue : (block.slice (keyOffset + header.nonShared) header.valueSize).length =
      header.valueSize := BlockAccess.length_slice (by omega)
  have hkey : (previous.take header.shared ++ block.slice keyOffset header.nonShared).length =
      header.shared + header.nonShared := by
    rw [List.length_append, List.length_take, hdelta, Nat.min_eq_left hshared]
  have hrest : header.shared + header.nonShared - header.shared = header.nonShared :=
    Nat.add_sub_cancel_left _ _
  refine ⟨?_, ?_, ?_, ?_, ?_, hbehind⟩
  · rw [hdecode, hkey, hvalue, hrest]
  · rw [hkey]
    exact Nat.le_add_right _ _
  · rw [hkey, hrest, List.drop_left' (by rw [List.length_take, Nat.min_eq_left hshared])]
  · rw [hkey, hrest, hvalue]
  · rw [hkey, hrest, hvalue]

theorem walk_of_validateFromWith {σ : Type} (hblock : block.Created) (hsome : block.entriesEnd ≠ 0)
    {visitor : σ → Bytes → Bytes → Result σ} (fuel : Nat) :
    ∀ {offset matched : Nat} {previous : Bytes} {state state' : σ}, offset ≤ block.entriesEnd →
      block.validateFromWith visitor fuel offset previous matched state = .ok state' →
      ∃ rows, block.startOf rows = offset ∧ block.Walk previous matched rows ∧
        rows.foldlM (fun state row => visitor state row.key row.value) state = .ok state' := by
  induction fuel with
  | zero => exact fun _ h => nomatch h
  | succ fuel ih =>
    intro offset matched previous state state' hle h
    rw [validateFromWith] at h
    by_cases hmore : offset < block.entriesEnd
    · rw [if_pos hmore] at h
      cases BlockAccess.decodesEntry hblock hle with
      | damaged _ hdecode =>
        rw [readEntry, hdecode] at h
        cases h
      | entry header keyOffset _ hdecode hbehind hpayload =>
        rw [readEntry, hdecode] at h
        dsimp only at h
        by_cases hshared : header.shared > previous.length
        · rw [if_pos hshared] at h
          cases h
        rw [if_neg hshared] at h
        have hcreated : block.contents.length = _ := hblock
        have hrow := rowAt_of_decode hblock hdecode hbehind hpayload (Nat.le_of_not_lt hshared)
        have hend : offset + (keyOffset - offset) + (block.slice keyOffset header.nonShared).length +
            (block.slice (keyOffset + header.nonShared) header.valueSize).length =
              keyOffset + header.nonShared + header.valueSize := by
          rw [BlockAccess.length_slice (by omega), BlockAccess.length_slice (by omega),
            Nat.add_sub_cancel' hbehind.le]
        obtain ⟨matched', hrestart, h⟩ := Result.bind_eq_ok.mp h
        obtain ⟨visited, hvisit, h⟩ := Result.bind_eq_ok.mp h
        rw [hend] at h
        obtain ⟨rows, hstart, hwalk, hfold⟩ := ih hpayload h
        rw [← hstart] at hrow
        refine ⟨⟨offset, header.shared, _, _⟩ :: rows, rfl, .entry hrow (Nat.le_of_not_lt hshared) ?_
          hrestart hwalk, ?_⟩
        · rw [List.take_left' (by rw [List.length_take, Nat.min_eq_left (Nat.le_of_not_lt hshared)])]
        · rw [List.foldlM_cons]
          exact Result.bind_eq_ok.mpr ⟨visited, hvisit, hfold⟩
    · rw [if_neg hmore, if_neg hsome] at h
      dsimp only at h
      split at h
      · cases h
      · next hmatched =>
        obtain rfl : matched = block.restartCount := by omega
        cases h
        exact ⟨[], by rw [startOf]; omega, .done, rfl⟩

/-! ## Rows of a walk -/

theorem validateRestartEntry_cases {offset shared matched matched' : Nat}
    (h : block.validateRestartEntry offset shared matched = .ok matched') :
    (matched < block.restartCount ∧ block.restartPoint matched = offset ∧ shared = 0 ∧
      matched' = matched + 1) ∨ matched' = matched := by
  rw [validateRestartEntry] at h
  split at h
  · next hmore =>
    dsimp only at h
    split at h
    · cases h
    · next hchecked =>
      split at h
      · next heq =>
        cases h
        exact .inl ⟨hmore, heq, by_contra fun hne => hchecked (.inr ⟨heq, hne⟩), rfl⟩
      · cases h
        exact .inr rfl
  · cases h
    exact .inr rfl

namespace Walk

variable {previous : Bytes} {matched : Nat} {rows : List WalkRow}

section

variable (h : block.Walk previous matched rows)

include h

theorem start_le_of_mem :
    ∀ row ∈ rows, block.startOf rows ≤ row.offset := by
  induction h with
  | done => exact fun row hrow => absurd hrow List.not_mem_nil
  | entry hat _ _ _ _ ih =>
    have hadvances := hat.advances
    have hnext := hat.next_eq
    intro row hrow
    rcases List.mem_cons.mp hrow with rfl | hmem
    · exact Nat.le_refl _
    · have hle := ih row hmem
      rw [startOf]
      omega

theorem exists_restart {j : Nat} (hj : matched ≤ j)
    (hcount : j < block.restartCount) : ∃ row ∈ rows, row.offset = block.restartPoint j := by
  induction h with
  | done => omega
  | @entry _ _ _ row rows _ _ _ _ hrestart _ ih =>
    rcases validateRestartEntry_cases hrestart with ⟨_, hpoint, _, rfl⟩ | rfl
    · rcases Nat.eq_or_lt_of_le hj with rfl | hlt
      · exact ⟨row, List.mem_cons_self, hpoint.symm⟩
      · obtain ⟨row', hmem, heq⟩ := ih hlt
        exact ⟨row', List.mem_cons_of_mem row hmem, heq⟩
    · obtain ⟨row', hmem, heq⟩ := ih hj
      exact ⟨row', List.mem_cons_of_mem row hmem, heq⟩

theorem restartPoint_ge {j : Nat} (hj : matched ≤ j)
    (hcount : j < block.restartCount) : block.startOf rows ≤ block.restartPoint j := by
  obtain ⟨row, hmem, heq⟩ := h.exists_restart hj hcount
  exact heq ▸ h.start_le_of_mem row hmem

theorem restartPoint_lt {j : Nat} (hj : matched ≤ j)
    (hcount : j + 1 < block.restartCount) : block.restartPoint j < block.restartPoint (j + 1) := by
  induction h with
  | done => omega
  | entry hat _ _ hrestart hrest ih =>
    rcases validateRestartEntry_cases hrestart with ⟨_, hpoint, _, rfl⟩ | rfl
    · rcases Nat.eq_or_lt_of_le hj with rfl | hlt
      · have hge := hrest.restartPoint_ge (Nat.le_refl _) hcount
        have hadvances := hat.advances
        have hnext := hat.next_eq
        omega
      · exact ih hlt
    · exact ih hj

theorem shared_eq_zero {j : Nat} (hj : matched ≤ j)
    (hcount : j < block.restartCount) :
    ∀ row ∈ rows, row.offset = block.restartPoint j → row.shared = 0 := by
  induction h with
  | done => exact fun row hrow => absurd hrow List.not_mem_nil
  | @entry _ matched _ row rows _ hat _ _ hrestart hrest ih =>
    have hadvances := hat.advances
    have hnext := hat.next_eq
    intro row' hrow' heq
    rcases validateRestartEntry_cases hrestart with ⟨_, hpoint, hzero, rfl⟩ | rfl
    · rcases Nat.eq_or_lt_of_le hj with rfl | hlt
      · rcases List.mem_cons.mp hrow' with rfl | hmem
        · exact hzero
        · have hge := hrest.start_le_of_mem row' hmem
          omega
      · rcases List.mem_cons.mp hrow' with rfl | hmem
        · have hge := hrest.restartPoint_ge hlt hcount
          omega
        · exact ih hlt row' hmem heq
    · rcases List.mem_cons.mp hrow' with rfl | hmem
      · have hge := hrest.restartPoint_ge hj hcount
        omega
      · exact ih hj row' hmem heq

theorem rowAt : ∀ {i : Nat} {row : WalkRow},
    rows[i]? = some row → ∃ keyOffset, RowAt block (block.startOf (rows.drop i)) keyOffset
      (block.startOf (rows.drop (i + 1))) row.shared row.key row.value := by
  induction h with
  | done => exact fun h => nomatch h
  | entry hat _ _ _ _ ih =>
    intro i row hrow
    cases i with
    | zero =>
      cases hrow
      exact ⟨_, hat⟩
    | succ i => exact ih hrow

theorem common : ∀ {i : Nat} {row row' : WalkRow},
    rows[i]? = some row → rows[i + 1]? = some row' → row'.shared ≤ row.key.length ∧
      row.key.take row'.shared = row'.key.take row'.shared := by
  induction h with
  | done => exact fun h => nomatch h
  | entry _ _ _ _ hrest ih =>
    intro i row row' hrow hrow'
    cases i with
    | zero =>
      cases hrow
      cases hrest with
      | done => cases hrow'
      | entry _ hle hcommon _ _ =>
        cases hrow'
        exact ⟨hle, hcommon⟩
    | succ i => exact ih hrow hrow'

end

end Walk

def entriesOf (rows : List WalkRow) : List (Bytes × Bytes) := rows.map fun row => (row.key, row.value)

variable {rows : List WalkRow}

theorem startOf_drop {i : Nat} {row : WalkRow} (h : rows[i]? = some row) :
    block.startOf (rows.drop i) = row.offset := by
  obtain ⟨hlt, rfl⟩ := List.getElem?_eq_some_iff.mp h
  rw [List.drop_eq_getElem_cons hlt]
  rfl

theorem Walk.start_mono {matched : Nat} (h : block.Walk previous matched rows) {i j : Nat}
    (hij : i < j) (hj : j ≤ rows.length) :
    block.startOf (rows.drop i) < block.startOf (rows.drop j) := by
  have hstep {k : Nat} (hk : k < rows.length) :
      block.startOf (rows.drop k) < block.startOf (rows.drop (k + 1)) := by
    obtain ⟨keyOffset, hrow⟩ := h.rowAt (List.getElem?_eq_getElem hk)
    have hadvances := hrow.advances
    have hnext := hrow.next_eq
    omega
  induction hij with
  | refl => exact hstep hj
  | step _ ih => exact (ih (Nat.le_of_succ_le hj)).trans (hstep hj)

def restartRow (block : Block) (rows : List WalkRow) (j : Nat) : Nat :=
  rows.findIdx (fun row => row.offset = block.restartPoint j)

theorem Walk.restartRow_spec (h : block.Walk previous 0 rows) {j : Nat}
    (hj : j < block.restartCount) :
    ∃ row, rows[block.restartRow rows j]? = some row ∧ row.offset = block.restartPoint j := by
  obtain ⟨row, hmem, heq⟩ := h.exists_restart (Nat.zero_le j) hj
  have hlt : block.restartRow rows j < rows.length :=
    List.findIdx_lt_length_of_exists ⟨row, hmem, decide_eq_true heq⟩
  exact ⟨_, List.getElem?_eq_getElem hlt, of_decide_eq_true (List.findIdx_getElem (w := hlt))⟩

def Walk.toRows {rows : List WalkRow} (h : block.Walk [] 0 rows) (hstart : block.startOf rows = 0)
    (hsome : rows ≠ []) (hpos : 0 < block.restartCount) (hzero : block.restartPoint 0 = 0) :
    Rows block (entriesOf rows) where
  offset i := block.startOf (rows.drop i)
  shared i := (rows[i]?.map WalkRow.shared).getD 0
  restart := block.restartRow rows
  offset_zero := hstart
  offset_end := by
    rw [entriesOf, List.length_map, List.drop_length]
    rfl
  row := by
    intro i entry hentry
    rw [entriesOf, List.getElem?_map] at hentry
    obtain ⟨row, hrow, rfl⟩ := Option.map_eq_some_iff.mp hentry
    rw [hrow]
    exact h.rowAt hrow
  common := by
    intro i entry entry' hentry hentry'
    rw [entriesOf, List.getElem?_map] at hentry hentry'
    obtain ⟨row, hrow, rfl⟩ := Option.map_eq_some_iff.mp hentry
    obtain ⟨row', hrow', rfl⟩ := Option.map_eq_some_iff.mp hentry'
    rw [hrow']
    exact h.common hrow hrow'
  restarts_pos := hpos
  restart_zero := by
    cases rows with
    | nil => exact absurd rfl hsome
    | cons row rows =>
      have hfirst : decide (row.offset = block.restartPoint 0) = true := by
        rw [hzero]
        exact decide_eq_true hstart
      rw [restartRow, List.findIdx_cons, hfirst]
      rfl
  restart_lt := by
    intro j hj
    obtain ⟨row, hrow, hoffset⟩ := h.restartRow_spec (Nat.lt_of_succ_lt hj)
    obtain ⟨row', hrow', hoffset'⟩ := h.restartRow_spec hj
    have hlt := h.restartPoint_lt (Nat.zero_le j) hj
    by_contra hge
    rcases Nat.eq_or_lt_of_le (Nat.le_of_not_lt hge) with heq | hbefore
    · rw [heq, hrow] at hrow'
      cases hrow'
      omega
    · have hmono := h.start_mono hbefore (List.getElem?_eq_some_iff.mp hrow).1.le
      rw [startOf_drop hrow, startOf_drop hrow'] at hmono
      omega
  restart_inside := by
    intro j _ hj
    obtain ⟨row, hrow, _⟩ := h.restartRow_spec hj
    rw [entriesOf, List.length_map]
    exact (List.getElem?_eq_some_iff.mp hrow).1
  restart_point := by
    intro j hj
    obtain ⟨row, hrow, hoffset⟩ := h.restartRow_spec hj
    rw [startOf_drop hrow, hoffset]
  restart_shared := by
    intro j hj
    obtain ⟨row, hrow, hoffset⟩ := h.restartRow_spec hj
    rw [hrow]
    exact h.shared_eq_zero (Nat.zero_le j) hj row (List.mem_of_getElem? hrow) hoffset

def emptyRows (hend : block.entriesEnd = 0) (hcount : block.restartCount = 1)
    (hzero : block.restartPoint 0 = 0) : Rows block [] where
  offset _ := 0
  shared _ := 0
  restart _ := 0
  offset_zero := rfl
  offset_end := hend.symm
  row := fun h => nomatch h
  common := fun h => nomatch h
  restarts_pos := by omega
  restart_zero := rfl
  restart_lt := by
    intro j hj
    omega
  restart_inside := by
    intro j hpos hj
    omega
  restart_point := by
    intro j hj
    obtain rfl : j = 0 := by omega
    exact hzero
  restart_shared := fun _ => rfl

/-- A block that a validation accepts has rows, and they are what the visitor saw. -/
theorem exists_rows {σ : Type} (hblock : block.Created) {visitor : σ → Bytes → Bytes → Result σ}
    {state state' : σ} (h : block.validateEntriesWith visitor state = .ok state') :
    ∃ entries, Nonempty (Rows block entries) ∧
      entries.foldlM (fun state entry => visitor state entry.1 entry.2) state = .ok state' := by
  suffices hrows : ∃ entries, Nonempty (Rows block entries) by
    obtain ⟨entries, ⟨rows⟩⟩ := hrows
    exact ⟨entries, ⟨rows⟩, (rows.validateEntriesWith_eq visitor state).symm.trans h⟩
  rw [validateEntriesWith] at h
  split at h
  · cases h
  next hrestarts =>
  rw [not_or, not_not] at hrestarts
  by_cases hend : block.entriesEnd = 0
  · rw [hend, validateFromWith, hend, if_neg (Nat.lt_irrefl 0), if_pos rfl] at h
    dsimp only at h
    split at h
    · cases h
    · next hcount => exact ⟨[], ⟨emptyRows hend (by omega) hrestarts.2⟩⟩
  · obtain ⟨rows, hstart, hwalk, _⟩ := walk_of_validateFromWith hblock hend _ (Nat.zero_le _) h
    have hsome : rows ≠ [] := by
      rintro rfl
      exact hend hstart
    exact ⟨_, ⟨hwalk.toRows hstart hsome (Nat.pos_of_ne_zero hrestarts.1) hrestarts.2⟩⟩

/-! ## What the visitor saw -/

def recording {σ : Type} (visitor : σ → Bytes → Bytes → Result σ)
    (state : σ × List (Bytes × Bytes)) (key value : Bytes) : Result (σ × List (Bytes × Bytes)) := do
  let next ← visitor state.1 key value
  return (next, state.2 ++ [(key, value)])

theorem foldlM_recording {σ : Type} {visitor : σ → Bytes → Bytes → Result σ}
    (entries : List (Bytes × Bytes)) : ∀ {state state' : σ} (seen : List (Bytes × Bytes)),
    entries.foldlM (fun state entry => visitor state entry.1 entry.2) state = .ok state' →
    entries.foldlM (fun state entry => recording visitor state entry.1 entry.2) (state, seen) =
      .ok (state', seen ++ entries) := by
  induction entries with
  | nil =>
    intro state state' seen h
    cases h
    rw [List.append_nil]
    rfl
  | cons entry entries ih =>
    intro state state' seen h
    obtain ⟨next, hvisit, hrest⟩ := Result.bind_eq_ok.mp h
    refine Result.bind_eq_ok.mpr ⟨(next, seen ++ [entry]), ?_, ?_⟩
    · exact Result.bind_eq_ok.mpr ⟨next, hvisit, rfl⟩
    · have hlist := ih (seen ++ [entry]) hrest
      rw [List.append_assoc] at hlist
      exact hlist

theorem visited_of_foldlM {σ : Type} {visitor : σ → Bytes → Bytes → Result σ}
    {P : Bytes × Bytes → Prop}
    (hvisitor : ∀ state entry state', visitor state entry.1 entry.2 = .ok state' → P entry)
    (entries : List (Bytes × Bytes)) : ∀ {state state' : σ},
    entries.foldlM (fun state entry => visitor state entry.1 entry.2) state = .ok state' →
    ∀ entry ∈ entries, P entry := by
  induction entries with
  | nil => exact fun _ entry hentry => absurd hentry List.not_mem_nil
  | cons entry entries ih =>
    intro state state' h entry' hentry'
    obtain ⟨next, hvisit, hrest⟩ := Result.bind_eq_ok.mp h
    rcases List.mem_cons.mp hentry' with rfl | hmem
    · exact hvisitor state entry' next hvisit
    · exact ih hrest entry' hmem

end Block

/-! ## Moves over any comparator -/

namespace Rows

variable {block : Block} {entries : List (Bytes × Bytes)} {rows : Rows block entries}
  {format : BlockKeyFormat} (order : Bytes → Bytes → Ordering) (entrySize : Nat)
  (haccepts : ∀ entry ∈ entries, format.acceptsKeySize entry.1.length = true)
include haccepts

theorem move_shows {it : BlockIterator} {position : Option Nat} {m : Cursor.Move Bytes}
    (h : rows.Shows it position)
    (haccepted : m.Accepted fun target => format.acceptsKeySize target.length = true)
    (hallowed : Cursor.Allowed m ((blockIteratorBy order block format entrySize).current it)) :
    ∃ position', rows.Shows (it.move order block format entrySize m) position' := by
  rw [h.current] at hallowed
  cases m with
  | seekToFirst => exact ⟨_, seekToFirst_shows haccepts it⟩
  | seekToLast => exact ⟨_, seekToLast_shows haccepts it⟩
  | seek target => exact seek_shows_some haccepts h haccepted
  | next =>
    cases position with
    | none => exact hallowed.elim
    | some i => exact ⟨_, moveNext_shows haccepts h⟩
  | prev =>
    cases position with
    | none => exact hallowed.elim
    | some i => exact ⟨_, movePrev_shows haccepts entrySize h⟩

theorem run_shows (hblock : block.Created) (moves : List (Cursor.Move Bytes)) :
    ∀ {it : BlockIterator} {position : Option Nat}, rows.Shows it position →
      BlockAccess.Safe block it →
      (∀ m ∈ moves, m.Accepted fun target => format.acceptsKeySize target.length = true) →
      (blockIteratorBy order block format entrySize).AllowedRun moves it →
      ∃ it' position', (blockIteratorBy order block format entrySize).run moves it = (.ok (), it') ∧
        BlockAccess.run order block format entrySize moves it = some it' ∧
        (blockIteratorBy order block format entrySize).after moves it = it' ∧
        rows.Shows it' position' ∧ BlockAccess.Safe block it' := by
  induction moves with
  | nil => exact fun h hsafe _ _ => ⟨_, _, rfl, rfl, rfl, h, hsafe⟩
  | cons m moves ih =>
    intro it position h hsafe haccepted hallowed
    obtain ⟨position', hshows⟩ := move_shows order entrySize haccepts h
      (haccepted m List.mem_cons_self) hallowed.1
    have hagrees := BlockAccess.move_agrees hblock order format entrySize hsafe hallowed.1
    have hmove : (blockIteratorBy order block format entrySize).move m it =
        (.ok (), it.move order block format entrySize m) :=
      Prod.ext (if_neg (by rw [hshows.sound]; exact Bool.false_ne_true)) rfl
    obtain ⟨it', position'', hrun, hchecked, hafter, hlast⟩ := ih hshows hagrees.safe
      (fun m hm => haccepted m (List.mem_cons_of_mem _ hm)) hallowed.2
    refine ⟨it', position'', ?_, ?_, hafter, hlast⟩
    · rw [Cursor.Iterator.run, hmove]
      exact hrun
    · rw [BlockAccess.run, List.foldlM_cons, hagrees.eq]
      exact hchecked

variable (rows)

omit haccepts in
theorem repeat_shows (first m : Cursor.Move Bytes) (position : Nat → Option Nat)
    (it : BlockIterator)
    (hallowed : Cursor.Allowed first ((blockIteratorBy order block format entrySize).current it))
    (hfirst : rows.Shows (it.move order block format entrySize first) (position 0))
    (hstep : ∀ {k : Nat} {it : BlockIterator}, k < entries.length → rows.Shows it (position k) →
      Cursor.Allowed m ((blockIteratorBy order block format entrySize).current it) ∧
        rows.Shows (it.move order block format entrySize m) (position (k + 1)))
    (k : Nat) (hk : k ≤ entries.length) :
    (blockIteratorBy order block format entrySize).AllowedRun (first :: List.replicate k m) it ∧
      rows.Shows ((blockIteratorBy order block format entrySize).after
        (first :: List.replicate k m) it) (position k) := by
  induction k with
  | zero => exact ⟨⟨hallowed, trivial⟩, hfirst⟩
  | succ k ih =>
    obtain ⟨hrun, hshows⟩ := ih (Nat.le_of_succ_le hk)
    obtain ⟨hnext, hmoved⟩ := hstep hk hshows
    rw [List.replicate_succ', ← List.cons_append]
    refine ⟨(Cursor.Iterator.allowedRun_append _ _).mpr ⟨hrun, hnext, trivial⟩, ?_⟩
    rw [Cursor.Iterator.after, List.foldl_append]
    exact hmoved

include rows in
theorem forward_shows (it : BlockIterator) {k : Nat} (hk : k ≤ entries.length) :
    (blockIteratorBy order block format entrySize).AllowedRun
        (.seekToFirst :: List.replicate k .next) it ∧
      (blockIteratorBy order block format entrySize).current
        ((blockIteratorBy order block format entrySize).after
          (.seekToFirst :: List.replicate k .next) it) = entries[k]? := by
  have hstep {k : Nat} {it : BlockIterator} (hlt : k < entries.length)
      (h : rows.Shows it (Cursor.inside entries k)) :
      Cursor.Allowed .next ((blockIteratorBy order block format entrySize).current it) ∧
        rows.Shows (it.move order block format entrySize .next) (Cursor.inside entries (k + 1)) := by
    rw [inside_eq hlt] at h
    refine ⟨?_, moveNext_shows haccepts h⟩
    rw [h.current, Option.bind_some, List.getElem?_eq_getElem hlt]
    trivial
  obtain ⟨hallowed, hshows⟩ := repeat_shows rows order entrySize .seekToFirst .next
    (Cursor.inside entries) it trivial (seekToFirst_shows haccepts it) hstep k hk
  refine ⟨hallowed, ?_⟩
  rw [hshows.current, Cursor.inside]
  split
  · rfl
  · next hge => exact (List.getElem?_eq_none (Nat.le_of_not_lt hge)).symm

include rows in
theorem backward_shows (it : BlockIterator) {k : Nat} (hk : k ≤ entries.length) :
    (blockIteratorBy order block format entrySize).AllowedRun
        (.seekToLast :: List.replicate k .prev) it ∧
      (blockIteratorBy order block format entrySize).current
        ((blockIteratorBy order block format entrySize).after
          (.seekToLast :: List.replicate k .prev) it) = entries.reverse[k]? := by
  have hfirst : Cursor.inside entries (entries.length - 1) = (entries.length - 0).ppred := by
    cases entries with
    | nil => rfl
    | cons entry entries => exact inside_eq (Nat.lt_succ_self _)
  have hstep {k : Nat} {it : BlockIterator} (hlt : k < entries.length)
      (h : rows.Shows it (entries.length - k).ppred) :
      Cursor.Allowed .prev ((blockIteratorBy order block format entrySize).current it) ∧
        rows.Shows (it.move order block format entrySize .prev)
          (entries.length - (k + 1)).ppred := by
    have hpos : (entries.length - k).ppred = some (entries.length - (k + 1)) :=
      Nat.ppred_eq_some.mpr (by omega)
    rw [hpos] at h
    refine ⟨?_, movePrev_shows haccepts entrySize h⟩
    rw [h.current, Option.bind_some, List.getElem?_eq_getElem (by omega)]
    trivial
  obtain ⟨hallowed, hshows⟩ := repeat_shows rows order entrySize .seekToLast .prev
    (fun k => (entries.length - k).ppred) it trivial (hfirst ▸ seekToLast_shows haccepts it) hstep k hk
  refine ⟨hallowed, ?_⟩
  rw [hshows.current]
  rcases Nat.eq_or_lt_of_le hk with rfl | hlt
  · rw [Nat.sub_self, List.getElem?_eq_none (by rw [List.length_reverse])]
    rfl
  · rw [Nat.ppred_eq_some.mpr (show (entries.length - (k + 1)).succ = entries.length - k by omega),
      List.getElem?_reverse hlt]
    exact congrArg (entries[·]?) (by omega)

end Rows
end ModernLevelDB
