import ModernLevelDB.Table.BlockFinish

/-! # The iterator of a block moves as a cursor

Over a block with rows, the iterator stands at an entry when its offsets, key and value are that
entry's and its restart point is not behind it. A parse takes it from one entry to the next. The
reverse cache describes consecutive entries, the last of them the one that a step back looked for. -/
namespace ModernLevelDB
set_option autoImplicit false

namespace Rows

variable {block : Block} {entries : List (Bytes × Bytes)} (rows : Rows block entries)

/-! ## Standing at an entry -/

/-- The iterator stands on row `i`. -/
structure At (it : BlockIterator) (i : Nat) (entry : Bytes × Bytes) : Prop where
  inside : entries[i]? = some entry
  current : it.current = rows.offset i
  next : it.next = rows.offset (i + 1)
  key : it.key block = entry.1
  value : it.valueBytes block = entry.2
  index_lt : it.restartIndex < block.restartCount
  index_le : rows.restart it.restartIndex ≤ i
  sound : it.corrupted = false

/-- The next parse is that of entry `i`. -/
structure Ready (it : BlockIterator) (i : Nat) : Prop where
  le : i ≤ entries.length
  next : it.next = rows.offset i
  kept : rows.Kept i (it.key block)
  index_lt : it.restartIndex < block.restartCount
  index_le : rows.restart it.restartIndex ≤ i
  sound : it.corrupted = false

variable {rows} {it : BlockIterator} {i : Nat} {entry : Bytes × Bytes} {format : BlockKeyFormat}

theorem At.lt (h : rows.At it i entry) : i < entries.length :=
  (List.getElem?_eq_some_iff.mp h.inside).1

theorem At.ready (h : rows.At it i entry) : rows.Ready it (i + 1) where
  le := h.lt
  next := h.next
  kept := by
    rw [h.key]
    exact rows.kept_succ h.inside
  index_lt := h.index_lt
  index_le := h.index_le.trans (Nat.le_succ i)
  sound := h.sound

theorem At.valid (h : rows.At it i entry) : it.valid block = true := by
  rw [BlockIterator.valid, h.current, decide_eq_true_iff]
  exact (rows.offset_lt_end h.lt.le).mpr h.lt

theorem kept_restart {j : Nat} (hj : j < block.restartCount) (previous : Bytes) :
    rows.Kept (rows.restart j) previous := .inl (rows.restart_shared hj)

/-! ## Parsing -/

theorem advanceRestartIndex_eq (rows : Rows block entries) (hi : i ≤ entries.length) (fuel : Nat) :
    ∀ it : BlockIterator, it.current = rows.offset i → it.restartIndex < block.restartCount →
    rows.restart it.restartIndex ≤ i → block.restartCount - it.restartIndex ≤ fuel →
      ∃ index, it.advanceRestartIndex block fuel = (true, { it with restartIndex := index }) ∧
        index < block.restartCount ∧ rows.restart index ≤ i := by
  induction fuel with
  | zero => intro it _ hlt _ hfuel; omega
  | succ fuel ih =>
    intro it hcurrent hlt hle hfuel
    rw [BlockIterator.advanceRestartIndex]
    by_cases hmore : it.restartIndex + 1 < block.restartCount
    · rw [if_pos hmore, rows.restartPoint_eq hmore]
      dsimp only
      by_cases hstop : rows.offset (rows.restart (it.restartIndex + 1)) ≥ it.current
      · rw [if_pos hstop]
        exact ⟨it.restartIndex, rfl, hlt, hle⟩
      · rw [if_neg hstop]
        rw [ge_iff_le, not_le, hcurrent, rows.offset_lt_iff (rows.restart_le hmore) hi] at hstop
        exact ih _ hcurrent hmore hstop.le (by dsimp only; omega)
    · rw [if_neg hmore]
      exact ⟨it.restartIndex, rfl, hlt, hle⟩

theorem findPreviousRestart_eq (rows : Rows block entries) {original : Nat}
    (hi : i ≤ entries.length) (horiginal : original = rows.offset i) (fuel : Nat) :
    ∀ it : BlockIterator, it.restartIndex < block.restartCount → rows.restart it.restartIndex ≤ i →
      it.restartIndex < fuel →
      (i = 0 ∧ ∃ index, it.findPreviousRestart block original fuel =
        (false, { it with restartIndex := index }.invalidate block)) ∨
      ∃ index, it.findPreviousRestart block original fuel =
          (true, { it with restartIndex := index }) ∧
        index < block.restartCount ∧ rows.restart index < i := by
  subst horiginal
  induction fuel with
  | zero => intro it _ _ hfuel; omega
  | succ fuel ih =>
    intro it hcount hle hfuel
    rw [BlockIterator.findPreviousRestart, rows.restartPoint_eq hcount]
    dsimp only
    by_cases hbefore : rows.restart it.restartIndex < i
    · rw [if_pos ((rows.offset_lt_iff (rows.restart_le hcount) hi).mpr hbefore)]
      exact .inr ⟨it.restartIndex, rfl, hcount, hbefore⟩
    · rw [if_neg (fun h => hbefore ((rows.offset_lt_iff (rows.restart_le hcount) hi).mp h))]
      by_cases hzero : it.restartIndex = 0
      · rw [if_pos hzero]
        rw [hzero, rows.restart_zero] at hbefore
        exact .inl ⟨Nat.eq_zero_of_not_pos hbefore, it.restartIndex, rfl⟩
      · rw [if_neg hzero]
        have hprevious := rows.restart_strictMono (Nat.sub_one_lt hzero) hcount
        exact ih _ (by dsimp only; omega) (by dsimp only; omega) (by dsimp only; omega)

/-- The key does not point into the cache. -/
def Detached (it : BlockIterator) : Prop := ∀ offset size, it.borrowedKey ≠ some (.cache offset size)

theorem At.replace (h : rows.At it i entry) (hdetached : Detached it) (cache : Option ReverseCache) :
    rows.At { it with cache } i entry := by
  refine { h with key := ?_ }
  rw [← h.key, BlockIterator.key, BlockIterator.key]
  cases hborrowed : it.borrowedKey with
  | none => rfl
  | some view =>
    cases view with
    | block offset size => rfl
    | cache offset size => exact absurd hborrowed (hdetached offset size)

theorem At.next_lt (h : rows.At it i entry) {target : Nat} (htarget : target ≤ entries.length) :
    it.next < rows.offset target ↔ i + 1 < target := by
  rw [h.next, rows.offset_lt_iff h.lt htarget]

/-- The reverse cache is as before. -/
structure SameCache (it it' : BlockIterator) : Prop where
  cache : it'.cache = it.cache
  active : it'.reverseCacheActive = it.reverseCacheActive

theorem advance_at {moved : BlockIterator} (hentry : entries[i]? = some entry)
    (hcurrent : moved.current = rows.offset i) (hnext : moved.next = rows.offset (i + 1))
    (hkey : moved.key block = entry.1) (hvalue : moved.valueBytes block = entry.2)
    (hlt : moved.restartIndex < block.restartCount) (hle : rows.restart moved.restartIndex ≤ i)
    (hsound : moved.corrupted = false) (hdetached : Detached moved) (hsame : SameCache it moved) :
    ∃ it', moved.advanceRestartIndex block block.restartCount = (true, it') ∧ rows.At it' i entry ∧
      Detached it' ∧ SameCache it it' := by
  have hi : i ≤ entries.length := (List.getElem?_eq_some_iff.mp hentry).1.le
  obtain ⟨index, hadvance, hlt', hle'⟩ := rows.advanceRestartIndex_eq hi block.restartCount moved
    hcurrent hlt hle (Nat.sub_le _ _)
  exact ⟨_, hadvance, ⟨hentry, hcurrent, hnext, hkey, hvalue, hlt', hle', hsound⟩, hdetached,
    hsame.cache, hsame.active⟩

theorem commitEntry_eq (header : EntryHeader) (keyOffset : Nat) :
    it.commitEntry block header keyOffset =
      let held :=
        if header.shared = 0 then { it with borrowedKey := some (.block keyOffset header.nonShared) }
        else { it with
          keyBuffer := (it.key block).take header.shared ++ block.slice keyOffset header.nonShared
          borrowedKey := none }
      BlockIterator.advanceRestartIndex block block.restartCount { held with
        current := held.next
        value := (keyOffset + header.nonShared, header.valueSize)
        next := keyOffset + header.nonShared + header.valueSize } := by
  rw [BlockIterator.commitEntry, BlockIterator.key]
  cases it.borrowedKey <;> rfl

theorem commitEntry_at {keyOffset : Nat} (hready : rows.Ready it i) (hentry : entries[i]? = some entry)
    (hrow : RowAt block (rows.offset i) keyOffset (rows.offset (i + 1)) (rows.shared i) entry.1
      entry.2) :
    ∃ it', it.commitEntry block ⟨rows.shared i, entry.1.length - rows.shared i, entry.2.length⟩
        keyOffset = (true, it') ∧ rows.At it' i entry ∧ Detached it' ∧ SameCache it it' := by
  obtain ⟨_, hkey⟩ := rows.key_eq hentry hready.kept
  rw [commitEntry_eq]
  by_cases hzero : rows.shared i = 0
  · rw [if_pos hzero]
    have hborrowed : block.slice keyOffset (entry.1.length - rows.shared i) = entry.1 := by
      rw [hrow.delta, hzero]
      rfl
    exact advance_at hentry hready.next hrow.next_eq hborrowed hrow.value_eq hready.index_lt
      hready.index_le hready.sound (fun _ _ h => nomatch h) ⟨rfl, rfl⟩
  · rw [if_neg hzero]
    rw [hrow.delta, hkey]
    exact advance_at hentry hready.next hrow.next_eq rfl hrow.value_eq hready.index_lt
      hready.index_le hready.sound (fun _ _ h => nomatch h) ⟨rfl, rfl⟩

theorem parse_at (hready : rows.Ready it i) (hentry : entries[i]? = some entry)
    (haccepts : format.acceptsKeySize entry.1.length = true) :
    ∃ it', it.parseNextEntry block format = (true, it') ∧ rows.At it' i entry ∧ Detached it' ∧
      SameCache it it' := by
  obtain ⟨keyOffset, hrow⟩ := rows.row hentry
  obtain ⟨hle, _⟩ := rows.key_eq hentry hready.kept
  have hi := (List.getElem?_eq_some_iff.mp hentry).1
  have hinside : ¬it.next ≥ block.entriesEnd := by
    rw [hready.next, ge_iff_le, not_le]
    exact (rows.offset_lt_end hi.le).mpr hi
  have hsize : rows.shared i + (entry.1.length - rows.shared i) = entry.1.length := by
    have hshared := hrow.shared_le
    omega
  rw [BlockIterator.parseNextEntry, if_neg hinside, hready.next, hrow.decode]
  dsimp only
  rw [if_neg (Nat.not_lt.mpr hle), hsize, if_neg (by rw [haccepts]; simp)]
  exact commitEntry_at hready hentry hrow

theorem parse_end (hready : rows.Ready it entries.length) (format : BlockKeyFormat) :
    it.parseNextEntry block format = (false, it.invalidate block) := by
  have hend : it.next ≥ block.entriesEnd := by
    rw [hready.next, rows.offset_end]
  rw [BlockIterator.parseNextEntry, if_pos hend]

/-- No reverse cache in use, no damage seen. -/
structure Plain (it : BlockIterator) : Prop where
  inactive : it.reverseCacheActive = false
  sound : it.corrupted = false

theorem plain_beginPositioning (it : BlockIterator) : Plain it.beginPositioning := ⟨rfl, rfl⟩

theorem seekToRestartPoint_ready (rows : Rows block entries) {j : Nat} (hplain : Plain it)
    (hj : j < block.restartCount) :
    ∃ it', it.seekToRestartPoint block j = (true, it') ∧ rows.Ready it' (rows.restart j) ∧
      Plain it' := by
  rw [BlockIterator.seekToRestartPoint, rows.restartPoint_eq hj]
  exact ⟨_, rfl, ⟨rows.restart_le hj, rfl, kept_restart hj _, hj, Nat.le_refl _, hplain.sound⟩,
    hplain.inactive, hplain.sound⟩

/-! ## The reverse cache -/

variable (rows) in
/-- A cache entry is the state of an iterator at entry `i`, with its key in the block or in `keys`. -/
structure Describes (keys : Bytes) (cached : ReverseCacheEntry) (i : Nat) (entry : Bytes × Bytes) :
    Prop where
  inside : entries[i]? = some entry
  current : cached.current = rows.offset i
  next : cached.next = rows.offset (i + 1)
  index_lt : cached.restartIndex < block.restartCount
  index_le : rows.restart cached.restartIndex ≤ i
  borrowed : ∀ {offset : Nat}, cached.keyData = some offset →
    block.slice offset cached.keySize = entry.1
  copied : cached.keyData = none → cached.keyOffset + cached.keySize ≤ keys.length ∧
    (keys.drop cached.keyOffset).take cached.keySize = entry.1
  value : block.slice cached.value.1 cached.value.2 = entry.2

theorem Describes.append {keys : Bytes} {cached : ReverseCacheEntry}
    (h : rows.Describes keys cached i entry) (more : Bytes) :
    rows.Describes (keys ++ more) cached i entry := by
  refine { h with copied := fun hnone => ?_ }
  obtain ⟨hle, hkey⟩ := h.copied hnone
  refine ⟨hle.trans (by rw [List.length_append]; exact Nat.le_add_right _ _), ?_⟩
  rw [List.drop_append_of_le_length (by omega),
    List.take_append_of_le_length (by rw [List.length_drop]; omega), hkey]

variable (rows) in
/-- The cache describes the entries from `start` on. -/
def Cached (cache : ReverseCache) (start : Nat) : Prop :=
  ∀ {p : Nat} {cached : ReverseCacheEntry}, cache.entries[p]? = some cached →
    ∃ entry, rows.Describes cache.keys cached (start + p) entry

theorem cached_empty (start : Nat) : rows.Cached {} start := fun h => nomatch h

theorem appendToCache_cached {cache cache' : ReverseCache} {start entrySize budget : Nat}
    (hat : rows.At it (start + cache.entries.length) entry) (hdetached : Detached it)
    (hcached : rows.Cached cache start)
    (happend : it.appendToCache block entrySize budget cache = some cache') :
    rows.Cached cache' start ∧ cache'.entries.length = cache.entries.length + 1 := by
  rw [BlockIterator.appendToCache] at happend
  obtain ⟨_, hcache'⟩ := Option.ite_none_left_eq_some.mp happend
  obtain rfl := Option.some.inj hcache'
  refine ⟨fun {p cached} hp => ?_, by simp⟩
  dsimp only at hp ⊢
  have hgrow : ∃ more, (if it.borrowedKey.isNone = true then cache.keys ++ it.key block
      else cache.keys) = cache.keys ++ more := by
    split
    · exact ⟨_, rfl⟩
    · exact ⟨[], (List.append_nil _).symm⟩
  rcases Nat.lt_trichotomy p cache.entries.length with hlt | rfl | hgt
  · rw [List.getElem?_append_left hlt] at hp
    obtain ⟨entry', hdescribes⟩ := hcached hp
    obtain ⟨more, hmore⟩ := hgrow
    rw [hmore]
    exact ⟨entry', hdescribes.append more⟩
  · rw [List.getElem?_concat_length] at hp
    obtain rfl := Option.some.inj hp
    refine ⟨entry, hat.inside, hat.current, hat.next, hat.index_lt, hat.index_le, ?_, ?_, hat.value⟩
    · intro offset hoffset
      dsimp only at hoffset ⊢
      split at hoffset
      · next place size hborrowed =>
        obtain rfl := Option.some.inj hoffset
        have hkey := hat.key
        rw [BlockIterator.key, hborrowed] at hkey
        rw [hat.key, ← hkey]
        show (block.contents.drop place).take ((block.contents.drop place).take size).length = _
        rw [List.length_take, ← List.take_take, List.take_length]
        rfl
      · cases hoffset
    · intro hnone
      dsimp only at hnone ⊢
      have hcopied : it.borrowedKey = none := by
        cases hborrowed : it.borrowedKey with
        | none => rfl
        | some view =>
          cases view with
          | block offset size =>
            rw [hborrowed] at hnone
            cases hnone
          | cache offset size => exact absurd hborrowed (hdetached offset size)
      rw [hcopied, if_pos Option.isNone_none, List.length_append, List.drop_left, List.take_length]
      exact ⟨Nat.le_refl _, hat.key⟩
  · rw [List.getElem?_eq_none (by rw [List.length_append, List.length_singleton]; omega)] at hp
    cases hp

theorem restore_at (it : BlockIterator) (cache : ReverseCache) {start : Nat}
    (hcached : rows.Cached cache start)
    (hposition : cache.position < cache.entries.length) (hsound : it.corrupted = false) :
    ∃ entry, rows.At (it.restore cache) (start + cache.position) entry ∧
      (it.restore cache).cache = some cache ∧
      (it.restore cache).reverseCacheActive = it.reverseCacheActive := by
  obtain ⟨cached, hentry⟩ : ∃ cached, cache.entries[cache.position]? = some cached :=
    ⟨_, List.getElem?_eq_getElem hposition⟩
  obtain ⟨entry, hdescribes⟩ := hcached hentry
  refine ⟨entry, ?_⟩
  rw [BlockIterator.restore, hentry]
  refine ⟨⟨hdescribes.inside, hdescribes.current, hdescribes.next, ?_, hdescribes.value,
    hdescribes.index_lt, hdescribes.index_le, hsound⟩, rfl, rfl⟩
  dsimp only [BlockIterator.key]
  cases hdata : cached.keyData with
  | some offset => exact hdescribes.borrowed hdata
  | none => exact (hdescribes.copied hdata).2

/-! ## Positions -/

variable (rows) in
/-- While the cache is active the iterator stands at the entry of its position. -/
def InCache (it : BlockIterator) (i : Nat) : Prop :=
  it.reverseCacheActive = true → ∃ cache start, it.cache = some cache ∧ rows.Cached cache start ∧
    cache.position < cache.entries.length ∧ i = start + cache.position

variable (rows) in
/-- The position of a sound iterator: a row, or none. -/
def Shows (it : BlockIterator) : Option Nat → Prop
  | none => it.current = block.entriesEnd ∧ it.corrupted = false
  | some i => ∃ entry, rows.At it i entry ∧ rows.InCache it i

theorem At.shows (h : rows.At it i entry) (hplain : Plain it) : rows.Shows it (some i) :=
  ⟨entry, h, fun hactive => by rw [hplain.inactive] at hactive; cases hactive⟩

theorem shows_invalidate (hplain : Plain it) : rows.Shows (it.invalidate block) none :=
  ⟨rfl, hplain.sound⟩

theorem selectLast_shows {cache : ReverseCache} {start : Nat} (hcached : rows.Cached cache start)
    (hsome : 0 < cache.entries.length) (hsound : it.corrupted = false) :
    rows.Shows (it.selectLast cache) (some (start + (cache.entries.length - 1))) := by
  obtain ⟨entry, hat, hcache, _⟩ := restore_at it
    { cache with position := cache.entries.length - 1 } hcached (Nat.sub_one_lt hsome.ne') hsound
  exact ⟨entry, { hat with }, fun _ => ⟨_, start, hcache, hcached, Nat.sub_one_lt hsome.ne', rfl⟩⟩

theorem SameCache.plain {it' : BlockIterator} (h : SameCache it it') (hplain : Plain it)
    (hat : rows.At it' i entry) : Plain it' := ⟨h.active.trans hplain.inactive, hat.sound⟩

theorem inside_eq (h : i < entries.length) : Cursor.inside entries i = some i := if_pos h

theorem inside_length : Cursor.inside entries entries.length = none := if_neg (lt_irrefl _)

section Format

variable (haccepts : ∀ entry ∈ entries, format.acceptsKeySize entry.1.length = true)
include haccepts

theorem parse_next (hready : rows.Ready it i) (hplain : Plain it) (hi : i < entries.length) :
    ∃ it' entry, it.parseNextEntry block format = (true, it') ∧ rows.At it' i entry ∧
      Detached it' ∧ Plain it' := by
  obtain ⟨it', hparse, hat, hdetached, hsame⟩ := parse_at hready (List.getElem?_eq_getElem hi)
    (haccepts _ (List.getElem_mem hi))
  exact ⟨it', _, hparse, hat, hdetached, hsame.plain hplain hat⟩

theorem parse_shows (hready : rows.Ready it i) (hplain : Plain it) :
    rows.Shows (it.parseNextEntry block format).2 (Cursor.inside entries i) := by
  rcases Nat.eq_or_lt_of_le hready.le with rfl | hi
  · rw [parse_end hready, inside_length]
    exact shows_invalidate hplain
  · obtain ⟨it', _, hparse, hat, _, hplain'⟩ := parse_next haccepts hready hplain hi
    rw [hparse, inside_eq hi]
    exact hat.shows hplain'

theorem seekToFirst_shows (it : BlockIterator) :
    rows.Shows (it.seekToFirst block format) (Cursor.inside entries 0) := by
  have hpos := rows.restarts_pos
  obtain ⟨it', hseek, hready, hplain⟩ := rows.seekToRestartPoint_ready (plain_beginPositioning it) hpos
  rw [rows.restart_zero] at hready
  rw [BlockIterator.seekToFirst, if_neg hpos.ne', hseek]
  exact parse_shows haccepts hready hplain

theorem scanToLastEntry_shows (fuel : Nat) : ∀ {it : BlockIterator} {i : Nat}, rows.Ready it i →
    Plain it → i < entries.length → entries.length - i ≤ fuel →
    rows.Shows (it.scanToLastEntry block format fuel) (some (entries.length - 1)) := by
  induction fuel with
  | zero => intro it i _ _ hi hfuel; omega
  | succ fuel ih =>
    intro it i hready hplain hi hfuel
    obtain ⟨it', _, hparse, hat, _, hplain'⟩ := parse_next haccepts hready hplain hi
    rw [BlockIterator.scanToLastEntry, hparse]
    dsimp only
    by_cases hmore : i + 1 < entries.length
    · rw [if_pos (by rw [hat.next]; exact (rows.offset_lt_end hmore.le).mpr hmore)]
      exact ih hat.ready hplain' hmore (by omega)
    · rw [if_neg (by rw [hat.next, rows.offset_lt_end hi]; exact hmore),
        show entries.length - 1 = i by omega]
      exact hat.shows hplain'

theorem seekToLast_shows (it : BlockIterator) :
    rows.Shows (it.seekToLast block format) (Cursor.inside entries (entries.length - 1)) := by
  have hpos := rows.restarts_pos
  obtain ⟨it', hseek, hready, hplain⟩ := rows.seekToRestartPoint_ready (plain_beginPositioning it)
    (Nat.sub_one_lt hpos.ne')
  rw [BlockIterator.seekToLast, if_neg hpos.ne', hseek]
  dsimp only
  rcases Nat.eq_zero_or_pos entries.length with hempty | hsome
  · have hend : rows.restart (block.restartCount - 1) = entries.length := by
      have := hready.le
      omega
    rw [hend] at hready
    rw [BlockIterator.scanToLastEntry, parse_end hready, hempty, ← hempty, Cursor.inside,
      if_neg (by omega)]
    exact shows_invalidate hplain
  · rw [inside_eq (Nat.sub_one_lt hsome.ne')]
    have hlength := rows.length_le
    exact scanToLastEntry_shows haccepts _ hready hplain
      (rows.restart_lt_length hsome (Nat.sub_one_lt hpos.ne')) (by omega)

/-! ## Steps back -/

theorem skipToPrevious_shows {target : Nat} (htarget : target < entries.length) (fuel : Nat) :
    ∀ {it : BlockIterator} {i : Nat} {entry : Bytes × Bytes}, rows.At it i entry → Plain it →
      i < target → target - i ≤ fuel →
      rows.Shows (it.skipToPrevious block format (rows.offset target) fuel) (some (target - 1)) := by
  induction fuel with
  | zero => intro it i entry _ _ hi hfuel; omega
  | succ fuel ih =>
    intro it i entry hat hplain hi hfuel
    rw [BlockIterator.skipToPrevious]
    by_cases hmore : i + 1 < target
    · obtain ⟨it', _, hparse, hat', _, hplain'⟩ := parse_next haccepts hat.ready hplain (by omega)
      rw [if_pos ((hat.next_lt htarget.le).mpr hmore), hparse]
      exact ih hat' hplain' hmore (by omega)
    · rw [if_neg (fun h => hmore ((hat.next_lt htarget.le).mp h)), show target - 1 = i by omega]
      exact hat.shows hplain

/-- The replay caches the entries from `start` on, and ends in front of entry `target`, with the cache
or, when its budget is used up, without. -/
theorem replay_shows {target start : Nat} (entrySize budget : Nat) (htarget : target < entries.length)
    (fuel : Nat) : ∀ (cache : ReverseCache) {it : BlockIterator} {entry : Bytes × Bytes},
      rows.At it (start + cache.entries.length) entry → Detached it → Plain it →
      rows.Cached cache start → start + cache.entries.length < target →
      target - (start + cache.entries.length) < fuel →
      rows.Shows (it.replay block format entrySize (rows.offset target) budget fuel cache)
        (some (target - 1)) := by
  induction fuel with
  | zero => intro cache it entry _ _ _ _ hlt hfuel; omega
  | succ fuel ih =>
    intro cache it entry hat hdetached hplain hcached hlt hfuel
    rw [BlockIterator.replay]
    cases happend : it.appendToCache block entrySize budget cache with
    | none =>
      exact skipToPrevious_shows haccepts htarget fuel (hat.replace hdetached _)
        ⟨hplain.inactive, hplain.sound⟩ hlt (by omega)
    | some cache' =>
      obtain ⟨hcached', hlength⟩ := appendToCache_cached hat hdetached hcached happend
      have hat' := hat.replace hdetached (some cache')
      have hplain' : Plain { it with cache := some cache' } := ⟨hplain.inactive, hplain.sound⟩
      dsimp only
      by_cases hmore : start + cache.entries.length + 1 < target
      · obtain ⟨it', _, hparse, hat'', hdetached', hplain''⟩ :=
          parse_next haccepts hat'.ready hplain' (by omega)
        rw [if_neg (Nat.not_le.mpr ((hat'.next_lt htarget.le).mpr hmore)), hparse]
        rw [Nat.add_assoc, ← hlength] at hat'' hmore
        exact ih cache' hat'' hdetached' hplain'' hcached' hmore (by omega)
      · rw [if_pos (Nat.le_of_not_lt (fun h => hmore ((hat'.next_lt htarget.le).mp h))),
          show target - 1 = start + (cache'.entries.length - 1) by omega]
        exact selectLast_shows hcached' (by omega) hplain.sound

theorem scanToPreviousEntry_shows {target start : Nat} (entrySize : Nat)
    (htarget : target < entries.length) (hready : rows.Ready it start) (hplain : Plain it)
    (hlt : start < target) :
    rows.Shows (it.scanToPreviousEntry block format entrySize (rows.offset target))
      (some (target - 1)) := by
  obtain ⟨it', _, hparse, hat, hdetached, hplain'⟩ := parse_next haccepts hready hplain (by omega)
  rw [BlockIterator.scanToPreviousEntry, hparse]
  dsimp only
  by_cases hmore : start + 1 < target
  · rw [if_neg (Nat.not_le.mpr ((hat.next_lt htarget.le).mpr hmore))]
    have hlength := rows.length_le
    exact replay_shows haccepts entrySize _ htarget _ {} (hat.replace hdetached _)
      hdetached ⟨hplain'.inactive, hplain'.sound⟩ (cached_empty start) hlt (by
        show target - start < _
        omega)
  · rw [if_pos (Nat.le_of_not_lt (fun h => hmore ((hat.next_lt htarget.le).mp h))),
      show target - 1 = start by omega]
    exact hat.shows hplain'

theorem movePrev_replay (entrySize : Nat) (hat : rows.At it i entry)
    (hcache : (if it.reverseCacheActive = true then it.tryPrevious else none) = none) :
    rows.Shows (it.movePrev block format entrySize) i.ppred := by
  have hplain (index : Nat) : Plain { it with reverseCacheActive := false, restartIndex := index } :=
    ⟨rfl, hat.sound⟩
  rw [BlockIterator.movePrev, hcache]
  rcases rows.findPreviousRestart_eq hat.lt.le hat.current (block.restartCount + 1)
    { it with reverseCacheActive := false } hat.index_lt hat.index_le
    (hat.index_lt.trans (Nat.lt_succ_self _)) with
    ⟨rfl, index, hfirst⟩ | ⟨index, hfound, hindex, hbefore⟩
  · dsimp only
    rw [hfirst]
    exact shows_invalidate (hplain index)
  · obtain ⟨it', hseek, hready, hplain'⟩ := rows.seekToRestartPoint_ready (hplain index) hindex
    dsimp only
    rw [hfound]
    dsimp only
    rw [hseek, hat.current, show i.ppred = some (i - 1) from Nat.ppred_eq_some.mpr (by omega)]
    exact scanToPreviousEntry_shows haccepts entrySize hat.lt hready hplain' hbefore

theorem movePrev_shows (entrySize : Nat) (h : rows.Shows it (some i)) :
    rows.Shows (it.movePrev block format entrySize) i.ppred := by
  obtain ⟨entry, hat, hin⟩ := h
  by_cases hactive : it.reverseCacheActive = true
  · obtain ⟨cache, start, hcache, hcached, hposition, rfl⟩ := hin hactive
    by_cases hzero : cache.position = 0
    · refine movePrev_replay haccepts entrySize hat ?_
      rw [if_pos hactive, BlockIterator.tryPrevious, hcache]
      exact if_pos hzero
    · have hprevious : cache.position - 1 < cache.entries.length := by omega
      obtain ⟨entry', hat', hcache', _⟩ := restore_at it
        { cache with position := cache.position - 1 } hcached hprevious hat.sound
      rw [BlockIterator.movePrev, if_pos hactive, BlockIterator.tryPrevious, hcache]
      dsimp only
      rw [if_neg hzero, show (start + cache.position).ppred = some (start + (cache.position - 1)) from
        Nat.ppred_eq_some.mpr (by omega)]
      exact ⟨entry', hat', fun _ => ⟨_, start, hcache', hcached, hprevious, rfl⟩⟩
  · exact movePrev_replay haccepts entrySize hat (if_neg hactive)

end Format

/-! ## Seeks

For any comparator a seek goes forward from some entry to the first one that is not below the target.
Where it may begin is a parameter: with keys in order these are the entries up to the lower bound. -/

section Seek

variable (order : Bytes → Bytes → Ordering)

variable (entries) in
/-- A scan from entry `i` ends at entry `p`, or behind the entries. -/
structure ScansTo (target : Bytes) (i p : Nat) : Prop where
  le : i ≤ p
  length : p ≤ entries.length
  below : ∀ {k : Nat} {entry : Bytes × Bytes}, i ≤ k → k < p → entries[k]? = some entry →
    order entry.1 target = .lt
  stops : ∀ {entry : Bytes × Bytes}, entries[p]? = some entry → order entry.1 target ≠ .lt

variable (entries) in
/-- Rows from which a scan for `target` finds its lower bound. -/
structure Starts (target : Bytes) (P : Nat → Prop) : Prop where
  zero : P 0
  down : ∀ {i j : Nat}, i ≤ j → P j → P i
  below : ∀ {i : Nat} {entry : Bytes × Bytes}, entries[i]? = some entry →
    order entry.1 target = .lt → P (i + 1)
  here : ∀ {i : Nat} {entry : Bytes × Bytes}, entries[i]? = some entry →
    order entry.1 target = .eq → P i

variable {order} {target : Bytes} {P : Nat → Prop}

theorem Starts.restart (hstarts : Starts entries order target P)
    (hentry : entries[i]? = some entry) (hbelow : order entry.1 target = .lt) : P i :=
  hstarts.down (Nat.le_succ i) (hstarts.below hentry hbelow)

section Search

variable (haccepts : ∀ entry ∈ entries, format.acceptsKeySize entry.1.length = true)
include haccepts

theorem scanToLowerBound_shows (fuel : Nat) : ∀ {it : BlockIterator} {i : Nat}, rows.Ready it i →
    Plain it → entries.length - i < fuel → ∃ p, ScansTo entries order target i p ∧
      rows.Shows (it.scanToLowerBound order block format target fuel) (Cursor.inside entries p) := by
  induction fuel with
  | zero => intro it i _ _ hfuel; omega
  | succ fuel ih =>
    intro it i hready hplain hfuel
    rw [BlockIterator.scanToLowerBound]
    rcases Nat.eq_or_lt_of_le hready.le with rfl | hi
    · rw [parse_end hready]
      refine ⟨entries.length, ⟨Nat.le_refl _, Nat.le_refl _, fun hk hp => by omega, fun h => ?_⟩, ?_⟩
      · rw [List.getElem?_eq_none (Nat.le_refl _)] at h
        cases h
      · rw [inside_length]
        exact shows_invalidate hplain
    · obtain ⟨it', entry, hparse, hat, _, hplain'⟩ := parse_next haccepts hready hplain hi
      rw [hparse]
      dsimp only
      rw [hat.key]
      by_cases hbelow : order entry.1 target = .lt
      · rw [if_pos hbelow]
        obtain ⟨p, hscan, hshows⟩ := ih hat.ready hplain' (by omega)
        refine ⟨p, ⟨Nat.le_of_succ_le hscan.le, hscan.length, fun {k entry'} hk hp h => ?_,
          hscan.stops⟩, hshows⟩
        rcases Nat.eq_or_lt_of_le hk with rfl | hk
        · cases hat.inside.symm.trans h
          exact hbelow
        · exact hscan.below hk hp h
      · rw [if_neg hbelow]
        refine ⟨i, ⟨Nat.le_refl _, hi.le, fun hk hp => by omega, fun h => ?_⟩, ?_⟩
        · cases hat.inside.symm.trans h
          exact hbelow
        · rw [inside_eq hi]
          exact hat.shows hplain'

theorem restartKey_eq {j : Nat} (hj : j < block.restartCount)
    (hentry : entries[rows.restart j]? = some entry) :
    BlockIterator.restartKey block format j = some entry.1 := by
  obtain ⟨keyOffset, hrow⟩ := rows.row hentry
  have hlt := (List.getElem?_eq_some_iff.mp hentry).1
  have hinside : ¬rows.offset (rows.restart j) ≥ block.entriesEnd :=
    Nat.not_le.mpr ((rows.offset_lt_end hlt.le).mpr hlt)
  have hdelta := hrow.delta
  have hdecode := hrow.decode
  rw [rows.restart_shared hj] at hdelta hdecode
  rw [BlockIterator.restartKey, rows.restartPoint_eq hj]
  dsimp only
  rw [if_neg hinside, hdecode]
  dsimp only
  rw [Nat.sub_zero, if_neg (by simp [haccepts entry (List.mem_of_getElem? hentry)])]
  exact congrArg some hdelta

/-- The search keeps its left end where a scan may begin. -/
theorem findRestart_eq (rows : Rows block entries) (hstarts : Starts entries order target P)
    (fuel : Nat) : ∀ {left right : Nat}, left < block.restartCount → right < block.restartCount →
    right - left ≤ fuel → P (rows.restart left) →
    ∃ index, BlockIterator.findRestart order block format target fuel left right = some index ∧
      index < block.restartCount ∧ P (rows.restart index) := by
  induction fuel with
  | zero => exact fun hleft _ _ hbound => ⟨_, rfl, hleft, hbound⟩
  | succ fuel ih =>
    intro left right hleft hright hfuel hbound
    rw [BlockIterator.findRestart]
    by_cases hmore : left < right
    · have hmiddle : left + (right - left + 1) / 2 < block.restartCount := by omega
      have hinside := List.getElem?_eq_getElem (rows.restart_inside (by omega) hmiddle)
      rw [if_pos hmore]
      dsimp only
      rw [restartKey_eq haccepts hmiddle hinside]
      dsimp only
      split
      · next hbelow => exact ih hmiddle hright (by omega) (hstarts.restart hinside hbelow)
      · exact ih hleft (by omega) (by omega) hbound
    · rw [if_neg hmore]
      exact ⟨left, rfl, hleft, hbound⟩

/-- The iterator goes on from where it stands only when its entry is below the target. -/
theorem seekBetween_shows {left right : Nat} {compared : Ordering}
    (hstarts : Starts entries order target P) (hplain : Plain it)
    (hleft : left < block.restartCount) (hright : right < block.restartCount)
    (hbound : P (rows.restart left))
    (hstay : compared = .lt → ∃ i, rows.Ready it i ∧ P i) :
    ∃ i p, P i ∧ ScansTo entries order target i p ∧
      rows.Shows (it.seekBetween order block format target left right compared)
        (Cursor.inside entries p) := by
  have hlength := rows.length_le
  obtain ⟨index, hfind, hindex, hbefore⟩ := findRestart_eq haccepts rows hstarts
    block.restartCount hleft hright (by omega) hbound
  rw [BlockIterator.seekBetween, hfind]
  dsimp only
  rw [BlockIterator.restoreCheckpoint]
  by_cases hhere : index = it.restartIndex ∧ compared = .lt
  · obtain ⟨i, hready, hle⟩ := hstay hhere.2
    rw [if_pos hhere]
    obtain ⟨p, hscan, hshows⟩ := scanToLowerBound_shows haccepts
      (block.entriesEnd + 1) hready hplain (by omega)
    exact ⟨i, p, hle, hscan, hshows⟩
  · obtain ⟨it', hseek, hready, hplain'⟩ := rows.seekToRestartPoint_ready hplain hindex
    rw [if_neg hhere, hseek]
    obtain ⟨p, hscan, hshows⟩ := scanToLowerBound_shows haccepts
      (block.entriesEnd + 1) hready hplain' (by omega)
    exact ⟨_, p, hbefore, hscan, hshows⟩

theorem seek_shows_from {position : Option Nat} (hstarts : Starts entries order target P)
    (h : rows.Shows it position) (htarget : format.acceptsKeySize target.length = true) :
    ∃ i p, P i ∧ ScansTo entries order target i p ∧
      rows.Shows (it.seek order block format target) (Cursor.inside entries p) := by
  have hpos := rows.restarts_pos
  have hlast : block.restartCount - 1 < block.restartCount := Nat.sub_one_lt hpos.ne'
  have hfirst : P (rows.restart 0) := by
    rw [rows.restart_zero]
    exact hstarts.zero
  have hplain := plain_beginPositioning it
  rw [BlockIterator.seek, if_neg (by simp [htarget]), if_neg hpos.ne']
  cases position with
  | none =>
    have hinvalid : it.beginPositioning.valid block = false := by
      rw [BlockIterator.valid, decide_eq_false_iff_not, show it.beginPositioning.current = _ from h.1]
      exact lt_irrefl _
    rw [hinvalid, if_neg Bool.false_ne_true]
    exact seekBetween_shows haccepts hstarts hplain hpos hlast hfirst (fun h => nomatch h)
  | some i =>
    obtain ⟨entry, hat, _⟩ := h
    have hat' : rows.At it.beginPositioning i entry := { hat with sound := rfl }
    rw [hat'.valid, if_pos rfl, hat'.key]
    cases hcompare : order entry.1 target with
    | lt =>
      exact seekBetween_shows haccepts hstarts hplain hat.index_lt hlast
        (hstarts.down hat.index_le (hstarts.restart hat.inside hcompare))
        (fun _ => ⟨i + 1, hat'.ready, hstarts.below hat.inside hcompare⟩)
    | eq =>
      refine ⟨i, i, hstarts.here hat.inside hcompare, ⟨Nat.le_refl _, hat.lt.le,
        fun hk hp => by omega, fun hentry => ?_⟩, ?_⟩
      · cases hat.inside.symm.trans hentry
        rw [hcompare]
        exact fun h => nomatch h
      · rw [inside_eq hat.lt]
        exact hat'.shows hplain
    | gt =>
      exact seekBetween_shows haccepts hstarts hplain hpos hat.index_lt hfirst (fun h => nomatch h)

theorem seek_shows_some {position : Option Nat} (h : rows.Shows it position)
    (htarget : format.acceptsKeySize target.length = true) :
    ∃ position', rows.Shows (it.seek order block format target) position' := by
  have hstarts : Starts entries order target (fun _ => True) :=
    ⟨trivial, fun _ _ => trivial, fun _ _ => trivial, fun _ _ => trivial⟩
  obtain ⟨_, p, _, _, hshows⟩ := seek_shows_from haccepts hstarts h htarget
  exact ⟨_, hshows⟩

end Search

/-! ## Seeks among keys in order -/

variable {K : Type*} [LinearOrder K] (logical : Bytes → K)

def isBelow (target : Bytes) (entry : Bytes × Bytes) : Bool := logical entry.1 < logical target

variable (entries) in
def lowerBound (target : Bytes) : Nat := entries.findIdx (fun entry => !isBelow logical target entry)

variable {logical}

theorem below_of_lt_lowerBound (h : entries[i]? = some entry)
    (hlt : i < lowerBound entries logical target) : logical entry.1 < logical target := by
  obtain ⟨hi, rfl⟩ := List.getElem?_eq_some_iff.mp h
  have hbelow := List.not_of_lt_findIdx hlt
  simpa [isBelow] using hbelow

theorem not_below_lowerBound (h : entries[lowerBound entries logical target]? = some entry) :
    ¬logical entry.1 < logical target := by
  obtain ⟨hlt, rfl⟩ := List.getElem?_eq_some_iff.mp h
  have hfound : isBelow logical target entries[lowerBound entries logical target] = false :=
    (Bool.not_eq_true' _).mp (List.findIdx_getElem (w := hlt))
  exact of_decide_eq_false hfound

theorem le_lowerBound (hsorted : entries.Pairwise (fun a b => logical a.1 < logical b.1))
    (h : entries[i]? = some entry) (hentry : logical entry.1 ≤ logical target) :
    i ≤ lowerBound entries logical target := by
  obtain ⟨hi, rfl⟩ := List.getElem?_eq_some_iff.mp h
  by_contra hbefore
  have hlt := (Nat.lt_of_not_le hbefore).trans hi
  have horder := List.pairwise_iff_getElem.mp hsorted _ _ hlt hi (Nat.lt_of_not_le hbefore)
  exact not_below_lowerBound (List.getElem?_eq_getElem hlt) (horder.trans_le hentry)

theorem starts_lowerBound (hsorted : entries.Pairwise (fun a b => logical a.1 < logical b.1)) :
    Starts entries (logicalOrder logical) target (· ≤ lowerBound entries logical target) where
  zero := Nat.zero_le _
  down := Nat.le_trans
  below := by
    intro i entry hentry hlt
    have hlt := logicalOrder_lt.mp hlt
    refine Nat.lt_of_le_of_ne (le_lowerBound hsorted hentry hlt.le) (fun heq => ?_)
    rw [heq] at hentry
    exact not_below_lowerBound hentry hlt
  here := by
    intro i entry hentry heq
    exact le_lowerBound hsorted hentry (compare_eq_iff_eq.mp heq).le

theorem ScansTo.eq_lowerBound {p : Nat} (h : ScansTo entries (logicalOrder logical) target i p)
    (hi : i ≤ lowerBound entries logical target) : p = lowerBound entries logical target := by
  have hend : lowerBound entries logical target ≤ entries.length := List.findIdx_le_length
  rcases Nat.lt_trichotomy p (lowerBound entries logical target) with hlt | heq | hgt
  · have hentry := List.getElem?_eq_getElem (hlt.trans_le hend)
    exact absurd (logicalOrder_lt.mpr (below_of_lt_lowerBound hentry hlt)) (h.stops hentry)
  · exact heq
  · have hentry := List.getElem?_eq_getElem (hgt.trans_le h.length)
    exact absurd (logicalOrder_lt.mp (h.below hi hgt hentry)) (not_below_lowerBound hentry)

end Seek

/-! ## Moves -/

theorem Shows.sound {position : Option Nat} (h : rows.Shows it position) : it.corrupted = false := by
  cases position with
  | none => exact h.2
  | some i =>
    obtain ⟨entry, hat, _⟩ := h
    exact hat.sound

theorem moveNext_shows (haccepts : ∀ entry ∈ entries, format.acceptsKeySize entry.1.length = true)
    (h : rows.Shows it (some i)) :
    rows.Shows (it.moveNext block format) (Cursor.inside entries (i + 1)) := by
  obtain ⟨entry, hat, _⟩ := h
  have hat' : rows.At { it with reverseCacheActive := false } i entry := { hat with }
  exact parse_shows haccepts hat'.ready ⟨rfl, hat.sound⟩

theorem Shows.current {order : Bytes → Bytes → Ordering} {position : Option Nat} {entrySize : Nat}
    (h : rows.Shows it position) :
    (blockIteratorBy order block format entrySize).current it = position.bind (entries[·]?) := by
  dsimp only [blockIteratorBy]
  cases position with
  | none =>
    rw [if_neg]
    · rfl
    · rw [BlockIterator.valid, h.1, decide_eq_true_iff]
      exact lt_irrefl _
  | some i =>
    obtain ⟨entry, hat, _⟩ := h
    rw [if_pos hat.valid, hat.key, hat.value]
    exact hat.inside.symm

variable {K : Type*} [LinearOrder K] {logical : Bytes → K}

/-- The iterator of a block with these rows moves as a cursor over its entries. -/
theorem simulatesAt (rows : Rows block entries) (entrySize : Nat)
    (hsorted : entries.Pairwise (fun a b => logical a.1 < logical b.1))
    (haccepts : ∀ entry ∈ entries, format.acceptsKeySize entry.1.length = true) :
    Cursor.SimulatesAt (blockIterator logical block format entrySize) (isBelow logical) entries
      (fun target => format.acceptsKeySize target.length = true) rows.Shows := by
  refine ⟨fun h => h.current, fun {it position m} h htarget hallowed => ?_⟩
  -- A state that shows a position has no damage to report.
  suffices hmove : ∃ position', Cursor.stepAt (isBelow logical) entries m position = some position' ∧
      rows.Shows (it.move (logicalOrder logical) block format entrySize m) position' by
    obtain ⟨position', hstep, hshows⟩ := hmove
    refine ⟨position', _, hstep, Prod.ext ?_ rfl, hshows⟩
    exact if_neg (by rw [hshows.sound]; exact Bool.false_ne_true)
  rw [blockIterator, h.current] at hallowed
  cases m with
  | seekToFirst => exact ⟨_, rfl, seekToFirst_shows haccepts it⟩
  | seekToLast => exact ⟨_, rfl, seekToLast_shows haccepts it⟩
  | seek target =>
    obtain ⟨i, p, hi, hscan, hshows⟩ := seek_shows_from haccepts (starts_lowerBound hsorted) h htarget
    rw [hscan.eq_lowerBound hi] at hshows
    exact ⟨_, rfl, hshows⟩
  | next =>
    cases position with
    | none => exact hallowed.elim
    | some i => exact ⟨_, rfl, moveNext_shows haccepts h⟩
  | prev =>
    cases position with
    | none => exact hallowed.elim
    | some i => exact ⟨_, rfl, movePrev_shows haccepts entrySize h⟩

end Rows

/-! ## Blocks of a builder -/

/-- A finished block has the estimated size, is accepted, and its validation and its iterator show the
entries that were added: the one in their order, the other as a cursor does, whatever the moves. The
key format concerns the lengths of keys only. -/
theorem finished_block_cursor {K : Type*} [LinearOrder K] (logical : Bytes → K)
    (format : BlockKeyFormat) (entrySize interval : Nat) (entries : List (Bytes × Bytes))
    (hinterval : 1 ≤ interval)
    (hsorted : entries.Pairwise (fun a b => logical a.1 < logical b.1))
    (haccepts : ∀ entry ∈ entries, format.acceptsKeySize entry.1.length = true)
    (hsize : (blockBuilderOf interval entries).finish.length < 2 ^ 32) :
    (blockBuilderOf interval entries).finish.length =
        (blockBuilderOf interval entries).currentSizeEstimate ∧
      ∃ block, Block.create (blockBuilderOf interval entries).finish = .ok block ∧
        (∀ visitor, block.validateEntries visitor =
          entries.forM (fun entry => visitor entry.1 entry.2)) ∧
        ∀ moves : List (Cursor.Move Bytes),
          (∀ m ∈ moves, m.Accepted (fun target => format.acceptsKeySize target.length = true)) →
          (blockIterator logical block format entrySize).AllowedRun moves (.create block) →
          ∃ position it',
            Cursor.runAt (Rows.isBelow logical) entries moves none = some position ∧
            (blockIterator logical block format entrySize).run moves (.create block) = (.ok (), it') ∧
            (blockIterator logical block format entrySize).current it' =
              position.bind (entries[·]?) := by
  obtain ⟨rows⟩ := rows_finishedBlock hinterval hsize
  refine ⟨BlockBuilder.length_finish _, finishedBlock interval entries,
    BlockBuilder.create_finish hsize, rows.validateEntries_eq, fun moves haccepted hallowed => ?_⟩
  have hstart : rows.Shows (.create (finishedBlock interval entries)) none := ⟨rfl, rfl⟩
  exact (rows.simulatesAt entrySize hsorted haccepts).run moves hstart haccepted hallowed

def threeEntries : List (Bytes × Bytes) := [([1], [7]), ([1, 2], [8]), ([1, 2, 0], [])]

/-- A seek, steps back through the cache, a step forward and a seek from there. -/
theorem finished_block_cursor_three :
    ∃ block, Block.create (blockBuilderOf 4 threeEntries).finish = .ok block ∧
      ∃ it', (blockIterator List.length block .arbitrary 56).run
          [.seekToLast, .prev, .prev, .next, .seek [9, 9, 9]] (.create block) = (.ok (), it') ∧
        (blockIterator List.length block .arbitrary 56).current it' = some ([1, 2, 0], []) := by
  obtain ⟨_, block, hcreate, _, hmoves⟩ := finished_block_cursor List.length
    .arbitrary 56 4 threeEntries (by decide) (by decide) (by decide) (by decide)
  cases hcreate
  obtain ⟨position, it', hrun, hrun', hcurrent⟩ := hmoves
    [.seekToLast, .prev, .prev, .next, .seek [9, 9, 9]]
    (by simp [Cursor.Move.Accepted, BlockKeyFormat.acceptsKeySize])
    ⟨trivial, trivial, trivial, trivial, trivial, trivial⟩
  cases hrun
  exact ⟨_, rfl, it', hrun', hcurrent⟩

end ModernLevelDB
