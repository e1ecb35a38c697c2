import ModernLevelDB.Engine.Entry
import ModernLevelDB.Format.ByteKey
import ModernLevelDB.Memory.SkipListCalls

/-! # Memtables (`memory/memtable.cc`)

A memtable packs each entry into one record of its arena and keeps the records in a skip list, in the
order of their internal keys. A record is named by its bytes: it never changes, and no internal key is
added twice. -/
namespace ModernLevelDB
set_option autoImplicit false

/-! ## Records -/

structure MemTableEntryView where
  internalKey : Bytes
  value : Bytes
deriving DecidableEq, Repr

def decodeMemTableInternalKey (record : Bytes) : Bytes := (consumeLengthPrefixedTrusted record).1

def decodeMemTableEntry (record : Bytes) : MemTableEntryView :=
  let (internalKey, rest) := consumeLengthPrefixedTrusted record
  let (value, _) := consumeLengthPrefixedTrusted rest
  ⟨internalKey, value⟩

/-- Both lengths are cast to 32 bits. -/
def encodeMemTableEntry (entry : Entry Bytes Bytes) : Bytes :=
  encodeVarint32 ((entry.key.userKey.length + 8) % 2 ^ 32) ++ ByteKey.encoded entry.key ++
    (encodeVarint32 (entry.value.length % 2 ^ 32) ++ entry.value)

/-! ## The heights of the nodes -/

def nextRandom (seed : Nat) : Nat :=
  let product := seed * 16807
  let seed := (product / 2 ^ 31 + product % 2 ^ 31) % 2 ^ 32
  if seed > 2147483647 then seed - 2147483647 else seed

/-- The loop of `RandomHeight`, which ends at `MaxHeight`. -/
def randomHeightFrom : (left height seed : Nat) → Nat × Nat
  | 0, height, seed => (height, seed)
  | left + 1, height, seed =>
      let seed := nextRandom seed
      if seed % 4 = 0 then randomHeightFrom left (height + 1) seed else (height, seed)

def randomHeight (seed : Nat) : Nat × Nat := randomHeightFrom (SkipList.maxHeight - 1) 1 seed

theorem randomHeightFrom_bounds (left height seed : Nat) :
    height ≤ (randomHeightFrom left height seed).1 ∧
      (randomHeightFrom left height seed).1 ≤ height + left := by
  induction left generalizing height seed with
  | zero => exact ⟨Nat.le_refl _, Nat.le_refl _⟩
  | succ left ih =>
    rw [randomHeightFrom]
    split
    · have h := ih (height + 1) (nextRandom seed)
      omega
    · exact ⟨Nat.le_refl _, Nat.le_add_right _ _⟩

/-! ## The table -/

/-- `MemTable`; the arena is the list of its records. -/
structure MemTable where
  arena : List Bytes := []
  table : SkipList.Shared Bytes := {}
  randomSeed : Nat := 0x5eadbeef

namespace MemTable

section Code

variable {K : Type*} [LinearOrder K] (logical : Bytes → K)

def recordOrder (record : Bytes) : K ×ₗ ℕᵒᵈ :=
  ByteKey.encodedOrder logical (decodeMemTableInternalKey record)

def add (memtable : MemTable) (entry : Entry Bytes Bytes) : MemTable :=
  let record := encodeMemTableEntry entry
  let (height, seed) := randomHeight memtable.randomSeed
  { arena := record :: memtable.arena
    table := SkipList.insert (recordOrder logical) memtable.table memtable.arena.length height record
    randomSeed := seed }

def matchesUserKey (internalKey userKey : Bytes) : Bool :=
  logical (ByteKey.userPart internalKey) = logical userKey

def classify (entry : MemTableEntryView) : Decision Bytes :=
  if ByteKey.trailerPart entry.internalKey % 256 = ValueKind.deletion.code then .deletion
  else .value entry.value

def lookup (memtable : MemTable) (key : LookupKey) : Decision Bytes :=
  match SkipList.findGreaterOrEqual (recordOrder logical) memtable.table memtable.arena.length
      (.lt (ByteKey.encodedOrder logical key.internalKey)) with
  | none => .missing
  | some record =>
      let entry := decodeMemTableEntry record
      if matchesUserKey logical entry.internalKey key.userKey then classify entry else .missing

end Code

/-- The records that `Next` reaches from the head on. One link more is followed than there are records,
so that a path of as many records as were added has come to its end. -/
def records (memtable : MemTable) : List Bytes :=
  Links.follow (fun node => memtable.table.next node 0) (memtable.arena.length + 1) none

/-- What an iterator shows from `SeekToFirst` on, moved by `Next` up to the end. -/
def iterate (memtable : MemTable) : List MemTableEntryView := memtable.records.map decodeMemTableEntry

end MemTable

/-! ## Records hold what they are given -/

/-- What `Add` requires of the lengths and the sequence. -/
structure Entry.Addable (entry : Entry Bytes Bytes) : Prop where
  key : ByteKey.Storable entry.key
  value : entry.value.length < 2 ^ 32

theorem decodeMemTableEntry_encode {entry : Entry Bytes Bytes} (h : entry.Addable) :
    decodeMemTableInternalKey (encodeMemTableEntry entry) = ByteKey.encoded entry.key ∧
      decodeMemTableEntry (encodeMemTableEntry entry) = ⟨ByteKey.encoded entry.key, entry.value⟩ := by
  have hkey : (ByteKey.encoded entry.key).length = entry.key.userKey.length + 8 := by
    simp [ByteKey.encoded]
  have hrecord : encodeMemTableEntry entry =
      encodeLengthPrefixed (ByteKey.encoded entry.key) ++ (encodeLengthPrefixed entry.value ++ []) := by
    rw [encodeMemTableEntry, encodeLengthPrefixed, encodeLengthPrefixed, hkey,
      Nat.mod_eq_of_lt h.key.length, Nat.mod_eq_of_lt h.value, List.append_nil]
  have hfirst := consumeLengthPrefixedTrusted_eq (consumeLengthPrefixed_encode
    (hkey.trans_lt h.key.length) (encodeLengthPrefixed entry.value ++ []))
  have hsecond := consumeLengthPrefixedTrusted_eq (consumeLengthPrefixed_encode h.value [])
  rw [hrecord, decodeMemTableInternalKey, decodeMemTableEntry, hfirst]
  refine ⟨rfl, ?_⟩
  dsimp only
  rw [hsecond]

namespace MemTable

variable {K : Type*} [LinearOrder K] {logical : Bytes → K} {entry : Entry Bytes Bytes}

omit [LinearOrder K] in
theorem recordOrder_encode (h : entry.Addable) :
    recordOrder logical (encodeMemTableEntry entry) = (ByteKey.ordered logical entry.key).orderKey := by
  rw [recordOrder, (decodeMemTableEntry_encode h).1, ByteKey.encodedOrder_encoded logical
    h.key.sequence]

theorem classify_encoded (h : entry.Addable) :
    classify ⟨ByteKey.encoded entry.key, entry.value⟩ = Decision.ofEntry (some entry) := by
  rw [classify, ByteKey.encoded, ByteKey.trailerPart_append, ByteKey.trailer_mod h.key.sequence]
  rcases entry with ⟨⟨user, sequence, kind⟩, value⟩
  cases kind with
  | deletion =>
    rw [if_pos]
    · rfl
    · simp only [InternalKey.trailer, packInternalKeyTrailer, ValueKind.code]
      omega
  | value =>
    rw [if_neg]
    · rfl
    · simp only [InternalKey.trailer, packInternalKeyTrailer, ValueKind.code]
      omega

/-! ## What a table holds -/

/-- The list holds the encodings of `l`, in order. -/
structure Holds (logical : Bytes → K) (memtable : MemTable) (l : List (Entry Bytes Bytes)) :
    Prop where
  addable : ∀ entry ∈ l, entry.Addable
  spells : ∃ levels, SkipList.Levels (recordOrder logical) memtable.table levels ∧
    levels 0 = l.map encodeMemTableEntry
  size : memtable.arena.length = l.length

variable {memtable : MemTable} {l : List (Entry Bytes Bytes)}

theorem holds_empty : Holds logical {} [] where
  addable := fun entry h => absurd h List.not_mem_nil
  spells := ⟨fun _ => [], {
    chain := fun _ => rfl
    sorted := fun _ => .nil
    subset := fun _ => List.Subset.refl _
    empty := fun _ _ => rfl
    positive := Nat.one_pos
    bounded := by decide }, rfl⟩
  size := rfl

theorem Holds.sorted (h : Holds logical memtable l) :
    l.Pairwise (fun a b => ByteKey.ordered logical a.key < ByteKey.ordered logical b.key) := by
  obtain ⟨levels, hlevels, hzero⟩ := h.spells
  have hsorted := hlevels.sorted 0
  rw [hzero, List.pairwise_map] at hsorted
  refine hsorted.imp_of_mem (fun {a b} ha hb hlt => ?_)
  rw [recordOrder_encode (h.addable a ha), recordOrder_encode (h.addable b hb)] at hlt
  exact hlt

theorem Holds.add (h : Holds logical memtable l) (hentry : entry.Addable)
    (hfresh : ∀ a ∈ l, ByteKey.ordered logical a.key ≠ ByteKey.ordered logical entry.key) :
    ∃ l', Holds logical (memtable.add logical entry) l' ∧ l'.Perm (entry :: l) := by
  obtain ⟨levels, hlevels, hzero⟩ := h.spells
  have hheight := randomHeightFrom_bounds (SkipList.maxHeight - 1) 1 memtable.randomSeed
  have hlength : (levels 0).length ≤ memtable.arena.length := by
    rw [hzero, List.length_map, h.size]
  have hnew : ∀ record ∈ levels 0,
      recordOrder logical record ≠ recordOrder logical (encodeMemTableEntry entry) := by
    intro record hrecord
    rw [hzero] at hrecord
    obtain ⟨a, ha, rfl⟩ := List.mem_map.mp hrecord
    rw [recordOrder_encode (h.addable a ha), recordOrder_encode hentry]
    exact fun heq => hfresh a ha (InternalKey.orderKey_injective heq)
  obtain ⟨after, hafter, hperm⟩ := SkipList.insert_levels hlevels hlength hheight hnew
  rw [hzero, ← List.map_cons] at hperm
  obtain ⟨l', hl', hperm⟩ :=
    (congrFun₂ (List.eq_map_comp_perm encodeMemTableEntry) _ _).mpr hperm
  refine ⟨l', ⟨fun a ha => ?_, ⟨after, hafter, hl'⟩, ?_⟩, hperm⟩
  · rcases List.mem_cons.mp (hperm.mem_iff.mp ha) with rfl | ha
    · exact hentry
    · exact h.addable a ha
  · rw [hperm.length_eq]
    exact congrArg (· + 1) h.size

/-- Another user key or another sequence. -/
def Distinct (logical : Bytes → K) (a b : Entry Bytes Bytes) : Prop :=
  ¬(logical a.key.userKey = logical b.key.userKey ∧ a.sequence = b.sequence)

omit [LinearOrder K] in
theorem Distinct.ordered_ne {a b : Entry Bytes Bytes} (h : Distinct logical a b) :
    ByteKey.ordered logical a.key ≠ ByteKey.ordered logical b.key := by
  intro heq
  have hpair := InternalKey.mk.inj heq
  exact h ⟨hpair.1, hpair.2.1⟩

omit [LinearOrder K] in
theorem Distinct.symm {a b : Entry Bytes Bytes} (h : Distinct logical a b) : Distinct logical b a :=
  fun heq => h ⟨heq.1.symm, heq.2.symm⟩

def addAll (logical : Bytes → K) (added : List (Entry Bytes Bytes)) : MemTable :=
  added.foldl (add logical) {}

theorem Holds.foldl {added : List (Entry Bytes Bytes)} (h : Holds logical memtable l)
    (hadd : ∀ entry ∈ added, entry.Addable) (hdistinct : (l ++ added).Pairwise (Distinct logical)) :
    ∃ l', Holds logical (added.foldl (MemTable.add logical) memtable) l' ∧ l'.Perm (l ++ added) := by
  induction added generalizing memtable l with
  | nil => exact ⟨l, h, by rw [List.append_nil]⟩
  | cons entry added ih =>
    have hfresh : ∀ a ∈ l, ByteKey.ordered logical a.key ≠ ByteKey.ordered logical entry.key := by
      intro a ha
      exact ((List.pairwise_append.mp hdistinct).2.2 a ha entry List.mem_cons_self).ordered_ne
    obtain ⟨middle, hmiddle, hperm⟩ := h.add (hadd entry List.mem_cons_self) hfresh
    have hall : (middle ++ added).Perm (l ++ entry :: added) :=
      (hperm.append_right added).trans List.perm_middle.symm
    obtain ⟨l', hl', hperm'⟩ := ih hmiddle (fun a ha => hadd a (List.mem_cons_of_mem _ ha))
      ((hall.pairwise_iff Distinct.symm).mpr hdistinct)
    exact ⟨l', hl', hperm'.trans hall⟩

/-! ## Reads -/

def orderedEntry (logical : Bytes → K) (entry : Entry Bytes Bytes) : Entry K Bytes :=
  ⟨ByteKey.ordered logical entry.key, entry.value⟩

/-- The entries of a memtable in the engine's terms. -/
def Holds.run (h : Holds logical memtable l) : Run K Bytes where
  entries := l.map (orderedEntry logical)
  sorted := List.pairwise_map.mpr (h.sorted.imp (fun hlt => hlt.le))

def newest (logical : Bytes → K) (l : List (Entry Bytes Bytes)) (user : Bytes) (limit : Nat) :
    Option (Entry Bytes Bytes) :=
  (l.find? (fun entry => InternalKey.lookupKey (logical user) limit ≤
    (orderedEntry logical entry).key)).filter (fun entry => logical entry.key.userKey = logical user)

theorem Holds.lookup_eq (h : Holds logical memtable l) {user : Bytes} {limit : Nat} {key : LookupKey}
    (hkey : LookupKey.create user limit = .ok key) :
    memtable.lookup logical key = Decision.ofEntry (newest logical l user limit) := by
  obtain ⟨levels, hlevels, hzero⟩ := h.spells
  obtain ⟨hinternal, hlimit⟩ := LookupKey.internalKey_create hkey
  have huser : key.userKey = user := by
    rw [LookupKey.userKey, hinternal]
    exact ByteKey.userPart_append _ _
  have hlength : (levels 0).length ≤ memtable.arena.length := by
    rw [hzero, List.length_map, h.size]
  have horder : ByteKey.encodedOrder logical key.internalKey =
      (InternalKey.lookupKey (logical user) limit).orderKey := by
    rw [hinternal]
    exact ByteKey.encodedOrder_encoded logical hlimit
  have hfind : l.find? ((fun record => !(Cut.lt (ByteKey.encodedOrder logical key.internalKey)).below
      (recordOrder logical record)) ∘ encodeMemTableEntry) = l.find? (fun entry =>
        InternalKey.lookupKey (logical user) limit ≤ (orderedEntry logical entry).key) := by
    refine List.find?_congr (fun entry hentry => ?_)
    rw [Function.comp_apply, recordOrder_encode (h.addable entry hentry), horder, Cut.lt,
      ← decide_not, decide_eq_decide]
    exact not_lt
  rw [lookup, SkipList.findGreaterOrEqual_eq hlevels hlength, hzero, List.find?_map, hfind, newest]
  cases hfound : l.find? (fun entry =>
      InternalKey.lookupKey (logical user) limit ≤ (orderedEntry logical entry).key) with
  | none => rfl
  | some found =>
    have hentry := h.addable found (List.mem_of_find?_eq_some hfound)
    have hmatch : matchesUserKey logical (ByteKey.encoded found.key) key.userKey =
        decide (logical found.key.userKey = logical user) := by
      rw [matchesUserKey, huser, ByteKey.encoded, ByteKey.userPart_append]
    simp only [Option.map_some, (decodeMemTableEntry_encode hentry).2, hmatch]
    by_cases hsame : logical found.key.userKey = logical user
    · rw [if_pos (by simpa using hsame), Option.filter_some_pos (by simpa using hsame),
        classify_encoded hentry]
    · rw [if_neg (by simpa using hsame), Option.filter_some_neg (by simpa using hsame)]
      rfl

theorem Holds.isNewest_newest (h : Holds logical memtable l) (user : Bytes) (limit : Nat) :
    Newest.IsNewest Entry.sequence (fun entry => logical entry.key.userKey = logical user ∧
      entry.sequence ≤ limit) {entry | entry ∈ l} (newest logical l user limit) := by
  have hrun := h.run.isNewest_newest (logical user) limit
  have hcontents : h.run.contents = Set.image (orderedEntry logical) {entry | entry ∈ l} := by
    ext entry
    exact List.mem_map
  have hnewest : h.run.newest (logical user) limit =
      (newest logical l user limit).map (orderedEntry logical) := by
    rw [Run.newest, newest, Holds.run, List.find?_map, Option.filter_map]
    rfl
  rw [hnewest, hcontents] at hrun
  refine hrun.of_image (fun entry hentry => ?_)
  exact List.mem_of_find?_eq_some (Option.mem_filter_iff.mp hentry).1

def MemTableEntryView.decode (view : MemTableEntryView) : Result (Entry Bytes Bytes) :=
  (ByteKey.decode view.internalKey).map (fun key => ⟨key, view.value⟩)

/-- The links end behind the last record. -/
theorem Holds.records_eq (h : Holds logical memtable l) :
    memtable.records = l.map encodeMemTableEntry ∧
      Links.Chain (fun node => memtable.table.next node 0) none memtable.records := by
  obtain ⟨levels, hlevels, hzero⟩ := h.spells
  have hchain := hlevels.chain 0
  have hfollow : memtable.records = levels 0 := hchain.follow_eq (by
    rw [hzero, List.length_map, h.size]
    exact Nat.le_succ _)
  rw [hfollow]
  exact ⟨hzero, hchain⟩

theorem Holds.iterate_eq (h : Holds logical memtable l) :
    memtable.iterate.map MemTableEntryView.decode = l.map .ok := by
  rw [iterate, h.records_eq.1, List.map_map, List.map_map]
  refine List.map_congr_left (fun entry hentry => ?_)
  have haddable := h.addable entry hentry
  rw [Function.comp_apply, Function.comp_apply, (decodeMemTableEntry_encode haddable).2,
    MemTableEntryView.decode, ByteKey.decode_encoded haddable.key]
  rfl

/-- A lookup reports the newest visible entry of its user key, and an iteration shows every entry
once, in the order of the internal keys. -/
theorem memTable_exact (logical : Bytes → K) {added : List (Entry Bytes Bytes)}
    (hadd : ∀ entry ∈ added, entry.Addable) (hdistinct : added.Pairwise (Distinct logical)) :
    (∀ {user : Bytes} {limit : Nat} {key : LookupKey}, LookupKey.create user limit = .ok key →
      ∃ newest, Newest.IsNewest Entry.sequence (fun entry => logical entry.key.userKey = logical user ∧
          entry.sequence ≤ limit) {entry | entry ∈ added} newest ∧
        (addAll logical added).lookup logical key = Decision.ofEntry newest) ∧
    ∃ l : List (Entry Bytes Bytes), l.Perm added ∧
      l.Pairwise (fun a b => ByteKey.ordered logical a.key < ByteKey.ordered logical b.key) ∧
      (addAll logical added).iterate.map MemTableEntryView.decode = l.map .ok := by
  obtain ⟨l, hl, hperm⟩ := holds_empty.foldl hadd hdistinct
  rw [List.nil_append] at hperm
  refine ⟨fun {user limit key} hkey => ?_, l, hperm, hl.sorted, hl.iterate_eq⟩
  refine ⟨newest logical l user limit, ?_, hl.lookup_eq hkey⟩
  exact (hl.isNewest_newest user limit).congr (fun entry _ => hperm.mem_iff)

def bytewise (key : Bytes) : List ℕ := key.map UInt8.toNat

def versions : List (Entry Bytes Bytes) :=
  [⟨⟨[1], 5, .value⟩, [7]⟩, ⟨⟨[], 6, .value⟩, []⟩, ⟨⟨[1], 8, .deletion⟩, []⟩, ⟨⟨[1], 3, .value⟩, [9]⟩]

/-- A reader in front of the deletion sees the value in the middle; one behind it sees the deletion. -/
theorem memTable_exact_versions :
    (∃ newest, Newest.IsNewest Entry.sequence (fun entry => bytewise entry.key.userKey = bytewise [1] ∧
        entry.sequence ≤ 7) {entry | entry ∈ versions} newest ∧ Decision.ofEntry newest = .value [7]) ∧
      (∃ newest, Newest.IsNewest Entry.sequence (fun entry =>
        bytewise entry.key.userKey = bytewise [1] ∧ entry.sequence ≤ 9) {entry | entry ∈ versions} newest ∧
        Decision.ofEntry newest = .deletion) ∧
      ∃ l : List (Entry Bytes Bytes), l.Perm versions ∧
        l.Pairwise (fun a b => ByteKey.ordered bytewise a.key < ByteKey.ordered bytewise b.key) ∧
        (addAll bytewise versions).iterate.map MemTableEntryView.decode = l.map .ok := by
  have hadd : ∀ entry ∈ versions, entry.Addable := by
    intro entry hentry
    simp only [versions, List.mem_cons, List.not_mem_nil, or_false] at hentry
    rcases hentry with rfl | rfl | rfl | rfl <;> exact ⟨⟨by decide, by decide⟩, by decide⟩
  have hdistinct : versions.Pairwise (Distinct bytewise) := by
    unfold versions Distinct
    decide
  obtain ⟨hlookup, hiterate⟩ := memTable_exact bytewise hadd hdistinct
  obtain ⟨before, hbefore, heq⟩ :=
    hlookup (show LookupKey.create [1] 7 = .ok (.createTrusted [1] 7) from rfl)
  obtain ⟨behind, hbehind, heq'⟩ :=
    hlookup (show LookupKey.create [1] 9 = .ok (.createTrusted [1] 9) from rfl)
  exact ⟨⟨before, hbefore, heq.symm.trans (by decide +kernel)⟩,
    ⟨behind, hbehind, heq'.symm.trans (by decide +kernel)⟩, hiterate⟩

/-! ## Lengths and sequences that do not fit -/

theorem iterate_add_empty (logical : Bytes → K) (entry : Entry Bytes Bytes) :
    (addAll logical [entry]).iterate = [decodeMemTableEntry (encodeMemTableEntry entry)] := by
  obtain ⟨levels, hlevels, hzero⟩ := (show Holds logical {} [] from holds_empty).spells
  have hheight := randomHeightFrom_bounds (SkipList.maxHeight - 1) 1 ({} : MemTable).randomSeed
  have hnew : ∀ record ∈ levels 0,
      recordOrder logical record ≠ recordOrder logical (encodeMemTableEntry entry) := by
    rw [hzero]
    exact fun record h => nomatch h
  obtain ⟨after, hafter, hperm⟩ := SkipList.insert_levels hlevels
    (Nat.le_of_eq (congrArg List.length hzero)) hheight hnew
  rw [hzero, List.map_nil, List.perm_singleton] at hperm
  have hfollow := (hafter.chain 0).follow_eq (n := 2) (by rw [hperm]; exact Nat.le_succ 1)
  rw [hperm] at hfollow
  exact congrArg (List.map decodeMemTableEntry) hfollow

/-- A key of eight bytes less than 4 GiB has an internal key of 4 GiB, whose length is cast to zero:
an iteration then shows an internal key without bytes. -/
theorem internalKey_of_long (entry : Entry Bytes Bytes)
    (h : entry.key.userKey.length = 2 ^ 32 - 8) :
    (decodeMemTableEntry (encodeMemTableEntry entry)).internalKey = [] := by
  have hsize : (entry.key.userKey.length + 8) % 2 ^ 32 = 0 := by
    omega
  rw [encodeMemTableEntry, hsize, decodeMemTableEntry]
  rfl

/-- Below 4 GiB is not enough for a key, and the trailer has no room for a sequence of 57 bits. -/
theorem memTable_below_4GiB :
    (∃ entry : Entry Bytes Bytes, entry.key.userKey.length < 2 ^ 32 ∧ entry.value.length < 2 ^ 32 ∧
      entry.sequence ≤ maxSequenceNumber ∧
      (addAll bytewise [entry]).iterate.map MemTableEntryView.decode ≠ [.ok entry]) ∧
    ∃ entry : Entry Bytes Bytes, entry.key.userKey.length < 2 ^ 32 ∧ entry.value.length < 2 ^ 32 ∧
      entry.sequence < 2 ^ 64 ∧
      (addAll bytewise [entry]).iterate.map MemTableEntryView.decode ≠ [.ok entry] := by
  constructor
  · obtain ⟨user, huser⟩ : ∃ user : Bytes, user.length = 2 ^ 32 - 8 :=
      ⟨List.replicate (2 ^ 32 - 8) 0, List.length_replicate⟩
    refine ⟨⟨⟨user, 0, .value⟩, []⟩, ?_, ?_, Nat.zero_le _, ?_⟩
    · show user.length < 2 ^ 32
      omega
    · exact Nat.two_pow_pos 32
    · have hkey := internalKey_of_long ⟨⟨user, 0, .value⟩, []⟩ huser
      rw [iterate_add_empty, List.map_singleton, MemTableEntryView.decode, hkey]
      intro h
      cases h
  · refine ⟨⟨⟨[], 2 ^ 56, .value⟩, []⟩, by decide, by decide, by decide, ?_⟩
    rw [iterate_add_empty]
    decide

end MemTable
end ModernLevelDB
