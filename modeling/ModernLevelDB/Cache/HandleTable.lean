import ModernLevelDB.Lib.Links
import Mathlib

/-! # The hash table of a cache shard (`cache/sharded_lru_cache_core.h`)

The table chains its entries through a field of theirs. An entry is named by its address, its place in
the list of all entries ever created. -/
namespace ModernLevelDB
set_option autoImplicit false

open Links

variable {K V : Type*}

/-! ## The table -/

/-- What `CreateEntry` fixes. -/
structure CacheEntry (K V : Type*) where
  key : K
  hash : UInt32
  value : V
  charge : UInt64

/-- Where a pointer to an entry is stored: in a bucket, or in the `next_hash` of another entry. -/
inductive Pointer where
  | bucket (index : UInt32)
  | nextHash (entry : Nat)
deriving DecidableEq, Repr

/-- Buckets and links by entry number. -/
structure HandleTable where
  length : UInt32 := 4
  elements : UInt32 := 0
  buckets : UInt32 → Option Nat := fun _ => none
  nextHash : Nat → Option Nat := fun _ => none

/-- `PreparedInsert`: where the new handle goes, and what it replaces. -/
structure PreparedInsert where
  position : Pointer
  existing : Option Nat
  needsGrowth : Bool

namespace HandleTable

def bucketOf (length hash : UInt32) : UInt32 := hash &&& (length - 1)

def read (table : HandleTable) : Pointer → Option Nat
  | .bucket index => table.buckets index
  | .nextHash entry => table.nextHash entry

def write (table : HandleTable) (position : Pointer) (value : Option Nat) : HandleTable :=
  match position with
  | .bucket index => { table with buckets := Function.update table.buckets index value }
  | .nextHash entry => { table with nextHash := Function.update table.nextHash entry value }

section Operations

variable [DecidableEq K] (entries : List (CacheEntry K V))

def entryMatches (key : K) (hash : UInt32) (entry : Nat) : Bool :=
  match entries[entry]? with
  | some found => found.hash = hash ∧ found.key = key
  | none => false

/-- The loops of `Lookup` and `FindPointer` take at most one round for each entry. -/
def lookupLoop (table : HandleTable) (key : K) (hash : UInt32) : Nat → Option Nat → Option Nat
  | 0, entry => entry
  | _ + 1, none => none
  | rounds + 1, some entry =>
      if entryMatches entries key hash entry then some entry
      else lookupLoop table key hash rounds (table.nextHash entry)

def lookup (table : HandleTable) (key : K) (hash : UInt32) : Option Nat :=
  lookupLoop entries table key hash (entries.length + 1) (table.buckets (bucketOf table.length hash))

def findLoop (table : HandleTable) (key : K) (hash : UInt32) : Nat → Pointer → Pointer
  | 0, position => position
  | rounds + 1, position =>
      match table.read position with
      | none => position
      | some entry =>
          if entryMatches entries key hash entry then position
          else findLoop table key hash rounds (.nextHash entry)

def findPointer (table : HandleTable) (key : K) (hash : UInt32) : Pointer :=
  findLoop entries table key hash (entries.length + 1) (.bucket (bucketOf table.length hash))

def prepareInsert (table : HandleTable) (key : K) (hash : UInt32) : PreparedInsert :=
  let position := findPointer entries table key hash
  let existing := table.read position
  { position, existing, needsGrowth := existing = none ∧ table.elements = table.length }

def linkEntry (table : HandleTable) (prepared : PreparedInsert) (entry : Nat) : HandleTable :=
  let table := table.write (.nextHash entry) (prepared.existing.bind table.nextHash)
  let table := table.write prepared.position (some entry)
  if prepared.existing = none then { table with elements := table.elements + 1 } else table

/-- `RehashChain` into the new buckets of `table`. -/
def rehashChain (length : UInt32) : Nat → Option Nat → HandleTable → HandleTable
  | 0, _, table => table
  | _ + 1, none, table => table
  | rounds + 1, some entry, table =>
      match entries[entry]? with
      | none => table
      | some found =>
          let next := table.nextHash entry
          let position := .bucket (bucketOf length found.hash)
          let table := table.write (.nextHash entry) (table.read position)
          rehashChain length rounds next (table.write position (some entry))

def rehashInto (length : UInt32) (table : HandleTable) : HandleTable :=
  let old := table.buckets
  let table := ((List.range table.length.toNat).map UInt32.ofNat).foldl
    (fun table index => rehashChain entries length (entries.length + 1) (old index) table)
    { table with buckets := fun _ => none }
  { table with length }

/-- Growth to a length that does not fit leaves no buckets to write to. -/
def commitInsert (table : HandleTable) (prepared : PreparedInsert) (entry : Nat) : Option HandleTable :=
  let growthLength := table.length * 2
  let table := linkEntry table prepared entry
  if prepared.needsGrowth then
    if growthLength = 0 then none else some (rehashInto entries growthLength table)
  else some table

def remove (table : HandleTable) (key : K) (hash : UInt32) : Option Nat × HandleTable :=
  let position := findPointer entries table key hash
  match table.read position with
  | none => (none, table)
  | some removed =>
      let table := table.write position (table.nextHash removed)
      let table := table.write (.nextHash removed) none
      (some removed, { table with elements := table.elements - 1 })

end Operations

/-! ## Chains -/

section Chains

variable {entries : List (CacheEntry K V)} {table : HandleTable} {key : K} {hash : UInt32}

theorem read_write (position : Pointer) (value : Option Nat) :
    (table.write position value).read = Function.update table.read position value := by
  funext q
  cases position <;> cases q <;> simp [write, read, Function.update_apply]

@[simp] theorem write_length (position : Pointer) (value : Option Nat) :
    (table.write position value).length = table.length := by
  cases position <;> rfl

/-- The pointer that is read through another one, as a place to read on. -/
def follow (table : HandleTable) (position : Pointer) : Option Pointer :=
  (table.read position).map .nextHash

theorem follow_write (position : Pointer) (value : Option Nat) :
    (table.write position value).follow =
      Function.update table.follow position (value.map .nextHash) := by
  funext q
  unfold follow
  rw [read_write, Function.update_apply, Function.update_apply]
  split <;> rfl

theorem follow_elements (table : HandleTable) (elements : UInt32) :
    ({ table with elements } : HandleTable).follow = table.follow := by
  funext q
  cases q <;> rfl

theorem path_follow {start stop : Option Nat} {l : List Nat} :
    Path table.follow (start.map .nextHash) (l.map .nextHash) (stop.map .nextHash) ↔
      Path table.nextHash start l stop := by
  have hinj : Function.Injective Pointer.nextHash := fun _ _ h => by cases h; rfl
  induction l generalizing start with
  | nil => exact (Option.map_injective hinj).eq_iff
  | cons a l ih =>
    have hstart : start.map Pointer.nextHash = some (.nextHash a) ↔ start = some a :=
      (Option.map_injective hinj).eq_iff (b := some a)
    exact and_congr hstart ih

theorem bucketOf_lt {length : UInt32} (hlength : length ≠ 0) (hash : UInt32) :
    bucketOf length hash < length := by
  have hpos : 0 < length.toNat := UInt32.lt_iff_toNat_lt.mp (UInt32.pos_iff_ne_zero.mpr hlength)
  have hle := Nat.and_le_right (n := hash.toNat) (m := (length - 1).toNat)
  have hone : (1 : UInt32) ≤ length := UInt32.le_iff_toNat_le.mpr hpos
  rw [UInt32.toNat_sub_of_le _ _ hone, UInt32.toNat_one] at hle
  unfold bucketOf
  rw [UInt32.lt_iff_toNat_lt, UInt32.toNat_and, UInt32.toNat_sub_of_le _ _ hone, UInt32.toNat_one]
  omega

def keyOf (entries : List (CacheEntry K V)) (entry : Nat) : Option K := entries[entry]?.map (·.key)

variable [DecidableEq K] {hashKey : K → UInt32} (hhash : ∀ e ∈ entries, e.hash = hashKey e.key)

include hhash in
theorem entryMatches_iff {i : Nat} :
    entryMatches entries key (hashKey key) i = true ↔ keyOf entries i = some key := by
  unfold entryMatches keyOf
  cases hi : entries[i]? with
  | none => simp
  | some e =>
    have hmem := hhash e (List.mem_of_getElem? hi)
    simp only [Option.map_some, Option.some.injEq, decide_eq_true_eq]
    constructor
    · exact fun h => h.2
    · rintro rfl
      exact ⟨hmem, rfl⟩

theorem lookupLoop_eq (entries : List (CacheEntry K V)) (key : K) (hash : UInt32) (rounds : Nat) :
    ∀ {start : Option Nat} {l : List Nat},
    Path table.nextHash start l none → l.length < rounds →
    lookupLoop entries table key hash rounds start = l.find? (entryMatches entries key hash) := by
  induction rounds with
  | zero => exact fun _ h => absurd h (Nat.not_lt_zero _)
  | succ rounds ih =>
    intro start l hpath hrounds
    cases l with
    | nil =>
      rw [show start = none from hpath]
      rfl
    | cons a l =>
      obtain ⟨rfl, hpath⟩ := hpath
      rw [lookupLoop, List.find?_cons]
      cases hmatch : entryMatches entries key hash a with
      | true => rfl
      | false =>
        rw [if_neg (by simp)]
        exact ih hpath (Nat.lt_of_succ_lt_succ hrounds)

theorem findLoop_eq (entries : List (CacheEntry K V)) (key : K) (hash : UInt32) (rounds : Nat) :
    ∀ {position : Pointer} {l : List Nat},
    Path table.follow (table.follow position) (l.map .nextHash) none → l.length < rounds →
    ∃ l₁ l₂, l = l₁ ++ l₂ ∧ (∀ i ∈ l₁, entryMatches entries key hash i = false) ∧
      (∀ i ∈ l₂.head?, entryMatches entries key hash i = true) ∧
      findLoop entries table key hash rounds position = (l₁.map .nextHash).getLastD position ∧
      table.read ((l₁.map .nextHash).getLastD position) = l₂.head? := by
  induction rounds with
  | zero => exact fun _ h => absurd h (Nat.not_lt_zero _)
  | succ rounds ih =>
    intro position l hpath hrounds
    cases l with
    | nil =>
      have hread : table.read position = none := Option.map_eq_none_iff.mp hpath
      refine ⟨[], [], rfl, by simp, by simp, ?_, hread⟩
      rw [findLoop, hread]
      rfl
    | cons a l =>
      obtain ⟨hfollow, hpath⟩ := hpath
      obtain ⟨b, hread, hb⟩ := Option.map_eq_some_iff.mp hfollow
      cases hb
      rw [findLoop, hread]
      cases hmatch : entryMatches entries key hash a with
      | true => exact ⟨[], a :: l, rfl, by simp, by simp [hmatch], by simp [hmatch], hread⟩
      | false =>
        obtain ⟨l₁, l₂, rfl, hbefore, hhead, hfind, hlast⟩ :=
          ih hpath (Nat.lt_of_succ_lt_succ hrounds)
        refine ⟨a :: l₁, l₂, rfl, ?_, hhead, ?_, ?_⟩
        · intro i hi
          rcases List.mem_cons.mp hi with rfl | hi
          · exact hmatch
          · exact hbefore i hi
        · rw [List.map_cons, List.getLastD_cons, ← hfind]
          simp [hmatch]
        · rw [List.map_cons, List.getLastD_cons]
          exact hlast

end Chains

/-! ## What a table holds -/

/-- Every bucket has its chain, of the entries whose hashes lead there. -/
structure Holds (entries : List (CacheEntry K V)) (table : HandleTable) (chains : UInt32 → List Nat) :
    Prop where
  length_ne : table.length ≠ 0
  path : ∀ {b}, b < table.length →
    Path table.follow (table.follow (.bucket b)) ((chains b).map .nextHash) none
  outside : ∀ {b}, ¬ b < table.length → chains b = []
  hash : ∀ {b i}, i ∈ chains b → ∃ e, entries[i]? = some e ∧ bucketOf table.length e.hash = b
  nodup : ∀ b, (chains b).Nodup

/-- A chain holds the entry. -/
def Mapped (chains : UInt32 → List Nat) (entry : Nat) : Prop := ∃ b, entry ∈ chains b

section Holds

variable {entries : List (CacheEntry K V)} {table : HandleTable} {chains : UInt32 → List Nat}

variable {b : UInt32}

section

variable (h : Holds entries table chains)

include h

theorem Holds.mem_unique {c : UInt32} {i : Nat} (hb : i ∈ chains b)
    (hc : i ∈ chains c) : b = c := by
  obtain ⟨e, he, rfl⟩ := h.hash hb
  obtain ⟨e', he', rfl⟩ := h.hash hc
  rw [he] at he'
  cases he'
  rfl

theorem Holds.length_le (b : UInt32) :
    (chains b).length ≤ entries.length := by
  have hsub : chains b ⊆ List.range entries.length := by
    intro i hi
    obtain ⟨e, he, _⟩ := h.hash hi
    exact List.mem_range.mpr (List.getElem?_eq_some_iff.mp he).1
  simpa using (List.subperm_of_subset (h.nodup b) hsub).length_le

theorem Holds.chain_path (hb : b < table.length) :
    Path table.nextHash (table.buckets b) (chains b) none :=
  path_follow.mp (h.path hb)

theorem Holds.apart {c : UInt32} (hbc : b ≠ c) {p : Pointer}
    (hp : p ∈ Pointer.bucket b :: (chains b).map .nextHash) :
    p ∉ Pointer.bucket c :: (chains c).map .nextHash := by
  intro hc
  rcases List.mem_cons.mp hp with rfl | hp
  · rcases List.mem_cons.mp hc with hc | hc
    · cases hc
      exact hbc rfl
    · obtain ⟨_, _, hne⟩ := List.mem_map.mp hc
      cases hne
  · obtain ⟨i, hi, rfl⟩ := List.mem_map.mp hp
    rcases List.mem_cons.mp hc with hc | hc
    · cases hc
    · obtain ⟨j, hj, heq⟩ := List.mem_map.mp hc
      cases heq
      exact hbc (h.mem_unique hi hj)

end

variable {l : List Nat}

theorem nodup_nodes (h : l.Nodup) : (Pointer.bucket b :: l.map .nextHash).Nodup := by
  have hinj : Function.Injective Pointer.nextHash := fun _ _ heq => by cases heq; rfl
  exact List.nodup_cons.mpr ⟨by simp, h.map hinj⟩

theorem Holds.update (h : Holds entries table chains) {table' : HandleTable} (hb : b < table.length)
    (hlength : table'.length = table.length)
    (hpath : Path table'.follow (table'.follow (.bucket b)) (l.map .nextHash) none)
    (hothers : ∀ c ≠ b, ∀ p ∈ Pointer.bucket c :: (chains c).map .nextHash,
      table'.follow p = table.follow p)
    (hhash : ∀ i ∈ l, ∃ e, entries[i]? = some e ∧ bucketOf table.length e.hash = b)
    (hnodup : l.Nodup) : Holds entries table' (Function.update chains b l) where
  length_ne := hlength ▸ h.length_ne
  path := by
    intro c hc
    rw [hlength] at hc
    by_cases heq : c = b
    · subst heq
      rw [Function.update_self]
      exact hpath
    · rw [Function.update_of_ne heq, hothers c heq _ List.mem_cons_self]
      exact (h.path hc).congr (fun p hp => hothers c heq p (List.mem_cons_of_mem _ hp))
  outside := by
    intro c hc
    rw [hlength] at hc
    have hne : c ≠ b := fun heq => hc (heq ▸ hb)
    rw [Function.update_of_ne hne]
    exact h.outside hc
  hash := by
    intro c i hi
    rw [hlength]
    exact (Function.forall_update_iff chains fun c l => ∀ i ∈ l, ∃ e, entries[i]? = some e ∧
      bucketOf table.length e.hash = c).mpr ⟨hhash, fun _ _ _ hi => h.hash hi⟩ c i hi
  nodup := (Function.forall_update_iff chains fun _ l => l.Nodup).mpr ⟨hnodup, fun c _ => h.nodup c⟩

theorem Holds.linkEntry (h : Holds entries table chains) {e : CacheEntry K V} {entry : Nat}
    (hentry : entries[entry]? = some e) (hfresh : ¬ Mapped chains entry)
    (hbucket : bucketOf table.length e.hash = b) {l₁ l₂ : List Nat} (hsplit : chains b = l₁ ++ l₂)
    {prepared : PreparedInsert}
    (hposition : prepared.position = (l₁.map .nextHash).getLastD (.bucket b))
    (hexisting : prepared.existing = l₂.head?) :
    Holds entries (table.linkEntry prepared entry)
      (Function.update chains b (l₁ ++ entry :: l₂.tail)) := by
  have hb : b < table.length := hbucket ▸ bucketOf_lt h.length_ne _
  have hnodup : (l₁ ++ l₂).Nodup := hsplit ▸ h.nodup b
  have hnot : ∀ c, entry ∉ chains c := fun c hc => hfresh ⟨c, hc⟩
  have hnotSplit : entry ∉ l₁ ++ l₂ := hsplit ▸ hnot b
  have hfollow : (table.linkEntry prepared entry).follow =
      Function.update (Function.update table.follow (.nextHash entry)
        ((prepared.existing.bind table.nextHash).map .nextHash)) prepared.position
        (some (.nextHash entry)) := by
    unfold HandleTable.linkEntry
    rw [show Option.some (Pointer.nextHash entry) = (some entry).map .nextHash from rfl,
      ← follow_write, ← follow_write]
    split <;> rfl
  have hlength : (table.linkEntry prepared entry).length = table.length := by
    unfold HandleTable.linkEntry
    simp only
    split <;> simp
  have hlast : (l₁.map Pointer.nextHash).getLastD (.bucket b) ∈
      Pointer.bucket b :: l₁.map .nextHash := List.getLastD_mem_cons
  have hne : Pointer.nextHash entry ∉ Pointer.bucket b :: (l₁ ++ l₂).map .nextHash := by
    simpa using hnotSplit
  refine h.update hb hlength ?_ ?_ ?_ ?_
  · -- The pointer at the position now leads to the entry, and the entry to what followed.
    have hpath := h.path hb
    rw [hsplit, List.map_append] at hpath
    obtain ⟨middle, hpath₁, hpath₂⟩ := path_append.mp hpath
    rw [hfollow, List.map_append, List.map_cons, path_append]
    refine ⟨some (.nextHash entry), ?_, rfl, ?_⟩
    · have hpath₁' : Path (Function.update table.follow (.nextHash entry)
          ((prepared.existing.bind table.nextHash).map .nextHash))
          (Function.update table.follow (.nextHash entry)
            ((prepared.existing.bind table.nextHash).map .nextHash) (.bucket b))
          (l₁.map .nextHash) middle := by
        rw [Function.update_of_ne (by simp)]
        exact hpath₁.update_of_notMem (by grind) _
      rw [hposition]
      exact hpath₁'.redirect (nodup_nodes (hnodup.sublist (by simp))) _
    · rw [hposition, Function.update_of_ne (by grind), Function.update_self, hexisting]
      have hrest : ((l₂.head?.bind table.nextHash).map Pointer.nextHash) =
          (match l₂ with | [] => none | r :: _ => table.follow (.nextHash r)) := by
        cases l₂ <;> rfl
      rw [hrest]
      cases l₂ with
      | nil => rfl
      | cons r l₂ =>
        obtain ⟨_, hpath₂⟩ := hpath₂
        refine (hpath₂.update_of_notMem (by grind) _).update_of_notMem ?_ _
        have hdisjoint := nodup_nodes (b := b) hnodup
        rw [List.map_append, List.map_cons, ← List.cons_append] at hdisjoint
        have hapart := (List.nodup_append.mp hdisjoint).2.2 _ hlast
        intro hmem
        exact hapart _ (List.mem_cons_of_mem _ hmem) rfl
  · intro c hc p hp
    have hp' : p ≠ .nextHash entry := by
      rintro rfl
      exact hnot c (by simpa using hp)
    have hposition' : p ≠ prepared.position := by
      rintro rfl
      refine h.apart hc hp ?_
      rw [hsplit, hposition]
      simp only [List.map_append, List.mem_cons, List.mem_append] at hlast ⊢
      exact hlast.imp_right .inl
    rw [hfollow, Function.update_of_ne hposition', Function.update_of_ne hp']
  · intro i hi
    rcases List.mem_append.mp hi with hi | hi
    · exact h.hash (hsplit ▸ List.mem_append_left _ hi)
    · rcases List.mem_cons.mp hi with rfl | hi
      · exact ⟨e, hentry, hbucket⟩
      · exact h.hash (hsplit ▸ List.mem_append_right _ (List.mem_of_mem_tail hi))
  · have hsub : (l₁ ++ l₂.tail).Sublist (l₁ ++ l₂) := (List.tail_sublist _).append_left _
    refine List.perm_middle.nodup_iff.mpr (List.nodup_cons.mpr ⟨?_, hnodup.sublist hsub⟩)
    exact fun hmem => hnotSplit (hsub.subset hmem)

theorem Holds.bypass (h : Holds entries table chains) (hb : b < table.length) {l₁ l₂ : List Nat}
    {r : Nat} (hsplit : chains b = l₁ ++ r :: l₂) {table' : HandleTable}
    (hlength : table'.length = table.length)
    (hfollow : table'.follow = Function.update (Function.update table.follow
      ((l₁.map .nextHash).getLastD (.bucket b)) (table.follow (.nextHash r))) (.nextHash r) none) :
    Holds entries table' (Function.update chains b (l₁ ++ l₂)) := by
  have hnodup : (l₁ ++ r :: l₂).Nodup := hsplit ▸ h.nodup b
  have hlast : (l₁.map Pointer.nextHash).getLastD (.bucket b) ∈
      Pointer.bucket b :: l₁.map .nextHash := List.getLastD_mem_cons
  refine h.update hb hlength ?_ ?_ ?_ (hnodup.sublist (by simp))
  · have hpath := h.path hb
    rw [hsplit, List.map_append, List.map_cons] at hpath
    obtain ⟨_, hpath₁, rfl, hpath₂⟩ := path_append.mp hpath
    rw [hfollow, List.map_append]
    refine hpath₁.bypass hpath₂ ?_
    rw [← List.map_cons (f := Pointer.nextHash), ← List.map_append]
    exact nodup_nodes hnodup
  · intro c hc p hp
    have hnot := h.apart hc hp
    rw [hsplit] at hnot
    have hr : p ≠ .nextHash r := by
      rintro rfl
      exact hnot (by simp)
    have hposition : p ≠ (l₁.map Pointer.nextHash).getLastD (.bucket b) := by
      rintro rfl
      simp only [List.map_append, List.mem_cons, List.mem_append, not_or] at hlast hnot
      exact hlast.elim hnot.1 hnot.2.1
    rw [hfollow, Function.update_of_ne hr, Function.update_of_ne hposition]
  · intro i hi
    refine h.hash (hsplit ▸ ?_)
    simp only [List.mem_append, List.mem_cons] at hi ⊢
    exact hi.imp_right .inr

/-! ### Rehashing -/

def place (entries : List (CacheEntry K V)) (length : UInt32) (chains : UInt32 → List Nat)
    (entry : Nat) : UInt32 → List Nat :=
  match entries[entry]? with
  | none => chains
  | some e =>
      Function.update chains (bucketOf length e.hash) (entry :: chains (bucketOf length e.hash))

variable {length : UInt32}

theorem mem_place {i j : Nat} : i ∈ place entries length chains j b ↔
    i ∈ chains b ∨ i = j ∧ ∃ e, entries[j]? = some e ∧ bucketOf length e.hash = b := by
  unfold place
  cases hj : entries[j]? with
  | none => simp
  | some e =>
    by_cases hb : b = bucketOf length e.hash
    · subst hb
      simp [or_comm]
    · simp [Function.update_of_ne hb, Ne.symm hb]

theorem mem_foldl_place {i : Nat} :
    i ∈ l.foldl (place entries length) chains b ↔
      i ∈ chains b ∨ i ∈ l ∧ ∃ e, entries[i]? = some e ∧ bucketOf length e.hash = b := by
  induction l generalizing chains with
  | nil => simp
  | cons j l ih =>
    rw [List.foldl_cons, ih, mem_place, List.mem_cons]
    constructor
    · rintro ((h | ⟨rfl, h⟩) | h)
      · exact .inl h
      · exact .inr ⟨.inl rfl, h⟩
      · exact .inr ⟨.inr h.1, h.2⟩
    · rintro (h | ⟨rfl | h, he⟩)
      · exact .inl (.inl h)
      · exact .inl (.inr ⟨rfl, he⟩)
      · exact .inr ⟨h, he⟩

theorem nodup_foldl_place (hl : l.Nodup) (hchains : ∀ b, (chains b).Nodup)
    (hdisjoint : ∀ i ∈ l, ∀ b, i ∉ chains b) (b : UInt32) :
    (l.foldl (place entries length) chains b).Nodup := by
  induction l generalizing chains with
  | nil => exact hchains b
  | cons j l ih =>
    obtain ⟨hj, hl⟩ := List.nodup_cons.mp hl
    refine ih hl (fun c => ?_) (fun i hi c hmem => ?_)
    · unfold place
      cases entries[j]? with
      | none => exact hchains c
      | some e =>
        simp only [Function.update_apply]
        split
        · exact List.nodup_cons.mpr ⟨hdisjoint j List.mem_cons_self _, hchains _⟩
        · exact hchains c
    · rcases mem_place.mp hmem with hmem | ⟨rfl, _⟩
      · exact hdisjoint i (List.mem_cons_of_mem _ hi) c hmem
      · exact hj hi

/-- Bucket `b` begins the chain of the entries `chains b`. -/
def Chained (table : HandleTable) (chains : UInt32 → List Nat) : Prop :=
  ∀ b, Path table.nextHash (table.buckets b) (chains b) none

/-- Links changed at the entries of `l` only. -/
def SameOutside (table : HandleTable) (l : List Nat) (table' : HandleTable) : Prop :=
  ∀ i ∉ l, table'.nextHash i = table.nextHash i

/-- `RehashChain` moves a chain into the new buckets and leaves the links of other entries alone. -/
theorem rehashChain_spec (length : UInt32) (rounds : Nat) : ∀ {table : HandleTable} {start : Option Nat}
    {l : List Nat} {chains : UInt32 → List Nat}, Path table.nextHash start l none → l.length < rounds →
    l.Nodup → (∀ i ∈ l, ∃ e, entries[i]? = some e) → (∀ i ∈ l, ∀ b, i ∉ chains b) →
    Chained table chains → Chained (rehashChain entries length rounds start table)
      (l.foldl (place entries length) chains) ∧
    SameOutside table l (rehashChain entries length rounds start table) := by
  induction rounds with
  | zero => exact fun _ h => absurd h (Nat.not_lt_zero _)
  | succ rounds ih =>
    intro table start l chains hpath hrounds hnodup hentries hdisjoint hchains
    cases l with
    | nil =>
      rw [show start = none from hpath]
      exact ⟨hchains, fun _ _ => rfl⟩
    | cons a l =>
      obtain ⟨rfl, hpath⟩ := hpath
      obtain ⟨ha, hnodup⟩ := List.nodup_cons.mp hnodup
      obtain ⟨e, he⟩ := hentries a List.mem_cons_self
      have hplace : place entries length chains a = Function.update chains (bucketOf length e.hash)
          (a :: chains (bucketOf length e.hash)) := by
        unfold place
        rw [he]
      rw [rehashChain, he, List.foldl_cons, hplace]
      simp only [write, read]
      have hwrite : ∀ b, Path (Function.update table.nextHash a (table.buckets (bucketOf length e.hash)))
          (Function.update table.buckets (bucketOf length e.hash) (some a) b)
          (Function.update chains (bucketOf length e.hash)
            (a :: chains (bucketOf length e.hash)) b) none := by
        intro b
        have hold := (hchains b).update_of_notMem (hdisjoint a List.mem_cons_self b)
          (table.buckets (bucketOf length e.hash))
        by_cases hb : b = bucketOf length e.hash
        · subst hb
          rw [Function.update_self, Function.update_self]
          refine ⟨rfl, ?_⟩
          rw [Function.update_self]
          exact hold
        · rw [Function.update_of_ne hb, Function.update_of_ne hb]
          exact hold
      have hrest := hpath.update_of_notMem ha (table.buckets (bucketOf length e.hash))
      have hapart' : ∀ i ∈ l, ∀ b, i ∉ Function.update chains (bucketOf length e.hash)
          (a :: chains (bucketOf length e.hash)) b := by
        intro i hi b hmem
        rw [← hplace] at hmem
        rcases mem_place.mp hmem with hmem | ⟨rfl, _⟩
        · exact hdisjoint i (List.mem_cons_of_mem _ hi) b hmem
        · exact ha hi
      obtain ⟨hpaths, hsame⟩ := @ih
        { table with
          nextHash := Function.update table.nextHash a (table.buckets (bucketOf length e.hash))
          buckets := Function.update table.buckets (bucketOf length e.hash) (some a) }
        (table.nextHash a) l _ hrest (Nat.lt_of_succ_lt_succ hrounds) hnodup
        (fun i hi => hentries i (List.mem_cons_of_mem _ hi)) hapart' hwrite
      refine ⟨hpaths, fun i hi => ?_⟩
      have hne : i ≠ a := fun heq => hi (heq ▸ List.mem_cons_self)
      rw [hsame i (fun hmem => hi (List.mem_cons_of_mem _ hmem))]
      exact Function.update_of_ne hne _ _

theorem rehashLoop_spec (length : UInt32) (old : UInt32 → Option Nat) (chains : UInt32 → List Nat)
    (hnodup : ∀ b, (chains b).Nodup) (hdisjoint : ∀ b c i, i ∈ chains b → i ∈ chains c → b = c)
    (hentries : ∀ b, ∀ i ∈ chains b, ∃ e, entries[i]? = some e)
    (hle : ∀ b, (chains b).length ≤ entries.length) (indices : List UInt32) :
    ∀ (table : HandleTable) (moved : UInt32 → List Nat), indices.Nodup →
    (∀ b ∈ indices, Path table.nextHash (old b) (chains b) none) →
    (∀ b ∈ indices, ∀ i ∈ chains b, ∀ c, i ∉ moved c) →
    Chained table moved →
    ∃ table', indices.foldl (fun table index =>
        rehashChain entries length (entries.length + 1) (old index) table) table = table' ∧
      Chained table' ((indices.flatMap chains).foldl (place entries length) moved) ∧
      SameOutside table (indices.flatMap chains) table' := by
  induction indices with
  | nil => exact fun _ _ _ _ _ hmoved => ⟨_, rfl, hmoved, fun _ _ => rfl⟩
  | cons b indices ih =>
    intro table moved hindices hpaths hapart hmoved
    obtain ⟨hb, hindices⟩ := List.nodup_cons.mp hindices
    obtain ⟨hchain, hsame⟩ := rehashChain_spec length (entries.length + 1)
      (hpaths b List.mem_cons_self) (Nat.lt_succ_of_le (hle b)) (hnodup b) (hentries b)
      (hapart b List.mem_cons_self) hmoved
    have hother : ∀ c ∈ indices, ∀ i ∈ chains c, i ∉ chains b := by
      intro c hc i hi hmem
      exact hb (hdisjoint b c i hmem hi ▸ hc)
    obtain ⟨table', heq, hall, hsame'⟩ := ih _ _ hindices
      (fun c hc => (hpaths c (List.mem_cons_of_mem _ hc)).congr
        (fun i hi => hsame i (hother c hc i hi)))
      (fun c hc i hi d hmem => by
        rcases mem_foldl_place.mp hmem with hmem | ⟨hmem, _⟩
        · exact hapart c (List.mem_cons_of_mem _ hc) i hi d hmem
        · exact hother c hc i hi hmem) hchain
    rw [List.foldl_cons, List.flatMap_cons, List.foldl_append]
    refine ⟨table', heq, hall, fun i hi => ?_⟩
    simp only [List.mem_append, not_or] at hi
    rw [hsame' i hi.2, hsame i hi.1]

/-- `RehashInto` keeps the entries of the table. -/
theorem Holds.rehashInto (h : Holds entries table chains) (hlength : length ≠ 0) :
    ∃ chains', Holds entries (table.rehashInto entries length) chains' ∧
      (∀ i, Mapped chains' i ↔ Mapped chains i) ∧
      ∀ i, ¬ Mapped chains i → (table.rehashInto entries length).nextHash i = table.nextHash i := by
  have hofNat : ∀ n < table.length.toNat, (UInt32.ofNat n).toNat = n :=
    fun n hn => UInt32.toNat_ofNat_of_lt' (Nat.lt_trans hn table.length.toNat_lt)
  have hindices : ∀ b, b ∈ (List.range table.length.toNat).map UInt32.ofNat ↔ b < table.length := by
    intro b
    rw [List.mem_map, UInt32.lt_iff_toNat_lt]
    constructor
    · rintro ⟨n, hn, rfl⟩
      rw [hofNat n (List.mem_range.mp hn)]
      exact List.mem_range.mp hn
    · exact fun hb => ⟨b.toNat, List.mem_range.mpr hb, by simp⟩
  have hnodup : ((List.range table.length.toNat).map UInt32.ofNat).Nodup := by
    refine List.Nodup.map_on (fun n hn m hm heq => ?_) List.nodup_range
    have hnat := congrArg UInt32.toNat heq
    rwa [hofNat n (List.mem_range.mp hn), hofNat m (List.mem_range.mp hm)] at hnat
  have hmem : ∀ i, i ∈ ((List.range table.length.toNat).map UInt32.ofNat).flatMap chains ↔
      Mapped chains i := by
    intro i
    rw [List.mem_flatMap]
    constructor
    · exact fun ⟨b, _, hi⟩ => ⟨b, hi⟩
    · rintro ⟨b, hi⟩
      refine ⟨b, (hindices b).mpr (by_contra fun hb => ?_), hi⟩
      rw [h.outside hb] at hi
      cases hi
  have hentries : ∀ b, ∀ i ∈ chains b, ∃ e, entries[i]? = some e := by
    intro b i hi
    obtain ⟨e, he, _⟩ := h.hash hi
    exact ⟨e, he⟩
  obtain ⟨_, rfl, hpaths, hsame⟩ := rehashLoop_spec length table.buckets chains h.nodup
    (fun b c i hb hc => h.mem_unique hb hc) hentries h.length_le _
    { table with buckets := fun _ => none } (fun _ => []) hnodup
    (fun b hb => h.chain_path ((hindices b).mp hb)) (by simp) (fun _ => rfl)
  refine ⟨_, ⟨hlength, fun {b} _ => path_follow.mpr (hpaths b), ?_, ?_, ?_⟩, ?_, ?_⟩
  · intro b hb
    refine List.eq_nil_iff_forall_not_mem.mpr (fun i hi => ?_)
    rcases mem_foldl_place.mp hi with hi | ⟨_, e, _, rfl⟩
    · cases hi
    · exact hb (bucketOf_lt hlength e.hash)
  · intro b i hi
    rcases mem_foldl_place.mp hi with hi | ⟨_, he⟩
    · cases hi
    · exact he
  · refine nodup_foldl_place ?_ (fun _ => List.nodup_nil) (by simp)
    refine List.nodup_flatMap.mpr ⟨fun b _ => h.nodup b, hnodup.imp (fun {b c} hne => ?_)⟩
    exact fun i hb hc => hne (h.mem_unique hb hc)
  · intro i
    rw [← hmem i]
    constructor
    · rintro ⟨b, hi⟩
      rcases mem_foldl_place.mp hi with hi | ⟨hi, _⟩
      · cases hi
      · exact hi
    · intro hi
      obtain ⟨b, _, hb⟩ := List.mem_flatMap.mp hi
      obtain ⟨e, he⟩ := hentries b i hb
      exact ⟨_, mem_foldl_place.mpr (.inr ⟨hi, e, he, rfl⟩)⟩
  · exact fun i hi => hsame i (fun hi' => hi ((hmem i).mp hi'))

variable [DecidableEq K] {hashKey : K → UInt32} (hhash : ∀ e ∈ entries, e.hash = hashKey e.key)

include hhash

theorem Holds.find (h : Holds entries table chains) (key : K) :
    ∃ l₁ l₂, chains (bucketOf table.length (hashKey key)) = l₁ ++ l₂ ∧
      (∀ i ∈ l₁, keyOf entries i ≠ some key) ∧ (∀ i ∈ l₂.head?, keyOf entries i = some key) ∧
      findPointer entries table key (hashKey key) =
        (l₁.map .nextHash).getLastD (.bucket (bucketOf table.length (hashKey key))) ∧
      table.read (findPointer entries table key (hashKey key)) = l₂.head? := by
  have hb := bucketOf_lt h.length_ne (hashKey key)
  obtain ⟨l₁, l₂, hsplit, hbefore, hhead, hfind, hread⟩ := findLoop_eq entries key (hashKey key)
    (entries.length + 1) (h.path hb) (Nat.lt_succ_of_le (h.length_le _))
  refine ⟨l₁, l₂, hsplit, ?_, ?_, hfind, ?_⟩
  · intro i hi hkey
    have hnot := hbefore i hi
    rw [(entryMatches_iff hhash).mpr hkey] at hnot
    cases hnot
  · exact fun i hi => (entryMatches_iff hhash).mp (hhead i hi)
  · rw [← hread, ← hfind]
    rfl

end Holds

/-! ## The table as a map -/

/-- The table holds the entries of a map, one for each key that it maps. -/
structure Stores (entries : List (CacheEntry K V)) (table : HandleTable) (map : K → Option Nat) :
    Prop where
  chains : ∃ chains, Holds entries table chains ∧ ∀ i, Mapped chains i ↔ ∃ key, map key = some i
  key : ∀ {key i}, map key = some i → keyOf entries i = some key

section Stores

variable {entries : List (CacheEntry K V)} {table : HandleTable} {map : K → Option Nat}

theorem stores_empty : Stores entries {} (fun _ : K => none) where
  chains := by
    refine ⟨fun _ => [], ⟨by decide, fun _ => rfl, fun _ => rfl, by simp, by simp⟩, fun i => ?_⟩
    simp [Mapped]
  key := fun h => by cases h

variable {i : Nat} {key : K}

theorem Stores.inj (h : Stores entries table map) {key' : K} (hi : map key = some i)
    (hi' : map key' = some i) : key = key' := by
  have hkey := h.key hi
  rw [h.key hi'] at hkey
  cases hkey
  rfl

variable {e : CacheEntry K V}

theorem keyOf_append (h : keyOf entries i = some key) : keyOf (entries ++ [e]) i = some key := by
  obtain ⟨found, hfound, rfl⟩ := Option.map_eq_some_iff.mp h
  unfold keyOf
  rw [List.getElem?_append_left (List.getElem?_eq_some_iff.mp hfound).1, hfound]
  rfl

theorem Stores.create (h : Stores entries table map) (e : CacheEntry K V) :
    Stores (entries ++ [e]) table map where
  chains := by
    obtain ⟨chains, hholds, hmapped⟩ := h.chains
    refine ⟨chains, { hholds with hash := fun hi => ?_ }, hmapped⟩
    obtain ⟨found, hfound, hbucket⟩ := hholds.hash hi
    exact ⟨found, by rw [List.getElem?_append_left (List.getElem?_eq_some_iff.mp hfound).1, hfound],
      hbucket⟩
  key := fun hi => keyOf_append (h.key hi)

theorem write_nextHash (position : Pointer) (value : Option Nat) (hne : position ≠ .nextHash i) :
    (table.write position value).nextHash i = table.nextHash i := by
  show (table.write position value).read (.nextHash i) = _
  rw [read_write, Function.update_of_ne hne.symm]
  rfl

theorem Stores.write_unmapped (h : Stores entries table map) (hi : ∀ key, map key ≠ some i)
    (value : Option Nat) : Stores entries (table.write (.nextHash i) value) map where
  chains := by
    obtain ⟨chains, hholds, hmapped⟩ := h.chains
    refine ⟨chains, ⟨hholds.length_ne, fun {b} hb => ?_, hholds.outside, hholds.hash, hholds.nodup⟩,
      hmapped⟩
    have hnot : Pointer.nextHash i ∉ (chains b).map .nextHash := by
      simp only [List.mem_map, Pointer.nextHash.injEq, exists_eq_right]
      intro hmem
      obtain ⟨key, hkey⟩ := (hmapped i).mp ⟨b, hmem⟩
      exact hi key hkey
    rw [follow_write, Function.update_of_ne (by simp)]
    exact (hholds.path hb).update_of_notMem hnot _
  key := h.key

variable [DecidableEq K] {hashKey : K → UInt32} (hhash : ∀ e ∈ entries, e.hash = hashKey e.key)

include hhash

variable {chains : UInt32 → List Nat}

omit [DecidableEq K] hhash in
theorem Stores.map_of_mapped (h : Stores entries table map)
    (hmapped : ∀ i, Mapped chains i ↔ ∃ key, map key = some i) (hi : Mapped chains i)
    (hkey : keyOf entries i = some key) : map key = some i := by
  obtain ⟨key', hmap⟩ := (hmapped i).mp hi
  have hkey' := h.key hmap
  rw [hkey] at hkey'
  cases hkey'
  exact hmap

omit [DecidableEq K] in
theorem Stores.mem_bucket (h : Stores entries table map) (hholds : Holds entries table chains)
    (hmapped : ∀ i, Mapped chains i ↔ ∃ key, map key = some i) (hmap : map key = some i) :
    i ∈ chains (bucketOf table.length (hashKey key)) := by
  have hkey := h.key hmap
  obtain ⟨b, hmem⟩ := (hmapped i).mpr ⟨key, hmap⟩
  obtain ⟨e, he, rfl⟩ := hholds.hash hmem
  have hekey : e.key = key := by simpa [keyOf, he] using hkey
  rwa [hhash e (List.mem_of_getElem? he), hekey] at hmem

theorem Stores.lookup (h : Stores entries table map) (key : K) :
    table.lookup entries key (hashKey key) = map key := by
  obtain ⟨chains, hholds, hmapped⟩ := h.chains
  have hb := bucketOf_lt hholds.length_ne (hashKey key)
  unfold HandleTable.lookup
  rw [lookupLoop_eq entries key (hashKey key) _ (hholds.chain_path hb)
    (Nat.lt_succ_of_le (hholds.length_le _))]
  cases hfind : (chains (bucketOf table.length (hashKey key))).find?
      (entryMatches entries key (hashKey key)) with
  | none =>
    cases hmap : map key with
    | none => rfl
    | some i =>
      have hnot := List.find?_eq_none.mp hfind i (h.mem_bucket hhash hholds hmapped hmap)
      exact absurd ((entryMatches_iff hhash).mpr (h.key hmap)) hnot
  | some j =>
    have hkey := (entryMatches_iff hhash).mp (List.find?_some hfind)
    exact (h.map_of_mapped hmapped ⟨_, List.mem_of_find?_eq_some hfind⟩ hkey).symm

/-- The place of a key in its chain. What follows it starts with the entry of the key, if it is
mapped. -/
theorem Stores.find (h : Stores entries table map) (key : K) :
    ∃ chains l₁ l₂, Holds entries table chains ∧ (∀ i, Mapped chains i ↔ ∃ key, map key = some i) ∧
      chains (bucketOf table.length (hashKey key)) = l₁ ++ l₂ ∧
      table.findPointer entries key (hashKey key) =
        (l₁.map .nextHash).getLastD (.bucket (bucketOf table.length (hashKey key))) ∧
      table.read (table.findPointer entries key (hashKey key)) = map key ∧ l₂.head? = map key := by
  obtain ⟨chains, hholds, hmapped⟩ := h.chains
  obtain ⟨l₁, l₂, hsplit, hbefore, hhead, hposition, hread⟩ := hholds.find hhash key
  have hmap : l₂.head? = map key := by
    cases l₂ with
    | nil =>
      cases hmap : map key with
      | none => rfl
      | some i =>
        have hmem := h.mem_bucket hhash hholds hmapped hmap
        rw [hsplit, List.append_nil] at hmem
        exact absurd (h.key hmap) (hbefore i hmem)
    | cons r l₂ =>
      have hr : Mapped chains r := ⟨bucketOf table.length (hashKey key), by rw [hsplit]; simp⟩
      exact (h.map_of_mapped hmapped hr (hhead r rfl)).symm
  exact ⟨chains, l₁, l₂, hholds, hmapped, hsplit, hposition, hread.trans hmap, hmap⟩

omit hhash in
theorem Stores.mapped_update (h : Stores entries table map) (hholds : Holds entries table chains)
    (hmapped : ∀ i, Mapped chains i ↔ ∃ key, map key = some i) {l₁ l₂ : List Nat}
    (hsplit : chains (bucketOf table.length (hashKey key)) = l₁ ++ l₂) (hhead : l₂.head? = map key)
    (new : Option Nat) (i : Nat) :
    Mapped (Function.update chains (bucketOf table.length (hashKey key))
      (l₁ ++ new.toList ++ l₂.tail)) i ↔ ∃ k, Function.update map key new k = some i := by
  have hnodup := hholds.nodup (bucketOf table.length (hashKey key))
  rw [hsplit] at hnodup
  -- Away from the place of the key the chains hold what the map has under other keys.
  have hothers : (∃ k ≠ key, map k = some i) ↔ Mapped chains i ∧ some i ≠ l₂.head? := by
    rw [hmapped i, hhead]
    constructor
    · rintro ⟨k, hk, hmap⟩
      exact ⟨⟨k, hmap⟩, fun heq => hk (h.inj hmap heq.symm)⟩
    · rintro ⟨⟨k, hmap⟩, hne⟩
      exact ⟨k, fun heq => hne (by rw [← heq, hmap]), hmap⟩
  have hin : ∀ l, Mapped (Function.update chains (bucketOf table.length (hashKey key)) l) i ↔
      i ∈ l ∨ ∃ b ≠ bucketOf table.length (hashKey key), i ∈ chains b :=
    fun l => Function.exists_update_iff chains fun _ l => i ∈ l
  have hold := hin (l₁ ++ l₂)
  rw [← hsplit, Function.update_eq_self, hsplit] at hold
  have hbefore : i ∈ l₁ → some i ≠ l₂.head? := fun hi heq =>
    (List.nodup_append.mp hnodup).2.2 i hi i (List.mem_of_mem_head? heq.symm) rfl
  have helse : (∃ b ≠ bucketOf table.length (hashKey key), i ∈ chains b) → some i ≠ l₂.head? := by
    rintro ⟨b, hb, hi⟩ heq
    refine hb (hholds.mem_unique hi ?_)
    rw [hsplit]
    exact List.mem_append_right _ (List.mem_of_mem_head? heq.symm)
  have htail : i ∈ l₂.tail ↔ i ∈ l₂ ∧ some i ≠ l₂.head? := by
    have hnodup := (List.nodup_append.mp hnodup).2.1
    cases l₂ with
    | nil => simp
    | cons r l₂ => grind
  rw [Function.exists_update_iff map fun _ o => o = some i, hothers, hin, hold]
  simp only [List.mem_append, Option.mem_toList, htail]
  constructor
  · rintro (((hi | hi) | ⟨hi, hne⟩) | hi)
    · exact .inr ⟨.inl (.inl hi), hbefore hi⟩
    · exact .inl hi
    · exact .inr ⟨.inl (.inr hi), hne⟩
    · exact .inr ⟨.inr hi, helse hi⟩
  · rintro (hi | ⟨(hi | hi) | hi, hne⟩)
    · exact .inl (.inl (.inr hi))
    · exact .inl (.inl (.inl hi))
    · exact .inl (.inr ⟨hi, hne⟩)
    · exact .inr hi

section

variable (h : Stores entries table map)

include h

theorem Stores.prepareInsert_existing (key : K) :
    (table.prepareInsert entries key (hashKey key)).existing = map key := by
  obtain ⟨_, _, _, _, _, _, _, hread, _⟩ := h.find hhash key
  exact hread

theorem Stores.position_ne (key : K) (hi : ∀ k, map k ≠ some i) :
    table.findPointer entries key (hashKey key) ≠ .nextHash i := by
  obtain ⟨chains, l₁, l₂, _, hmapped, hsplit, hposition, _, _⟩ := h.find hhash key
  rw [hposition]
  intro heq
  have hmem : (l₁.map Pointer.nextHash).getLastD (.bucket (bucketOf table.length (hashKey key))) ∈
      Pointer.bucket (bucketOf table.length (hashKey key)) :: l₁.map .nextHash :=
    List.getLastD_mem_cons
  rw [heq] at hmem
  have hl : i ∈ l₁ := by simpa using hmem
  obtain ⟨k, hk⟩ := (hmapped i).mp ⟨bucketOf table.length (hashKey key), by rw [hsplit]; simp [hl]⟩
  exact hi k hk

theorem Stores.linkEntry {entry : Nat}
    (hentry : entries[entry]? = some e) (hfresh : ∀ k, map k ≠ some entry) :
    Stores entries (table.linkEntry (table.prepareInsert entries e.key (hashKey e.key)) entry)
      (Function.update map e.key (some entry)) := by
  obtain ⟨chains, l₁, l₂, hholds, hmapped, hsplit, hposition, hread, hhead⟩ := h.find hhash e.key
  constructor
  · have hnot : ¬ Mapped chains entry := by
      intro hm
      obtain ⟨k, hk⟩ := (hmapped entry).mp hm
      exact hfresh k hk
    have hbucket : bucketOf table.length e.hash = bucketOf table.length (hashKey e.key) := by
      rw [hhash e (List.mem_of_getElem? hentry)]
    refine ⟨_, hholds.linkEntry hentry hnot hbucket hsplit hposition (hread.trans hhead.symm), ?_⟩
    intro i
    rw [← h.mapped_update hholds hmapped hsplit hhead (some entry) i]
    simp
  · intro k i hk
    refine (Function.forall_update_iff map fun k o => o = some i → keyOf entries i = some k).mpr
      ⟨?_, fun _ _ => h.key⟩ k hk
    rintro ⟨⟩
    simp [keyOf, hentry]

theorem Stores.linkEntry_nextHash (key : K) {entry : Nat}
    (hne : i ≠ entry) (hi : ∀ k, map k ≠ some i) :
    (table.linkEntry (table.prepareInsert entries key (hashKey key)) entry).nextHash i =
      table.nextHash i := by
  have hposition : (table.prepareInsert entries key (hashKey key)).position ≠ .nextHash i :=
    h.position_ne hhash key hi
  have hentry : Pointer.nextHash entry ≠ .nextHash i := fun heq => hne (by cases heq; rfl)
  unfold HandleTable.linkEntry
  simp only
  split
  · exact (write_nextHash _ _ hposition).trans (write_nextHash _ _ hentry)
  · exact (write_nextHash _ _ hposition).trans (write_nextHash _ _ hentry)

/-- `CommitInsert` maps the key to the entry, also when the table grows. -/
theorem Stores.commitInsert {entry : Nat}
    (hentry : entries[entry]? = some e) (hfresh : ∀ k, map k ≠ some entry)
    (hgrowth : (table.prepareInsert entries e.key (hashKey e.key)).needsGrowth = true →
      table.length * 2 ≠ 0) :
    ∃ table', table.commitInsert entries (table.prepareInsert entries e.key (hashKey e.key)) entry =
        some table' ∧
      Stores entries table' (Function.update map e.key (some entry)) ∧
      ∀ i ≠ entry, (∀ k, map k ≠ some i) → table'.nextHash i = table.nextHash i := by
  have hlink := h.linkEntry hhash hentry hfresh
  have hsame : ∀ i ≠ entry, (∀ k, map k ≠ some i) → _ :=
    fun i hne hi => h.linkEntry_nextHash hhash e.key hne hi
  unfold HandleTable.commitInsert
  cases hneeds : (table.prepareInsert entries e.key (hashKey e.key)).needsGrowth with
  | false => exact ⟨_, by simp, hlink, hsame⟩
  | true =>
    obtain ⟨chains, hholds, hmapped⟩ := hlink.chains
    obtain ⟨chains', hholds', hmapped', hsame'⟩ := hholds.rehashInto (hgrowth hneeds)
    refine ⟨_, by simp only [if_true, if_neg (hgrowth hneeds)],
      ⟨⟨chains', hholds', fun i => (hmapped' i).trans (hmapped i)⟩, hlink.key⟩, ?_⟩
    intro i hne hi
    rw [hsame' i, hsame i hne hi]
    rw [hmapped i, Function.exists_update_iff map fun _ o => o = some i]
    rintro (heq | ⟨k, _, hk⟩)
    · exact hne (Option.some.inj heq).symm
    · exact hi k hk

theorem Stores.remove (key : K) :
    ∃ table', table.remove entries key (hashKey key) = (map key, table') ∧
      Stores entries table' (Function.update map key none) ∧
      ∀ i, (∀ k, map k ≠ some i) → table'.nextHash i = table.nextHash i := by
  obtain ⟨chains, l₁, l₂, hholds, hmapped, hsplit, hposition, hread, hhead⟩ := h.find hhash key
  unfold HandleTable.remove
  simp only [hread]
  cases hmap : map key with
  | none =>
    refine ⟨table, rfl, ?_, fun _ _ => rfl⟩
    rw [← hmap, Function.update_eq_self]
    exact h
  | some r =>
    cases l₂ with
    | nil =>
      rw [hmap] at hhead
      cases hhead
    | cons r' l₂ =>
      rw [hmap] at hhead
      cases hhead
      refine ⟨_, rfl, ⟨⟨Function.update chains (bucketOf table.length (hashKey key)) (l₁ ++ l₂),
        ?_, ?_⟩, ?_⟩, ?_⟩
      · refine hholds.bypass (bucketOf_lt hholds.length_ne (hashKey key)) hsplit ?_ ?_
        · simp
        · refine (follow_elements _ _).trans ?_
          rw [follow_write, follow_write, hposition]
          rfl
      · intro i
        rw [← h.mapped_update hholds hmapped hsplit (by rw [hmap]; rfl) none i]
        simp
      · intro k i hk
        exact (Function.forall_update_iff map fun k o => o = some i → keyOf entries i = some k).mpr
          ⟨by simp, fun _ _ => h.key⟩ k hk
      · intro i hi
        have hne : Pointer.nextHash r ≠ .nextHash i := by
          intro heq
          cases heq
          exact hi key hmap
        exact (write_nextHash _ _ hne).trans (write_nextHash _ _ (h.position_ne hhash key hi))

end

end Stores

end HandleTable

end ModernLevelDB
