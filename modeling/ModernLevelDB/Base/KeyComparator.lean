import ModernLevelDB.Base.Coding

/-! # User comparators (`base/comparator.h`)

A comparator orders keys and may shorten them: a separator of two keys, and a key behind one key. The
bytewise comparator compares as `memcmp` does, shorter keys first. -/
namespace ModernLevelDB
set_option autoImplicit false

/-- The two functions that shorten keys return the key that the source writes in place. -/
structure KeyComparator where
  compare : Bytes → Bytes → Ordering
  findShortestSeparator : (start limit : Bytes) → Bytes
  findShortSuccessor : Bytes → Bytes

/-- What a comparator promises for the separators that an index stores. -/
structure KeyComparator.Lawful (comparator : KeyComparator) : Prop where
  trans : Std.TransCmp comparator.compare
  separator : ∀ {start limit : Bytes}, comparator.compare start limit = .lt →
    (comparator.compare start (comparator.findShortestSeparator start limit)).isLE ∧
      comparator.compare (comparator.findShortestSeparator start limit) limit = .lt
  successor : ∀ key : Bytes, (comparator.compare key (comparator.findShortSuccessor key)).isLE

namespace Bytewise

/-! ## The bytewise comparator (`base/comparator.cc`) -/

/-- `memcmp` over the bytes that both keys have. -/
def compareCommonPrefix : Bytes → Bytes → Ordering
  | a :: left, b :: right =>
      if a.toNat < b.toNat then .lt
      else if b.toNat < a.toNat then .gt
      else compareCommonPrefix left right
  | _, _ => .eq

def compareKeyLengths (left right : Nat) : Ordering :=
  if left < right then .lt else if left > right then .gt else .eq

def compareKeys (left right : Bytes) : Ordering :=
  match compareCommonPrefix left right with
  | .eq => compareKeyLengths left.length right.length
  | order => order

def separatorSuccessor (start limit : UInt8) : Option UInt8 :=
  if start.toNat < 0xff ∧ start.toNat + 1 < limit.toNat then some (byteOf (start.toNat + 1)) else none

/-- The loop of `FindByteSuccessor`: the first byte that is not the largest one, and the next byte. -/
def findByteSuccessor : (index : Nat) → Bytes → Option (Nat × UInt8)
  | _, [] => none
  | index, b :: key =>
      if b.toNat ≠ 0xff then some (index, byteOf (b.toNat + 1)) else findByteSuccessor (index + 1) key

def commitShortKey (key : Bytes) (index : Nat) (successor : UInt8) : Bytes :=
  (key.set index successor).take (index + 1)

def findShortestSeparator (start limit : Bytes) : Bytes :=
  let minimumSize := min start.length limit.length
  let difference := sharedPrefixLength start limit
  if difference ≥ minimumSize then start
  else
    match separatorSuccessor (start.getD difference 0) (limit.getD difference 0) with
    | some successor => commitShortKey start difference successor
    | none => start

def findShortSuccessor (key : Bytes) : Bytes :=
  match findByteSuccessor 0 key with
  | some (index, successor) => commitShortKey key index successor
  | none => key

end Bytewise

def bytewiseComparator : KeyComparator where
  compare := Bytewise.compareKeys
  findShortestSeparator := Bytewise.findShortestSeparator
  findShortSuccessor := Bytewise.findShortSuccessor

namespace Bytewise

/-! ## Key by key, byte by byte -/

theorem compareKeys_cons (a b : UInt8) (left right : Bytes) :
    compareKeys (a :: left) (b :: right) =
      (compareOn UInt8.toNat a b).then (compareKeys left right) := by
  rw [compareKeys, compareCommonPrefix, compareOn]
  rcases Nat.lt_trichotomy a.toNat b.toNat with h | h | h
  · rw [if_pos h, Nat.compare_eq_lt.mpr h]
    rfl
  · rw [if_neg (by omega), if_neg (by omega), Nat.compare_eq_eq.mpr h, compareKeys]
    simp [compareKeyLengths]
  · rw [if_neg (by omega), if_pos h, Nat.compare_eq_gt.mpr h]
    rfl

theorem compareKeys_eq_compareLex :
    compareKeys = List.compareLex (compareOn UInt8.toNat) := by
  funext left right
  induction left generalizing right with
  | nil => cases right <;> rfl
  | cons a left ih =>
    cases right with
    | nil => rfl
    | cons b right => rw [compareKeys_cons, ih, List.compareLex_cons_cons]

instance transCmp_compareKeys : Std.TransCmp compareKeys := by
  rw [compareKeys_eq_compareLex]
  infer_instance

theorem eq_of_compareKeys {left right : Bytes} (h : compareKeys left right = .eq) : left = right := by
  induction left generalizing right with
  | nil =>
    cases right with
    | nil => rfl
    | cons b right => cases h
  | cons a left ih =>
    cases right with
    | nil => cases h
    | cons b right =>
      rw [compareKeys_cons, Ordering.then_eq_eq] at h
      rw [UInt8.toNat_inj.mp (Nat.compare_eq_eq.mp h.1), ih h.2]

theorem findShortestSeparator_cons_same (a : UInt8) (start limit : Bytes) :
    findShortestSeparator (a :: start) (a :: limit) = a :: findShortestSeparator start limit := by
  have hshared : sharedPrefixLength (a :: start) (a :: limit) = sharedPrefixLength start limit + 1 := by
    rw [sharedPrefixLength, if_pos rfl]
  have hmin : (sharedPrefixLength start limit + 1 ≥ min (a :: start).length (a :: limit).length) ↔
      sharedPrefixLength start limit ≥ min start.length limit.length := by
    rw [List.length_cons, List.length_cons]
    omega
  simp only [findShortestSeparator, hshared, hmin, List.getD_cons_succ]
  split
  · rfl
  · split <;> rfl

theorem findShortestSeparator_cons_ne {a b : UInt8} (h : a ≠ b) (start limit : Bytes) :
    findShortestSeparator (a :: start) (b :: limit) =
      match separatorSuccessor a b with
      | some successor => [successor]
      | none => a :: start := by
  have hshared : sharedPrefixLength (a :: start) (b :: limit) = 0 := by
    rw [sharedPrefixLength, if_neg h]
  rw [findShortestSeparator, hshared, if_neg (by simp)]
  rfl

theorem findByteSuccessor_succ (index : Nat) (key : Bytes) :
    findByteSuccessor (index + 1) key =
      (findByteSuccessor index key).map (fun found => (found.1 + 1, found.2)) := by
  induction key generalizing index with
  | nil => rfl
  | cons b key ih =>
    rw [findByteSuccessor, findByteSuccessor]
    split
    · rfl
    · exact ih (index + 1)

theorem findShortSuccessor_cons (b : UInt8) (key : Bytes) :
    findShortSuccessor (b :: key) =
      if b.toNat ≠ 0xff then [byteOf (b.toNat + 1)] else b :: findShortSuccessor key := by
  rw [findShortSuccessor, findByteSuccessor]
  by_cases h : b.toNat ≠ 0xff
  · rw [if_pos h, if_pos h]
    rfl
  · rw [if_neg h, if_neg h, findByteSuccessor_succ, findShortSuccessor]
    cases findByteSuccessor 0 key <;> rfl

/-! ## The contract -/

theorem compareKeys_self (key : Bytes) : compareKeys key key = .eq := Std.ReflCmp.compare_self

theorem compareKeys_cons_lt {a b : UInt8} (h : a.toNat < b.toNat) (left right : Bytes) :
    compareKeys (a :: left) (b :: right) = .lt := by
  rw [compareKeys_cons, compareOn, Nat.compare_eq_lt.mpr h]
  rfl

theorem compareKeys_cons_same (a : UInt8) (left right : Bytes) :
    compareKeys (a :: left) (a :: right) = compareKeys left right := by
  rw [compareKeys_cons, compareOn, Nat.compare_eq_eq.mpr rfl]
  rfl

theorem separatorSuccessor_eq_some {start limit successor : UInt8}
    (h : separatorSuccessor start limit = some successor) :
    start.toNat < successor.toNat ∧ successor.toNat < limit.toNat := by
  unfold separatorSuccessor at h
  split at h
  · cases h
    rw [toNat_byteOf]
    omega
  · cases h

theorem separator_between {start limit : Bytes} (h : compareKeys start limit = .lt) :
    (compareKeys start (findShortestSeparator start limit)).isLE ∧
      compareKeys (findShortestSeparator start limit) limit = .lt := by
  induction start generalizing limit with
  | nil =>
    have hsame : findShortestSeparator [] limit = [] := by
      rw [findShortestSeparator, if_pos (by simp)]
    rw [hsame]
    exact ⟨rfl, h⟩
  | cons a start ih =>
    cases limit with
    | nil => cases h
    | cons b limit =>
      by_cases hab : a = b
      · subst hab
        rw [compareKeys_cons_same] at h
        rw [findShortestSeparator_cons_same, compareKeys_cons_same, compareKeys_cons_same]
        exact ih h
      · rw [findShortestSeparator_cons_ne hab]
        cases hsuccessor : separatorSuccessor a b with
        | none =>
          rw [compareKeys_self]
          exact ⟨rfl, h⟩
        | some successor =>
          obtain ⟨hstart, hlimit⟩ := separatorSuccessor_eq_some hsuccessor
          rw [compareKeys_cons_lt hstart, compareKeys_cons_lt hlimit]
          exact ⟨rfl, rfl⟩

theorem successor_not_less (key : Bytes) : (compareKeys key (findShortSuccessor key)).isLE := by
  induction key with
  | nil => rfl
  | cons b key ih =>
    rw [findShortSuccessor_cons]
    split
    · next hb =>
      have hlt := b.toNat_lt
      rw [compareKeys_cons_lt (by rw [toNat_byteOf]; omega)]
      rfl
    · rw [compareKeys_cons_same]
      exact ih

theorem length_separator_le (start limit : Bytes) :
    (findShortestSeparator start limit).length ≤ start.length := by
  rw [findShortestSeparator]
  split
  · exact Nat.le_refl _
  · split
    · rw [commitShortKey, List.length_take, List.length_set]
      exact Nat.min_le_right _ _
    · exact Nat.le_refl _

theorem length_successor_le (key : Bytes) : (findShortSuccessor key).length ≤ key.length := by
  rw [findShortSuccessor]
  split
  · rw [commitShortKey, List.length_take, List.length_set]
    exact Nat.min_le_right _ _
  · exact Nat.le_refl _

end Bytewise

theorem bytewiseComparator_lawful : bytewiseComparator.Lawful where
  trans := Bytewise.transCmp_compareKeys
  separator := Bytewise.separator_between
  successor := Bytewise.successor_not_less

end ModernLevelDB
