import ModernLevelDB.Base.KeyComparator
import ModernLevelDB.Format.ByteKey

/-! # Shortened internal keys (`format/internal_key.cc`)

`InternalKeyComparator` over any user comparator that keeps its contract. A separator of two internal
keys lies between them, and no seek target behind the first key and not behind the separator has the
user key of the second one. -/
namespace ModernLevelDB
set_option autoImplicit false

namespace InternalKeyComparator

section Code

variable (comparator : KeyComparator)

def compareKeys (left right : Bytes) : Ordering :=
  match comparator.compare (ByteKey.userPart left) (ByteKey.userPart right) with
  | .eq => ByteKey.compareDescendingTrailers left right
  | order => order

def isShorterAndGreaterUserKey (original candidate : Bytes) : Bool :=
  if candidate.length ≥ original.length then false
  else comparator.compare original candidate = .lt

def appendMaxSeekTrailer (key : Bytes) : Bytes :=
  key ++ encodeFixed 8 (packInternalKeyTrailer maxSequenceNumber seekValueKind)

def commitSeparatorBeforeLimit (start candidate limit : Bytes) : Bytes :=
  if compareKeys comparator candidate limit = .lt then candidate else start

def findShortestSeparator (start limit : Bytes) : Bytes :=
  match ByteKey.decode start, ByteKey.decode limit with
  | .ok startKey, .ok limitKey =>
      let shortened := comparator.findShortestSeparator startKey.userKey limitKey.userKey
      if isShorterAndGreaterUserKey comparator startKey.userKey shortened = false then start
      else commitSeparatorBeforeLimit comparator start (appendMaxSeekTrailer shortened) limit
  | _, _ => start

def findShortSuccessor (key : Bytes) : Bytes :=
  match ByteKey.decode key with
  | .ok decoded =>
      let successor := comparator.findShortSuccessor decoded.userKey
      if isShorterAndGreaterUserKey comparator decoded.userKey successor = false then key
      else appendMaxSeekTrailer successor
  | .error _ => key

end Code

/-! ## The order of encoded keys -/

variable {comparator : KeyComparator}

theorem compareDescendingTrailers_eq (left right : Bytes) :
    ByteKey.compareDescendingTrailers left right =
      compare (ByteKey.trailerPart right) (ByteKey.trailerPart left) := by
  unfold ByteKey.compareDescendingTrailers
  split
  · next h => exact (Nat.compare_eq_lt.mpr h).symm
  · split
    · next h => exact (Nat.compare_eq_gt.mpr h).symm
    · exact (Nat.compare_eq_eq.mpr (by omega)).symm

theorem compareKeys_eq : compareKeys comparator = fun left right =>
    (comparator.compare (ByteKey.userPart left) (ByteKey.userPart right)).then
      (compare (ByteKey.trailerPart right) (ByteKey.trailerPart left)) := by
  funext left right
  rw [compareKeys, compareDescendingTrailers_eq]
  cases comparator.compare (ByteKey.userPart left) (ByteKey.userPart right) <;> rfl

instance transCmp_compareKeys [Std.TransCmp comparator.compare] :
    Std.TransCmp (compareKeys comparator) := by
  rw [compareKeys_eq]
  exact InternalKey.transCmp_then comparator.compare ByteKey.userPart ByteKey.trailerPart

theorem eq_of_compareKeys (heq : ∀ {a b : Bytes}, comparator.compare a b = .eq → a = b)
    {left right : Bytes} (hleft : 8 ≤ left.length) (hright : 8 ≤ right.length)
    (h : compareKeys comparator left right = .eq) : left = right := by
  rw [compareKeys_eq, Ordering.then_eq_eq] at h
  have huser : ByteKey.userPart left = ByteKey.userPart right := heq h.1
  have htrailer : ByteKey.trailerPart right = ByteKey.trailerPart left := Nat.compare_eq_eq.mp h.2
  have hlength : left.length = right.length := by
    have hlengths := congrArg List.length huser
    rw [ByteKey.userPart, ByteKey.userPart, List.length_take, List.length_take] at hlengths
    omega
  have hdrop : left.drop (left.length - 8) = right.drop (right.length - 8) := by
    refine decodeFixed_inj ?_ htrailer.symm
    rw [List.length_drop, List.length_drop, hlength]
  calc left = ByteKey.userPart left ++ left.drop (left.length - 8) :=
        (List.take_append_drop _ left).symm
    _ = ByteKey.userPart right ++ right.drop (right.length - 8) := by rw [huser, hdrop]
    _ = right := List.take_append_drop _ right

/-! ## What is shortened -/

theorem decode_userKey {encoded : Bytes} {key : ByteKey} (h : ByteKey.decode encoded = .ok key) :
    key.userKey = ByteKey.userPart encoded := by
  unfold ByteKey.decode at h
  split at h
  · cases h
  · dsimp only at h
    split at h
    · cases h
      rfl
    · split at h
      · cases h
        rfl
      · cases h

theorem isShorterAndGreater_iff {original candidate : Bytes} :
    isShorterAndGreaterUserKey comparator original candidate = true ↔
      candidate.length < original.length ∧ comparator.compare original candidate = .lt := by
  unfold isShorterAndGreaterUserKey
  split
  · next h => simp [Nat.not_lt.mpr h]
  · next h => simp [Nat.lt_of_not_le h]

theorem userPart_appendMaxSeekTrailer (key : Bytes) :
    ByteKey.userPart (appendMaxSeekTrailer key) = key := ByteKey.userPart_append key _

theorem findShortestSeparator_cases (start limit : Bytes) :
    findShortestSeparator comparator start limit = start ∨
      ∃ shortened, findShortestSeparator comparator start limit = appendMaxSeekTrailer shortened ∧
        shortened = comparator.findShortestSeparator (ByteKey.userPart start)
          (ByteKey.userPart limit) ∧
        comparator.compare (ByteKey.userPart start) shortened = .lt ∧
        compareKeys comparator (appendMaxSeekTrailer shortened) limit = .lt := by
  unfold findShortestSeparator
  split
  · next startKey limitKey hstart hlimit =>
    rw [decode_userKey hstart, decode_userKey hlimit]
    dsimp only
    split
    · exact .inl rfl
    · next hgreater =>
      obtain ⟨_, hless⟩ := isShorterAndGreater_iff.mp (Bool.not_eq_false _ ▸ hgreater)
      unfold commitSeparatorBeforeLimit
      split
      · next hcommit => exact .inr ⟨_, rfl, rfl, hless, hcommit⟩
      · exact .inl rfl
  · exact .inl rfl

theorem findShortSuccessor_cases (key : Bytes) :
    findShortSuccessor comparator key = key ∨
      ∃ successor, findShortSuccessor comparator key = appendMaxSeekTrailer successor ∧
        comparator.compare (ByteKey.userPart key) successor = .lt := by
  unfold findShortSuccessor
  split
  · next decoded hdecoded =>
    rw [decode_userKey hdecoded]
    dsimp only
    split
    · exact .inl rfl
    · next hgreater =>
      obtain ⟨_, hless⟩ := isShorterAndGreater_iff.mp (Bool.not_eq_false _ ▸ hgreater)
      exact .inr ⟨_, rfl, hless⟩
  · exact .inl rfl

theorem compareKeys_lt_of_user {left right : Bytes}
    (h : comparator.compare (ByteKey.userPart left) (ByteKey.userPart right) = .lt) :
    compareKeys comparator left right = .lt := by
  rw [compareKeys, h]

theorem user_isLE_of_compareKeys {left right : Bytes} (h : (compareKeys comparator left right).isLE) :
    (comparator.compare (ByteKey.userPart left) (ByteKey.userPart right)).isLE := by
  rw [compareKeys_eq, Ordering.isLE_then_iff_and] at h
  exact h.1

theorem compareKeys_separator_lt {start limit : Bytes}
    (h : compareKeys comparator start limit = .lt) :
    compareKeys comparator (findShortestSeparator comparator start limit) limit = .lt := by
  rcases findShortestSeparator_cases start limit with hsame | ⟨shortened, hseparator, _, _, hcommit⟩
  · rw [hsame]
    exact h
  · rw [hseparator]
    exact hcommit

section Lawful

variable [Std.TransCmp comparator.compare]

theorem compareKeys_self (key : Bytes) : compareKeys comparator key key = .eq :=
  Std.ReflCmp.compare_self

theorem compareKeys_separator_ge (start limit : Bytes) :
    (compareKeys comparator start (findShortestSeparator comparator start limit)).isLE := by
  rcases findShortestSeparator_cases start limit with hsame | ⟨shortened, hseparator, _, hgreater, _⟩
  · rw [hsame, compareKeys_self]
    rfl
  · rw [hseparator, compareKeys_lt_of_user]
    · rfl
    · rw [userPart_appendMaxSeekTrailer]
      exact hgreater

theorem compareKeys_successor_ge (key : Bytes) :
    (compareKeys comparator key (findShortSuccessor comparator key)).isLE := by
  rcases findShortSuccessor_cases key with hsame | ⟨successor, hsuccessor, hgreater⟩
  · rw [hsame, compareKeys_self]
    rfl
  · rw [hsuccessor, compareKeys_lt_of_user]
    · rfl
    · rw [userPart_appendMaxSeekTrailer]
      exact hgreater

theorem shortened_lt (hlawful : comparator.Lawful) {start limit shortened : Bytes}
    (h : compareKeys comparator start limit = .lt)
    (hshortened : shortened = comparator.findShortestSeparator (ByteKey.userPart start)
      (ByteKey.userPart limit))
    (hgreater : comparator.compare (ByteKey.userPart start) shortened = .lt)
    (hcommit : compareKeys comparator (appendMaxSeekTrailer shortened) limit = .lt) :
    comparator.compare shortened (ByteKey.userPart limit) = .lt := by
  have hle : (comparator.compare (ByteKey.userPart start) (ByteKey.userPart limit)).isLE :=
    user_isLE_of_compareKeys (by rw [h]; rfl)
  rcases Ordering.isLE_iff_eq_lt_or_eq_eq.mp hle with hlt | heq
  · rw [hshortened]
    exact (hlawful.separator hlt).2
  · -- The user keys are equal, so the candidate is behind the second key and was not taken.
    have hbehind : comparator.compare (ByteKey.userPart limit) shortened = .lt :=
      Std.TransCmp.lt_of_eq_of_lt (Std.OrientedCmp.eq_symm heq) hgreater
    have hcandidate : (comparator.compare (ByteKey.userPart (appendMaxSeekTrailer shortened))
        (ByteKey.userPart limit)).isLE := user_isLE_of_compareKeys (by rw [hcommit]; rfl)
    rw [userPart_appendMaxSeekTrailer] at hcandidate
    have habsurd := Std.TransCmp.lt_of_lt_of_isLE hbehind hcandidate
    have hself : comparator.compare (ByteKey.userPart limit) (ByteKey.userPart limit) = .eq :=
      Std.ReflCmp.compare_self
    rw [hself] at habsurd
    cases habsurd

/-- A seek target that lands at or before a separator looks for another user key than that of the
second key. -/
theorem lookup_before_limit (hlawful : comparator.Lawful) {start limit target : Bytes}
    (h : compareKeys comparator start limit = .lt)
    (hstart : compareKeys comparator start target = .lt)
    (htarget : (compareKeys comparator target
      (findShortestSeparator comparator start limit)).isLE) :
    comparator.compare (ByteKey.userPart target) (ByteKey.userPart limit) = .lt := by
  rcases findShortestSeparator_cases start limit with
    hsame | ⟨shortened, hseparator, hshortened, hgreater, hcommit⟩
  · rw [hsame] at htarget
    have habsurd := Std.TransCmp.lt_of_lt_of_isLE hstart htarget
    rw [compareKeys_self] at habsurd
    cases habsurd
  · have hlt := shortened_lt hlawful h hshortened hgreater hcommit
    rw [hseparator] at htarget
    have hle := user_isLE_of_compareKeys htarget
    rw [userPart_appendMaxSeekTrailer] at hle
    exact Std.TransCmp.lt_of_isLE_of_lt hle hlt

end Lawful

/-- Internal keys are ordered totally, and shortened as table lookups need it, over any user comparator
that keeps its contract; the bytewise comparator keeps it. -/
theorem internalKeyComparator_laws :
    (∀ comparator : KeyComparator, comparator.Lawful →
      Std.TransCmp (compareKeys comparator) ∧
      ((∀ {a b : Bytes}, comparator.compare a b = .eq → a = b) →
        ∀ a b : Bytes, 8 ≤ a.length → 8 ≤ b.length → compareKeys comparator a b = .eq → a = b) ∧
      (∀ a b : Bytes, 8 ≤ a.length → 8 ≤ b.length → compareKeys comparator a b = .lt →
        (compareKeys comparator a (findShortestSeparator comparator a b)).isLE ∧
        compareKeys comparator (findShortestSeparator comparator a b) b = .lt ∧
        ∀ (user : Bytes) (sequence : Nat),
          compareKeys comparator a (ByteKey.encoded (InternalKey.lookupKey user sequence)) = .lt →
          (compareKeys comparator (ByteKey.encoded (InternalKey.lookupKey user sequence))
            (findShortestSeparator comparator a b)).isLE →
          comparator.compare user (ByteKey.userPart b) ≠ .eq) ∧
      ∀ a : Bytes, 8 ≤ a.length →
        (compareKeys comparator a (findShortSuccessor comparator a)).isLE) ∧
    bytewiseComparator.Lawful ∧
    (∀ {a b : Bytes}, bytewiseComparator.compare a b = .eq → a = b) ∧
    (∀ start limit : Bytes,
      (bytewiseComparator.findShortestSeparator start limit).length ≤ start.length) ∧
    ∀ key : Bytes, (bytewiseComparator.findShortSuccessor key).length ≤ key.length := by
  refine ⟨fun comparator hlawful => ?_, bytewiseComparator_lawful, Bytewise.eq_of_compareKeys,
    Bytewise.length_separator_le, Bytewise.length_successor_le⟩
  have htrans := hlawful.trans
  refine ⟨transCmp_compareKeys, fun heq a b ha hb h => eq_of_compareKeys heq ha hb h,
    fun a b _ _ hlt => ⟨compareKeys_separator_ge a b, compareKeys_separator_lt hlt, ?_⟩,
    fun a _ => compareKeys_successor_ge a⟩
  intro user sequence hstart htarget heq
  have hbefore := lookup_before_limit hlawful hlt hstart htarget
  rw [ByteKey.encoded, ByteKey.userPart_append] at hbefore
  cases heq.symm.trans hbefore

/-- Two keys with a shorter separator. -/
theorem internalKeyComparator_laws_ab :
    findShortestSeparator bytewiseComparator
        (ByteKey.encoded ⟨[1, 2, 3], 5, .value⟩) (ByteKey.encoded ⟨[1, 9], 6, .deletion⟩) =
      ByteKey.encoded ⟨[1, 3], maxSequenceNumber, .value⟩ ∧
    compareKeys bytewiseComparator (ByteKey.encoded ⟨[1, 3], maxSequenceNumber, .value⟩)
      (ByteKey.encoded ⟨[1, 9], 6, .deletion⟩) = .lt := by
  have hseparator : findShortestSeparator bytewiseComparator
      (ByteKey.encoded ⟨[1, 2, 3], 5, .value⟩) (ByteKey.encoded ⟨[1, 9], 6, .deletion⟩) =
      ByteKey.encoded ⟨[1, 3], maxSequenceNumber, .value⟩ := by decide
  have hlaws := (internalKeyComparator_laws.1 bytewiseComparator bytewiseComparator_lawful).2.2.1
    (ByteKey.encoded ⟨[1, 2, 3], 5, .value⟩) (ByteKey.encoded ⟨[1, 9], 6, .deletion⟩)
    (by decide) (by decide) (by decide)
  rw [hseparator] at hlaws
  exact ⟨hseparator, hlaws.2.1⟩

end InternalKeyComparator
end ModernLevelDB
