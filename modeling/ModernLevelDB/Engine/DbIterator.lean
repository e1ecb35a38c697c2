import ModernLevelDB.Base.Result
import ModernLevelDB.Format.InternalKey
import ModernLevelDB.Lib.Cursor
import ModernLevelDB.Lib.Loop

/-! # The database iterator (`engine/db_iterator.h`)

A `DbIterator` shows the newest entry of each user key that its sequence sees, and no deletion. Going
forward its internal iterator stands at the entry that it shows. Going backward it shows what it saved,
and the internal iterator stands before the entries of the saved user key.

The internal iterator is any iterator over internal keys. `rounds` bounds the loops of one move. -/
namespace ModernLevelDB
set_option autoImplicit false

open Cursor

variable {σ K V : Type*}

/-! ## The iterator -/

/-- `savedKey` and `savedValue` are `none` when they are cleared. -/
structure DbIterator (σ K V : Type*) where
  internal : σ
  sequence : Nat
  forward : Bool := true
  valid : Bool := false
  savedKey : Option K := none
  savedValue : Option V := none

namespace DbIterator

def fail (error : Error) (db : DbIterator σ K V) : Status × DbIterator σ K V :=
  (.error error, { db with valid := false, forward := true, savedKey := none, savedValue := none })

variable [LinearOrder K]

/-- Whether the entry is the one to show, and whether the scan is skipping from here on. -/
def considerNextEntry (entry : InternalKey K) (skipping : Bool) (db : DbIterator σ K V) :
    Bool × Bool × DbIterator σ K V :=
  if entry.sequence ≤ db.sequence then
    if entry.kind = .deletion then (false, true, { db with savedKey := some entry.userKey })
    else if skipping = false ∨ ∀ saved ∈ db.savedKey, saved < entry.userKey then
      (true, skipping, { db with valid := true, savedKey := none })
    else (false, skipping, db)
  else (false, skipping, db)

/-- Whether the scan is over, and the kind of the newest visible entry so far. -/
def considerPreviousEntry (entry : InternalKey K × V) (kind : ValueKind) (db : DbIterator σ K V) :
    Bool × ValueKind × DbIterator σ K V :=
  if entry.1.sequence ≤ db.sequence then
    if kind ≠ .deletion ∧ ∀ saved ∈ db.savedKey, entry.1.userKey < saved then (true, kind, db)
    else if entry.1.kind = .deletion then
      (false, .deletion, { db with savedKey := none, savedValue := none })
    else
      (false, entry.1.kind,
        { db with savedKey := some entry.1.userKey, savedValue := some entry.2 })
  else (false, kind, db)

def finishReverseScan (kind : ValueKind) (db : DbIterator σ K V) : DbIterator σ K V :=
  if kind = .deletion then
    { db with valid := false, forward := true, savedKey := none, savedValue := none }
  else { db with valid := true }

variable (it : Iterator σ (InternalKey K) V Error)

/-- One round of `FindNextUserEntry`. While skipping, `savedKey` is the user key whose entries are
skipped. -/
def nextRound : Bool × DbIterator σ K V → (Bool × DbIterator σ K V) ⊕ (Status × DbIterator σ K V)
  | (skipping, db) =>
      match it.current db.internal with
      | none => .inr (.ok (), { db with valid := false, savedKey := none })
      | some entry =>
          let (found, skipping, db) := considerNextEntry entry.1 skipping db
          if found then .inr (.ok (), db)
          else
            match it.move .next db.internal with
            | (.error error, internal) => .inr (fail error { db with internal })
            | (.ok (), internal) => .inl (skipping, { db with internal })

def findNextUserEntry (rounds : Nat) (skipping : Bool) (db : DbIterator σ K V) :
    Status × DbIterator σ K V :=
  Loop.run (nextRound it) (fun state => (.ok (), state.2)) rounds (skipping, db)

/-- One round of `FindPrevUserEntry`, with the kind that `FinishReverseScan` gets. -/
def prevRound :
    ValueKind × DbIterator σ K V → (ValueKind × DbIterator σ K V) ⊕ (Status × DbIterator σ K V)
  | (kind, db) =>
      match it.current db.internal with
      | none => .inr (.ok (), finishReverseScan kind db)
      | some entry =>
          let (ended, kind, db) := considerPreviousEntry entry kind db
          if ended then .inr (.ok (), finishReverseScan kind db)
          else
            match it.move .prev db.internal with
            | (.error error, internal) => .inr (fail error { db with internal })
            | (.ok (), internal) => .inl (kind, { db with internal })

def findPrevUserEntry (rounds : Nat) (db : DbIterator σ K V) : Status × DbIterator σ K V :=
  Loop.run (prevRound it) (fun state => (.ok (), state.2)) rounds (.deletion, db)

/-- One round of `PositionBeforeCurrentUser`: `false` when nothing is before the saved key. -/
def positionRound (db : DbIterator σ K V) :
    DbIterator σ K V ⊕ (Result Bool × DbIterator σ K V) :=
  match it.move .prev db.internal with
  | (.error error, internal) => .inr (.error error, { db with internal })
  | (.ok (), internal) =>
      match it.current internal with
      | none =>
          .inr (.ok false, { db with internal, valid := false, savedKey := none, savedValue := none })
      | some entry =>
          if ∀ saved ∈ db.savedKey, entry.1.userKey < saved then
            .inr (.ok true, { db with internal, forward := false })
          else .inl { db with internal }

def positionBeforeCurrentUser (rounds : Nat) (db : DbIterator σ K V) :
    Result Bool × DbIterator σ K V :=
  Loop.run (positionRound it) (fun db => (.ok false, db)) rounds
    { db with savedKey := (it.current db.internal).map (·.1.userKey) }

def advanceForNext (db : DbIterator σ K V) : Status × DbIterator σ K V :=
  if db.forward then
    let savedKey := (it.current db.internal).map (·.1.userKey)
    let (moved, internal) := it.move .next db.internal
    (moved, { db with savedKey, internal })
  else
    -- The internal iterator is before the entries of the saved key.
    let (moved, internal) :=
      if (it.current db.internal).isSome then it.move .next db.internal
      else it.move .seekToFirst db.internal
    (moved, { db with forward := true, internal })

variable (rounds : Nat)

def seekForward (m : Move (InternalKey K)) (db : DbIterator σ K V) : Status × DbIterator σ K V :=
  match it.move m db.internal with
  | (.error error, internal) => fail error { db with internal }
  | (.ok (), internal) => findNextUserEntry it rounds false
      { db with internal, valid := false, forward := true, savedValue := none }

def seekToFirst : DbIterator σ K V → Status × DbIterator σ K V := seekForward it rounds .seekToFirst

/-- The newest entry of the user key that the sequence sees comes first. `saved_key_` is the buffer
of the target and is not read as a saved key. -/
def seek (userKey : K) (db : DbIterator σ K V) : Status × DbIterator σ K V :=
  seekForward it rounds (.seek (.lookupKey userKey db.sequence)) db

def seekToLast (db : DbIterator σ K V) : Status × DbIterator σ K V :=
  match it.move .seekToLast db.internal with
  | (.error error, internal) => fail error { db with internal }
  | (.ok (), internal) => findPrevUserEntry it rounds
      { db with internal, valid := false, forward := false, savedValue := none }

def next (db : DbIterator σ K V) : Status × DbIterator σ K V :=
  match advanceForNext it { db with valid := false } with
  | (.error error, db) => fail error db
  | (.ok (), db) => findNextUserEntry it rounds true db

def prev (db : DbIterator σ K V) : Status × DbIterator σ K V :=
  let db := { db with valid := false }
  if db.forward then
    match positionBeforeCurrentUser it rounds db with
    | (.error error, db) => fail error db
    | (.ok false, db) => (.ok (), db)
    | (.ok true, db) => findPrevUserEntry it rounds db
  else findPrevUserEntry it rounds db

def entry (db : DbIterator σ K V) : Option (K × V) :=
  if db.valid then
    if db.forward then (it.current db.internal).map (fun entry => (entry.1.userKey, entry.2))
    else db.savedKey.bind fun key => db.savedValue.map fun value => (key, value)
  else none

end DbIterator

def dbIterator [LinearOrder K] (it : Iterator σ (InternalKey K) V Error) (rounds : Nat) :
    Iterator (DbIterator σ K V) K V Error where
  current := DbIterator.entry it
  move
    | .seekToFirst => DbIterator.seekToFirst it rounds
    | .seekToLast => DbIterator.seekToLast it rounds
    | .seek userKey => DbIterator.seek it rounds userKey
    | .next => DbIterator.next it rounds
    | .prev => DbIterator.prev it rounds

/-! ## What a reader sees -/

section View

variable [LinearOrder K]

def newestVisible (entries : List (InternalKey K × V)) (sequence : Nat) (user : K) :
    Option (InternalKey K × V) :=
  entries.find? (fun entry => entry.1.userKey = user ∧ entry.1.sequence ≤ sequence)

/-- The user keys with the values of their newest visible entries, without the deleted ones. -/
def userView (entries : List (InternalKey K × V)) (sequence : Nat) : List (K × V) :=
  (entries.map (·.1.userKey)).dedup.filterMap fun user =>
    (newestVisible entries sequence user).bind fun entry =>
      if entry.1.kind = .value then some (user, entry.2) else none

/-- Entries that a snapshot at `sequence` sees. -/
def Sees (entries : List (InternalKey K × V)) (sequence : Nat) (entry : InternalKey K × V) : Prop :=
  entry ∈ entries ∧ entry.1.sequence ≤ sequence

/-- The entry that the snapshot shows for its user key. -/
structure Answer (entries : List (InternalKey K × V)) (sequence : Nat) (entry : InternalKey K × V) :
    Prop where
  sees : Sees entries sequence entry
  kind : entry.1.kind = .value
  first : ∀ {other}, Sees entries sequence other → other.1.userKey = entry.1.userKey →
    entry.1 ≤ other.1

/-- `view` lists the answers in order. -/
structure Views (view : List (K × V)) (entries : List (InternalKey K × V)) (sequence : Nat) :
    Prop where
  sorted : view.Pairwise (fun a b => a.1 < b.1)
  mem : ∀ {u v}, (u, v) ∈ view ↔
    ∃ entry, Answer entries sequence entry ∧ entry.1.userKey = u ∧ entry.2 = v

variable {entries : List (InternalKey K × V)}

theorem newestVisible_some (hsorted : entries.Pairwise (fun a b => a.1 ≤ b.1)) {sequence : Nat}
    {user : K} {entry : InternalKey K × V} (h : newestVisible entries sequence user = some entry) :
    Sees entries sequence entry ∧ entry.1.userKey = user ∧
      ∀ other, Sees entries sequence other → other.1.userKey = user → entry.1 ≤ other.1 := by
  obtain ⟨hp, before, after, rfl, hbefore⟩ := List.find?_eq_some_iff_append.mp h
  simp only [decide_eq_true_eq] at hp
  refine ⟨⟨by simp, hp.2⟩, hp.1, ?_⟩
  intro other hother huser
  rcases List.mem_append.mp hother.1 with hmem | hmem
  · have hnot := hbefore other hmem
    simp [huser, hother.2] at hnot
  · rcases List.mem_cons.mp hmem with rfl | hmem
    · exact le_rfl
    · exact List.rel_of_pairwise_cons (List.pairwise_append.mp hsorted).2.1 hmem

theorem userView_views (hsorted : entries.Pairwise (fun a b => a.1 < b.1)) (sequence : Nat) :
    Views (userView entries sequence) entries sequence where
  sorted := by
    have hle : (entries.map (·.1.userKey)).dedup.Pairwise (· ≤ ·) := by
      refine List.Pairwise.sublist (List.dedup_sublist _) (List.pairwise_map.mpr ?_)
      exact hsorted.imp (fun h => InternalKey.userKey_mono (le_of_lt h))
    have hlt : (entries.map (·.1.userKey)).dedup.Pairwise (· < ·) :=
      (hle.and (List.nodup_dedup _)).imp (fun h => lt_of_le_of_ne h.1 h.2)
    have hfst : ∀ user pair, ((newestVisible entries sequence user).bind fun entry =>
        if entry.1.kind = .value then some (user, entry.2) else none) = some pair →
        pair.1 = user := by
      intro user pair h
      obtain ⟨entry, _, h⟩ := Option.bind_eq_some_iff.mp h
      split at h
      · cases h
        rfl
      · cases h
    refine List.pairwise_filterMap.mpr (hlt.imp ?_)
    intro a b hab x hx y hy
    rw [hfst a x hx, hfst b y hy]
    exact hab
  mem := by
    intro u v
    have hle := hsorted.imp (fun {a b : InternalKey K × V} (h : a.1 < b.1) => le_of_lt h)
    unfold userView
    rw [List.mem_filterMap]
    constructor
    · rintro ⟨user, _, h⟩
      obtain ⟨entry, hnewest, h⟩ := Option.bind_eq_some_iff.mp h
      obtain ⟨hsees, huser, hfirst⟩ := newestVisible_some hle hnewest
      split at h
      · next hkind =>
        cases h
        exact ⟨entry, ⟨hsees, hkind, fun hother he => hfirst _ hother (he.trans huser)⟩, huser, rfl⟩
      · cases h
    · rintro ⟨entry, hanswer, rfl, rfl⟩
      refine ⟨entry.1.userKey, ?_, ?_⟩
      · rw [List.mem_dedup]
        exact List.mem_map.mpr ⟨entry, hanswer.sees.1, rfl⟩
      · cases hnewest : newestVisible entries sequence entry.1.userKey with
        | none =>
          have hnot := List.find?_eq_none.mp hnewest entry hanswer.sees.1
          simp [hanswer.sees.2] at hnot
        | some found =>
          obtain ⟨hsees, huser, hfirst⟩ := newestVisible_some hle hnewest
          have hkey : found.1 = entry.1 :=
            le_antisymm (hfirst entry hanswer.sees rfl) (hanswer.first hsees huser)
          cases eq_of_key hsorted hsees.1 hanswer.sees.1 hkey
          simp [hanswer.kind]

theorem Views.congr {view : List (K × V)} {entries' : List (InternalKey K × V)} {s : Nat}
    (h : Views view entries s) (hsees : ∀ {e}, Sees entries' s e ↔ Sees entries s e) :
    Views view entries' s := by
  refine ⟨h.sorted, fun {u v} => h.mem.trans (exists_congr fun e => and_congr_left fun _ => ?_)⟩
  exact ⟨fun ha => ⟨hsees.mpr ha.sees, ha.kind, fun ho => ha.first (hsees.mp ho)⟩,
    fun ha => ⟨hsees.mp ha.sees, ha.kind, fun ho => ha.first (hsees.mpr ho)⟩⟩

end View

/-! ## The scan forward -/

section Coming

variable [LinearOrder K] {old : List (InternalKey K × V)} {s : Nat} {T : K → Prop} {skip : Option K}
  {P : InternalKey K → Prop} {x : InternalKey K × V}

/-- The scan looks for the first answer whose user key satisfies `T`, and the entries with `P` are to
come. Every user key that is to come has all its entries there, except the one that is skipped. -/
structure Coming (old : List (InternalKey K × V)) (s : Nat) (T : K → Prop) (skip : Option K)
    (P : InternalKey K → Prop) : Prop where
  closed : ∀ {y z}, Sees old s y → Sees old s z → P y.1 → y.1 ≤ z.1 → P z.1
  answers : ∀ {a}, Answer old s a → T a.1.userKey → (∀ k ∈ skip, k < a.1.userKey) ∧
    ∀ {z}, Sees old s z → z.1.userKey = a.1.userKey → P z.1
  whole : ∀ {y}, Sees old s y → P y.1 → y.1.userKey ∈ skip ∨
    T y.1.userKey ∧ ∀ {z}, Sees old s z → z.1.userKey = y.1.userKey → P z.1
  skipped : ∀ {k y}, k ∈ skip → Sees old s y → P y.1 → k ≤ y.1.userKey

section

variable (h : Coming old s T skip P)

include h

theorem Coming.closed_next {y z : InternalKey K × V} (hy : Sees old s y)
    (hz : Sees old s z) (hP : P y.1 ∧ x.1 < y.1) (hle : y.1 ≤ z.1) : P z.1 ∧ x.1 < z.1 :=
  ⟨h.closed hy hz hP.1 hle, lt_of_lt_of_le hP.2 hle⟩

theorem Coming.invisible (hle : ∀ y ∈ old, P y.1 → x.1 ≤ y.1)
    (hx : s < x.1.sequence) : Coming old s T skip (fun k => P k ∧ x.1 < k) := by
  have hkeep : ∀ {z}, Sees old s z → P z.1 → P z.1 ∧ x.1 < z.1 := by
    intro z hz hP
    refine ⟨hP, lt_of_le_of_ne (hle z hz.1 hP) (fun heq => ?_)⟩
    have hseq := hz.2
    rw [← heq] at hseq
    omega
  constructor
  · exact fun hy hz hP hyz => h.closed_next hy hz hP hyz
  · intro a ha hT
    exact ⟨(h.answers ha hT).1, fun hz hu => hkeep hz ((h.answers ha hT).2 hz hu)⟩
  · intro y hy hP
    rcases h.whole hy hP.1 with hskip | ⟨hT, hall⟩
    · exact .inl hskip
    · exact .inr ⟨hT, fun hz hu => hkeep hz (hall hz hu)⟩
  · exact fun hk hy hP => h.skipped hk hy hP.1

theorem Coming.deletion (hle : ∀ y ∈ old, P y.1 → x.1 ≤ y.1)
    (hx : Sees old s x) (hP : P x.1) (hkind : x.1.kind = .deletion) :
    Coming old s T (some x.1.userKey) (fun k => P k ∧ x.1 < k) := by
  have hbehind : ∀ {z : InternalKey K × V}, x.1.userKey < z.1.userKey → x.1 < z.1 :=
    fun hlt => InternalKey.lt_iff.mpr (.inl hlt)
  constructor
  · exact fun hy hz hP hyz => h.closed_next hy hz hP hyz
  · intro a ha hT
    obtain ⟨hskip, hall⟩ := h.answers ha hT
    have hxa : x.1 ≤ a.1 := hle a ha.sees.1 (hall ha.sees rfl)
    have hne : x.1.userKey ≠ a.1.userKey := by
      intro heq
      -- The deletion is one of the entries of the answer's user key, so it comes second.
      have hax : a.1 ≤ x.1 := ha.first hx heq
      have hkey := le_antisymm hxa hax
      rw [hkey, ha.kind] at hkind
      cases hkind
    have hlt : x.1.userKey < a.1.userKey := lt_of_le_of_ne (InternalKey.userKey_mono hxa) hne
    refine ⟨fun k hk => ?_, fun hz hu => ⟨hall hz hu, hbehind (by rw [hu]; exact hlt)⟩⟩
    cases hk
    exact hlt
  · intro y hy hPy
    rcases (InternalKey.userKey_mono hPy.2.le).eq_or_lt with heq | hlt
    · exact .inl (by rw [heq]; rfl)
    · rcases h.whole hy hPy.1 with hskip | ⟨hT, hall⟩
      · exact absurd (h.skipped hskip hx hP) hlt.not_ge
      · exact .inr ⟨hT, fun hz hu => ⟨hall hz hu, hbehind (by rw [hu]; exact hlt)⟩⟩
  · intro k y hk hy hPy
    cases hk
    exact InternalKey.userKey_mono hPy.2.le

theorem Coming.passed (hx : Sees old s x) (hP : P x.1) {k : K}
    (hk : k ∈ skip) (hle : x.1.userKey ≤ k) : Coming old s T skip (fun k => P k ∧ x.1 < k) := by
  have huser : x.1.userKey = k := le_antisymm hle (h.skipped hk hx hP)
  constructor
  · exact fun hy hz hP hyz => h.closed_next hy hz hP hyz
  · intro a ha hT
    obtain ⟨hskip, hall⟩ := h.answers ha hT
    refine ⟨hskip, fun hz hu => ⟨hall hz hu, InternalKey.lt_iff.mpr (.inl ?_)⟩⟩
    rw [hu, huser]
    exact hskip k hk
  · intro y hy hPy
    rcases h.whole hy hPy.1 with hskip | ⟨hT, hall⟩
    · exact .inl hskip
    · rcases (InternalKey.userKey_mono hPy.2.le).eq_or_lt with heq | hlt
      · exact .inl (by rw [← heq, huser]; exact hk)
      · refine .inr ⟨hT, fun hz hu => ⟨hall hz hu, InternalKey.lt_iff.mpr (.inl ?_)⟩⟩
        rw [hu]
        exact hlt
  · exact fun hk hy hPy => h.skipped hk hy hPy.1

theorem Coming.found (hle : ∀ y ∈ old, P y.1 → x.1 ≤ y.1)
    (hx : Sees old s x) (hP : P x.1) (hkind : x.1.kind = .value)
    (hskip : ∀ k ∈ skip, k < x.1.userKey) :
    Answer old s x ∧ T x.1.userKey ∧
      ∀ {a}, Answer old s a → T a.1.userKey → x.1.userKey ≤ a.1.userKey := by
  rcases h.whole hx hP with hmem | ⟨hT, hall⟩
  · exact absurd (hskip _ hmem) (lt_irrefl _)
  · refine ⟨⟨hx, hkind, fun hother hu => hle _ hother.1 (hall hother hu)⟩, hT, ?_⟩
    intro a ha hTa
    exact InternalKey.userKey_mono (hle a ha.sees.1 ((h.answers ha hTa).2 ha.sees rfl))

end

theorem coming_of_iff (hup : ∀ {a b}, T a → a ≤ b → T b)
    (hP : ∀ {y}, Sees old s y → (P y.1 ↔ T y.1.userKey)) : Coming old s T none P where
  closed := fun hy hz hPy hle => (hP hz).mpr (hup ((hP hy).mp hPy) (InternalKey.userKey_mono hle))
  answers := fun _ hT => ⟨by simp, fun hz hu => (hP hz).mpr (hu ▸ hT)⟩
  whole := fun hy hPy => .inr ⟨(hP hy).mp hPy, fun hz hu => (hP hz).mpr (hu ▸ (hP hy).mp hPy)⟩
  skipped := fun hk => by cases hk

theorem coming_after {u : K} (hle : ∀ {y}, Sees old s y → P y.1 → u ≤ y.1.userKey)
    (hlt : ∀ {y}, Sees old s y → u < y.1.userKey → P y.1)
    (hclosed : ∀ {y z}, Sees old s y → Sees old s z → P y.1 → y.1 ≤ z.1 → P z.1) :
    Coming old s (u < ·) (some u) P where
  closed := hclosed
  answers := by
    intro a _ hT
    refine ⟨fun k hk => ?_, fun hz hu => hlt hz (hu ▸ hT)⟩
    cases hk
    exact hT
  whole := by
    intro y hy hPy
    rcases (hle hy hPy).eq_or_lt with heq | hu
    · exact .inl (heq ▸ rfl)
    · exact .inr ⟨hu, fun hz he => hlt hz (he ▸ hu)⟩
  skipped := by
    intro k y hk hy hPy
    cases hk
    exact hle hy hPy

end Coming

/-! ## The scan backward -/

section Going

variable [LinearOrder K] {old : List (InternalKey K × V)} {s : Nat} {T : K → Prop}
  {last : Option (InternalKey K × V)} {P : InternalKey K → Prop} {x l : InternalKey K × V}

/-- The scan looks for the last answer whose user key satisfies `T`, and the entries with `P` are to
come. `last` is the value that it saved, unless a deletion came after it. -/
structure Going (old : List (InternalKey K × V)) (s : Nat) (T : K → Prop)
    (last : Option (InternalKey K × V)) (P : InternalKey K → Prop) : Prop where
  closed : ∀ {y z}, Sees old s y → Sees old s z → P y.1 → z.1 ≤ y.1 → P z.1
  within : ∀ {y}, Sees old s y → P y.1 → T y.1.userKey
  unsaved : last = none → ∀ {a}, Answer old s a → T a.1.userKey → P a.1
  saved : ∀ {l}, l ∈ last → Sees old s l ∧ l.1.kind = .value ∧ T l.1.userKey ∧
    (∀ {z}, Sees old s z → T z.1.userKey → P z.1 ∨ l.1 ≤ z.1) ∧
    (∀ {y}, Sees old s y → P y.1 → y.1 < l.1) ∧
    ∀ {a}, Answer old s a → T a.1.userKey → a.1.userKey ≤ l.1.userKey

theorem Going.closed_prev (h : Going old s T last P) {y z : InternalKey K × V} (hy : Sees old s y)
    (hz : Sees old s z) (hP : P y.1 ∧ y.1 < x.1) (hle : z.1 ≤ y.1) : P z.1 ∧ z.1 < x.1 :=
  ⟨h.closed hy hz hP.1 hle, lt_of_le_of_lt hle hP.2⟩

theorem Going.invisible (h : Going old s T last P) (hle : ∀ y ∈ old, P y.1 → y.1 ≤ x.1)
    (hx : s < x.1.sequence) : Going old s T last (fun k => P k ∧ k < x.1) := by
  have hkeep : ∀ {z}, Sees old s z → P z.1 → P z.1 ∧ z.1 < x.1 := by
    intro z hz hP
    refine ⟨hP, lt_of_le_of_ne (hle z hz.1 hP) (fun heq => ?_)⟩
    have hseq := hz.2
    rw [heq] at hseq
    omega
  constructor
  · exact fun hy hz hP hyz => h.closed_prev hy hz hP hyz
  · exact fun hy hP => h.within hy hP.1
  · exact fun hnone a ha hT => hkeep ha.sees (h.unsaved hnone ha hT)
  · intro l hl
    obtain ⟨hsees, hkind, hTl, hall, hbefore, hanswers⟩ := h.saved hl
    refine ⟨hsees, hkind, hTl, fun hz hT => ?_, fun hy hP => hbefore hy hP.1, hanswers⟩
    exact (hall hz hT).imp_left (hkeep hz)

theorem Going.deletion (h : Going old s T last P) (hle : ∀ y ∈ old, P y.1 → y.1 ≤ x.1)
    (hx : Sees old s x) (hP : P x.1) (hkind : x.1.kind = .deletion)
    (hsame : ∀ l ∈ last, l.1.userKey ≤ x.1.userKey) :
    Going old s T none (fun k => P k ∧ k < x.1) := by
  constructor
  · exact fun hy hz hP hyz => h.closed_prev hy hz hP hyz
  · exact fun hy hP => h.within hy hP.1
  · intro _ a ha hT
    have hPa : P a.1 := by
      cases hlast : last with
      | none => exact h.unsaved hlast ha hT
      | some l =>
        obtain ⟨hsees, _, _, hall, hbefore, hanswers⟩ := h.saved hlast
        refine (hall ha.sees hT).resolve_right (fun hla => ?_)
        -- An answer behind the saved entry is of its user key, and this deletion is newer.
        have hxl := hbefore hx hP
        have huser : x.1.userKey = a.1.userKey := by
          refine le_antisymm ((InternalKey.userKey_mono hxl.le).trans (InternalKey.userKey_mono hla)) ?_
          exact (hanswers ha hT).trans (hsame l hlast)
        exact absurd (ha.first hx huser) (lt_of_lt_of_le hxl hla).not_ge
    refine ⟨hPa, lt_of_le_of_ne (hle a ha.sees.1 hPa) (fun heq => ?_)⟩
    rw [← heq, ha.kind] at hkind
    cases hkind
  · exact fun hl => by cases hl

theorem Going.value (h : Going old s T last P) (hle : ∀ y ∈ old, P y.1 → y.1 ≤ x.1)
    (hx : Sees old s x) (hP : P x.1) (hkind : x.1.kind = .value)
    (hsame : ∀ l ∈ last, l.1.userKey ≤ x.1.userKey) :
    Going old s T (some x) (fun k => P k ∧ k < x.1) := by
  constructor
  · exact fun hy hz hP hyz => h.closed_prev hy hz hP hyz
  · exact fun hy hP => h.within hy hP.1
  · exact fun hnone => by cases hnone
  · intro l hl
    cases hl
    refine ⟨hx, hkind, h.within hx hP, ?_, fun _ hPy => hPy.2, ?_⟩
    · intro z hz hT
      rcases lt_or_ge z.1 x.1 with hlt | hge
      · exact .inl ⟨h.closed hx hz hP hlt.le, hlt⟩
      · exact .inr hge
    · intro a ha hT
      cases hlast : last with
      | none => exact InternalKey.userKey_mono (hle a ha.sees.1 (h.unsaved hlast ha hT))
      | some l =>
        obtain ⟨_, _, _, _, _, hanswers⟩ := h.saved hlast
        exact (hanswers ha hT).trans (hsame l hlast)

theorem Going.found (h : Going old s T (some l) P) (hdown : ∀ {a b}, T b → a ≤ b → T a)
    (hearlier : ∀ {y}, Sees old s y → P y.1 → y.1.userKey < l.1.userKey) :
    Answer old s l ∧ T l.1.userKey ∧
      (∀ {a}, Answer old s a → T a.1.userKey → a.1.userKey ≤ l.1.userKey) ∧
      ∀ {y}, Sees old s y → (P y.1 ↔ y.1.userKey < l.1.userKey) := by
  obtain ⟨hsees, hkind, hT, hall, hbefore, hanswers⟩ := h.saved rfl
  refine ⟨⟨hsees, hkind, ?_⟩, hT, hanswers, fun hy => ⟨hearlier hy, ?_⟩⟩
  · intro z hz hu
    refine (hall hz (hu ▸ hT)).resolve_left (fun hP => ?_)
    exact absurd hu (hearlier hz hP).ne
  · intro hlt
    refine (hall hy (hdown hT hlt.le)).resolve_right (fun hle => ?_)
    exact absurd (InternalKey.userKey_mono hle) hlt.not_ge

theorem going_of_iff (hdown : ∀ {a b}, T b → a ≤ b → T a)
    (hP : ∀ {y}, Sees old s y → (P y.1 ↔ T y.1.userKey)) : Going old s T none P where
  closed := fun hy hz hPy hle => (hP hz).mpr (hdown ((hP hy).mp hPy) (InternalKey.userKey_mono hle))
  within := fun hy hPy => (hP hy).mp hPy
  unsaved := fun _ _ ha hT => (hP ha.sees).mpr hT
  saved := fun hl => by cases hl

end Going

/-! ## The loops -/

namespace DbIterator

variable [LinearOrder K]

/-- Forward, the internal iterator stands on the entry that is shown. -/
def ForwardAt (it : Iterator σ (InternalKey K) V Error) (old : List (InternalKey K × V)) (s : Nat)
    (Fwd : σ → (InternalKey K → Prop) → Prop) (db : DbIterator σ K V) (shown : K × V) : Prop :=
  db.forward = true ∧ ∃ e P, it.current db.internal = some e ∧ Answer old s e ∧
    shown = (e.1.userKey, e.2) ∧ Fwd db.internal P ∧ ∀ {y}, Sees old s y → (P y.1 ↔ e.1 ≤ y.1)

/-- Going backward, the entries of earlier user keys are to come, and the internal iterator stands at
a visible one or at none. -/
def BackwardAt (it : Iterator σ (InternalKey K) V Error) (old : List (InternalKey K × V)) (s : Nat)
    (Bwd : σ → (InternalKey K → Prop) → Prop) (db : DbIterator σ K V) (shown : K × V) : Prop :=
  db.forward = false ∧ db.savedKey = some shown.1 ∧ db.savedValue = some shown.2 ∧
    (∃ e, Answer old s e ∧ e.1.userKey = shown.1 ∧ e.2 = shown.2) ∧
    (∃ P, Bwd db.internal P ∧ ∀ {y}, Sees old s y → (P y.1 ↔ y.1.userKey < shown.1)) ∧
    ∀ x ∈ it.current db.internal, x.1.sequence ≤ s

/-- The iterator shows this position, in either direction. -/
structure Shows (it : Iterator σ (InternalKey K) V Error) (old : List (InternalKey K × V)) (s : Nat)
    (Inv : σ → Prop) (Fwd Bwd : σ → (InternalKey K → Prop) → Prop) (db : DbIterator σ K V)
    (position : Option (K × V)) : Prop where
  sequence : db.sequence = s
  inv : Inv db.internal
  valid : db.valid = position.isSome
  place : ∀ shown ∈ position, ForwardAt it old s Fwd db shown ∨ BackwardAt it old s Bwd db shown

/-! ### One round -/

section Rounds

variable {it : Iterator σ (InternalKey K) V Error} {db db' : DbIterator σ K V}

def skippedKey (skipping : Bool) (db : DbIterator σ K V) : Option K :=
  if skipping then db.savedKey else none

theorem considerNextEntry_cases (entry : InternalKey K) (skipping : Bool) (db : DbIterator σ K V) :
    (db.sequence < entry.sequence ∧ considerNextEntry entry skipping db = (false, skipping, db)) ∨
    (entry.sequence ≤ db.sequence ∧ entry.kind = .deletion ∧ considerNextEntry entry skipping db =
      (false, true, { db with savedKey := some entry.userKey })) ∨
    (entry.sequence ≤ db.sequence ∧ entry.kind = .value ∧
      (∀ k ∈ skippedKey skipping db, k < entry.userKey) ∧ considerNextEntry entry skipping db =
        (true, skipping, { db with valid := true, savedKey := none })) ∨
    (entry.sequence ≤ db.sequence ∧ entry.kind = .value ∧
      (∃ k ∈ skippedKey skipping db, entry.userKey ≤ k) ∧
      considerNextEntry entry skipping db = (false, skipping, db)) := by
  unfold considerNextEntry skippedKey
  by_cases hseq : entry.sequence ≤ db.sequence
  · rw [if_pos hseq]
    cases hkind : entry.kind with
    | deletion => exact .inr (.inl ⟨hseq, rfl, by rw [if_pos rfl]⟩)
    | value =>
      rw [if_neg (by simp)]
      by_cases htake : skipping = false ∨ ∀ saved ∈ db.savedKey, saved < entry.userKey
      · refine .inr (.inr (.inl ⟨hseq, rfl, ?_, by rw [if_pos htake]⟩))
        intro k hk
        cases skipping with
        | false => cases hk
        | true => exact htake.resolve_left (by simp) k hk
      · refine .inr (.inr (.inr ⟨hseq, rfl, ?_, by rw [if_neg htake]⟩))
        obtain ⟨hskipping, hall⟩ := not_or.mp htake
        rw [if_pos (by simpa using hskipping)]
        simpa only [not_forall, not_lt, exists_prop] using hall
  · exact .inl ⟨not_le.mp hseq, by rw [if_neg hseq]⟩

variable {skipping : Bool}

theorem nextRound_end (hnone : it.current db.internal = none) :
    nextRound it (skipping, db) = .inr (.ok (), { db with valid := false, savedKey := none }) := by
  rw [nextRound, hnone]

variable {x : InternalKey K × V}

theorem nextRound_found {skipping' : Bool} (hx : it.current db.internal = some x)
    (hconsider : considerNextEntry x.1 skipping db = (true, skipping', db')) :
    nextRound it (skipping, db) = .inr (.ok (), db') := by
  rw [nextRound, hx]
  simp only [hconsider, if_pos]

variable {internal : σ}

theorem nextRound_again {skipping' : Bool} (hx : it.current db.internal = some x)
    (hconsider : considerNextEntry x.1 skipping db = (false, skipping', db'))
    (hmove : it.move .next db'.internal = (.ok (), internal)) :
    nextRound it (skipping, db) = .inl (skipping', { db' with internal }) := by
  rw [nextRound, hx]
  simp only [hconsider, Bool.false_eq_true, if_false, hmove]

theorem considerPreviousEntry_cases (entry : InternalKey K × V) (kind : ValueKind)
    (db : DbIterator σ K V) :
    (db.sequence < entry.1.sequence ∧ considerPreviousEntry entry kind db = (false, kind, db)) ∨
    (entry.1.sequence ≤ db.sequence ∧ kind = .value ∧ (∀ k ∈ db.savedKey, entry.1.userKey < k) ∧
      considerPreviousEntry entry kind db = (true, kind, db)) ∨
    (entry.1.sequence ≤ db.sequence ∧ (kind = .value → ∃ k ∈ db.savedKey, k ≤ entry.1.userKey) ∧
      (entry.1.kind = .deletion ∧ considerPreviousEntry entry kind db =
        (false, .deletion, { db with savedKey := none, savedValue := none }) ∨
      entry.1.kind = .value ∧ considerPreviousEntry entry kind db =
        (false, .value,
          { db with savedKey := some entry.1.userKey, savedValue := some entry.2 }))) := by
  unfold considerPreviousEntry
  by_cases hseq : entry.1.sequence ≤ db.sequence
  · rw [if_pos hseq]
    by_cases hover : kind ≠ .deletion ∧ ∀ saved ∈ db.savedKey, entry.1.userKey < saved
    · rw [if_pos hover]
      refine .inr (.inl ⟨hseq, ?_, hover.2, rfl⟩)
      cases kind with
      | deletion => exact absurd rfl hover.1
      | value => rfl
    · rw [if_neg hover]
      refine .inr (.inr ⟨hseq, ?_, ?_⟩)
      · rintro rfl
        simpa only [ne_eq, reduceCtorEq, not_false_eq_true, true_and, not_forall, not_lt,
          exists_prop] using hover
      · cases hkind : entry.1.kind with
        | deletion => exact .inl ⟨rfl, by rw [if_pos rfl]⟩
        | value => exact .inr ⟨rfl, by rw [if_neg (by simp)]⟩
  · exact .inl ⟨not_le.mp hseq, by rw [if_neg hseq]⟩

variable {kind : ValueKind}

theorem prevRound_end (hnone : it.current db.internal = none) :
    prevRound it (kind, db) = .inr (.ok (), finishReverseScan kind db) := by
  rw [prevRound, hnone]

theorem prevRound_over {kind' : ValueKind} (hx : it.current db.internal = some x)
    (hconsider : considerPreviousEntry x kind db = (true, kind', db')) :
    prevRound it (kind, db) = .inr (.ok (), finishReverseScan kind' db') := by
  rw [prevRound, hx]
  simp only [hconsider, if_pos]

theorem prevRound_again {kind' : ValueKind} (hx : it.current db.internal = some x)
    (hconsider : considerPreviousEntry x kind db = (false, kind', db'))
    (hmove : it.move .prev db'.internal = (.ok (), internal)) :
    prevRound it (kind, db) = .inl (kind', { db' with internal }) := by
  rw [prevRound, hx]
  simp only [hconsider, Bool.false_eq_true, if_false, hmove]

theorem positionRound_end (hmove : it.move .prev db.internal = (.ok (), internal))
    (hnone : it.current internal = none) :
    positionRound it db = .inr (.ok false,
      { db with internal, valid := false, savedKey := none, savedValue := none }) := by
  rw [positionRound, hmove]
  simp only [hnone]

theorem positionRound_some {u : K} (hsaved : db.savedKey = some u)
    (hmove : it.move .prev db.internal = (.ok (), internal)) (hx : it.current internal = some x) :
    positionRound it db = if x.1.userKey < u then .inr (.ok true, { db with internal, forward := false })
      else .inl { db with internal } := by
  rw [positionRound, hmove]
  simp only [hx, hsaved, Option.mem_def, Option.some.injEq, forall_eq']

end Rounds

/-! ### Whole loops -/

section Loops

variable {it : Iterator σ (InternalKey K) V Error} {old all : List (InternalKey K × V)} {s : Nat}
  {Inv : σ → Prop} {Fwd Bwd : σ → (InternalKey K → Prop) → Prop} {view : List (K × V)}
  {ahead behind : σ → Nat} {bound : Nat} {T : K → Prop} {P : InternalKey K → Prop}
  {db : DbIterator σ K V}

variable {position : Option (K × V)}

/-- A move that succeeds and shows a position that it is to reach. -/
def Arrives (it : Iterator σ (InternalKey K) V Error) (old : List (InternalKey K × V)) (s : Nat)
    (Inv : σ → Prop) (Fwd Bwd : σ → (InternalKey K → Prop) → Prop) (Q : Option (K × V) → Prop)
    (result : Status × DbIterator σ K V) : Prop :=
  result.1 = .ok () ∧ ∃ position, Shows it old s Inv Fwd Bwd result.2 position ∧ Q position

theorem Shows.entry (h : Shows it old s Inv Fwd Bwd db position) : db.entry it = position := by
  unfold DbIterator.entry
  rw [h.valid]
  cases position with
  | none => rfl
  | some shown =>
    rcases h.place shown rfl with ⟨hforward, e, P, hcurrent, _, rfl, _⟩ |
      ⟨hforward, hkey, hvalue, _⟩
    · simp [hforward, hcurrent]
    · simp [hforward, hkey, hvalue]

theorem Shows.mem_view (h : Shows it old s Inv Fwd Bwd db position) (hview : Views view old s) :
    ∀ shown ∈ position, shown ∈ view := by
  intro shown hshown
  rcases h.place shown hshown with ⟨_, e, P, _, hanswer, rfl, _⟩ | ⟨_, _, _, he, _⟩
  · exact hview.mem.mpr ⟨e, hanswer, rfl, rfl⟩
  · exact hview.mem.mpr he

variable (hscans : Scans it old all Inv Fwd Bwd ahead behind bound)
  (hinvisible : ∀ e ∈ all, e ∉ old → s < e.1.sequence) (hview : Views view old s)

include hscans hinvisible

theorem sees_current {internal : σ} {x : InternalKey K × V} (hinv : Inv internal)
    (hx : it.current internal = some x) (hle : x.1.sequence ≤ s) : Sees old s x := by
  refine ⟨by_contra (fun hnot => ?_), hle⟩
  have := hinvisible x (hscans.mem hinv hx) hnot
  omega

include hview

/-- `FindNextUserEntry` between two rounds. -/
def ScansForward (old : List (InternalKey K × V)) (s : Nat) (T : K → Prop)
    (Fwd : σ → (InternalKey K → Prop) → Prop) (state : Bool × DbIterator σ K V) : Prop :=
  state.2.sequence = s ∧ state.2.forward = true ∧ ∃ P, Fwd state.2.internal P ∧
    Coming old s T (skippedKey state.1 state.2) P

theorem nextRound_keeps :
    Loop.Keeps (nextRound it) (fun state => ahead state.2.internal) (ScansForward old s T Fwd)
      (Arrives it old s Inv Fwd Bwd (Upto view T)) := by
  rintro ⟨skipping, db⟩ ⟨hsequence, hforward, P, hfwd, hcoming⟩
  dsimp only at hsequence hforward hfwd hcoming ⊢
  have hinv := hscans.inv_fwd hfwd
  cases hx : it.current db.internal with
  | none =>
    have hnone := hscans.fwd_none hfwd hx
    refine .inr ⟨_, nextRound_end hx, rfl, none, ⟨hsequence, hinv, rfl, by simp⟩, ?_⟩
    rintro ⟨u, v⟩ hmem hT
    obtain ⟨a, ha, rfl, rfl⟩ := hview.mem.mp hmem
    exact hnone a ha.sees.1 ((hcoming.answers ha hT).2 ha.sees rfl)
  | some x =>
    obtain ⟨hle, hPx⟩ := hscans.fwd_some hfwd hx
    obtain ⟨internal, hmove, hfwd', hless⟩ := hscans.fwd_next hfwd hx
    rcases considerNextEntry_cases x.1 skipping db with ⟨hseq, hconsider⟩ |
      ⟨hseq, hkind, hconsider⟩ | ⟨hseq, hkind, hskip, hconsider⟩ | ⟨hseq, _, ⟨k, hk, hxk⟩, hconsider⟩
    · exact .inl ⟨_, nextRound_again hx hconsider hmove,
        ⟨hsequence, hforward, _, hfwd', hcoming.invisible hle (hsequence ▸ hseq)⟩, hless⟩
    · have hsees := sees_current hscans hinvisible hinv hx (hsequence ▸ hseq)
      exact .inl ⟨_, nextRound_again hx hconsider hmove,
        ⟨hsequence, hforward, _, hfwd', hcoming.deletion hle hsees (hPx hsees.1) hkind⟩, hless⟩
    · have hsees := sees_current hscans hinvisible hinv hx (hsequence ▸ hseq)
      have hP := hPx hsees.1
      obtain ⟨hanswer, hT, hfirst⟩ := hcoming.found hle hsees hP hkind hskip
      refine .inr ⟨_, nextRound_found hx hconsider, rfl, some (x.1.userKey, x.2),
        ⟨hsequence, hinv, rfl, ?_⟩, hT, ?_⟩
      · intro shown hshown
        cases hshown
        exact .inl ⟨hforward, x, P, hx, hanswer, rfl, hfwd,
          fun hy => ⟨hle _ hy.1, hcoming.closed hsees hy hP⟩⟩
      · rintro ⟨u, v⟩ hmem hTu
        obtain ⟨a, ha, rfl, rfl⟩ := hview.mem.mp hmem
        exact hfirst ha hTu
    · have hsees := sees_current hscans hinvisible hinv hx (hsequence ▸ hseq)
      exact .inl ⟨_, nextRound_again hx hconsider hmove,
        ⟨hsequence, hforward, _, hfwd', hcoming.passed hsees (hPx hsees.1) hk hxk⟩, hless⟩

/-- What a backward scan has saved: the last value seen, or nothing after a deletion. -/
def Saved (db : DbIterator σ K V) (kind : ValueKind) : Option (InternalKey K × V) → Prop
  | none => kind = .deletion
  | some l => kind = .value ∧ db.savedKey = some l.1.userKey ∧ db.savedValue = some l.2

omit hscans hinvisible in
theorem finishReverseScan_ok (Fwd : σ → (InternalKey K → Prop) → Prop) {kind : ValueKind}
    {last : Option (InternalKey K × V)}
    (hsequence : db.sequence = s) (hforward : db.forward = false) (hinv : Inv db.internal)
    (hbwd : Bwd db.internal P) (hsaved : Saved db kind last) (hgoing : Going old s T last P)
    (hdown : ∀ {a b}, T b → a ≤ b → T a) (hvisible : ∀ x ∈ it.current db.internal, x.1.sequence ≤ s)
    (hnone : last = none → ∀ {y}, Sees old s y → ¬ P y.1)
    (hearlier : ∀ l ∈ last, ∀ {y}, Sees old s y → P y.1 → y.1.userKey < l.1.userKey) :
    ∃ position, Shows it old s Inv Fwd Bwd (finishReverseScan kind db) position ∧
      Downto view T position := by
  unfold finishReverseScan
  cases last with
  | none =>
    rw [show kind = .deletion from hsaved, if_pos rfl]
    refine ⟨none, ⟨hsequence, hinv, rfl, by simp⟩, ?_⟩
    rintro ⟨u, v⟩ hmem hT
    obtain ⟨a, ha, rfl, rfl⟩ := hview.mem.mp hmem
    exact hnone rfl ha.sees (hgoing.unsaved rfl ha hT)
  | some l =>
    obtain ⟨rfl, hkey, hvalue⟩ := hsaved
    rw [if_neg (by simp)]
    obtain ⟨hanswer, hT, hlast, hiff⟩ := hgoing.found hdown (hearlier l rfl)
    refine ⟨some (l.1.userKey, l.2), ⟨hsequence, hinv, rfl, ?_⟩, hT, ?_⟩
    · intro shown hshown
      cases hshown
      exact .inr ⟨hforward, hkey, hvalue, ⟨l, hanswer, rfl, rfl⟩, ⟨P, hbwd, hiff⟩, hvisible⟩
    · rintro ⟨u, v⟩ hmem hTu
      obtain ⟨a, ha, rfl, rfl⟩ := hview.mem.mp hmem
      exact hlast ha hTu

/-- `FindPrevUserEntry` between two rounds. -/
def ScansBackward (old : List (InternalKey K × V)) (s : Nat) (T : K → Prop)
    (Bwd : σ → (InternalKey K → Prop) → Prop) (state : ValueKind × DbIterator σ K V) : Prop :=
  state.2.sequence = s ∧ state.2.forward = false ∧ ∃ P last, Bwd state.2.internal P ∧
    Saved state.2 state.1 last ∧ Going old s T last P

theorem prevRound_keeps (hdown : ∀ {a b}, T b → a ≤ b → T a) :
    Loop.Keeps (prevRound it) (fun state => behind state.2.internal) (ScansBackward old s T Bwd)
      (Arrives it old s Inv Fwd Bwd (Downto view T)) := by
  rintro ⟨kind, db⟩ ⟨hsequence, hforward, P, last, hbwd, hsaved, hgoing⟩
  dsimp only at hsequence hforward hbwd hsaved ⊢
  have hinv := hscans.inv_bwd hbwd
  cases hx : it.current db.internal with
  | none =>
    have hnone := hscans.bwd_none hbwd hx
    have hvisible : ∀ x ∈ it.current db.internal, x.1.sequence ≤ s := by simp [hx]
    exact .inr ⟨_, prevRound_end hx, rfl, finishReverseScan_ok hview Fwd hsequence
      hforward hinv hbwd hsaved hgoing hdown hvisible (fun _ _ hy => hnone _ hy.1)
      (fun _ _ _ hy hP => absurd hP (hnone _ hy.1))⟩
  | some x =>
    obtain ⟨hle, hPx⟩ := hscans.bwd_some hbwd hx
    obtain ⟨internal, hmove, hbwd', hless⟩ := hscans.bwd_prev hbwd hx
    rcases considerPreviousEntry_cases x kind db with ⟨hseq, hconsider⟩ |
      ⟨hseq, rfl, hover, hconsider⟩ | ⟨hseq, hnot, hcases⟩
    · exact .inl ⟨_, prevRound_again hx hconsider hmove, ⟨hsequence, hforward, _, last, hbwd', hsaved,
        hgoing.invisible hle (hsequence ▸ hseq)⟩, hless⟩
    · cases last with
      | none => cases hsaved
      | some l =>
        have hbefore : x.1.userKey < l.1.userKey := hover _ hsaved.2.1
        have hvisible : ∀ x ∈ it.current db.internal, x.1.sequence ≤ s := by
          intro y hy
          rw [hx] at hy
          cases hy
          exact hsequence ▸ hseq
        exact .inr ⟨_, prevRound_over hx hconsider, rfl, finishReverseScan_ok hview Fwd
          hsequence hforward hinv hbwd hsaved hgoing hdown hvisible
          (fun h => by cases h)
          (fun _ hl _ hy hP => by
            cases hl
            exact lt_of_le_of_lt (InternalKey.userKey_mono (hle _ hy.1 hP)) hbefore)⟩
    · have hsees := sees_current hscans hinvisible hinv hx (hsequence ▸ hseq)
      have hP := hPx hsees.1
      have hsame : ∀ l ∈ last, l.1.userKey ≤ x.1.userKey := by
        rintro l rfl
        obtain ⟨k, hk, hle⟩ := hnot hsaved.1
        rw [hsaved.2.1] at hk
        cases hk
        exact hle
      rcases hcases with ⟨hkind, hconsider⟩ | ⟨hkind, hconsider⟩
      · exact .inl ⟨_, prevRound_again hx hconsider hmove, ⟨hsequence, hforward, _, none, hbwd', rfl,
          hgoing.deletion hle hsees hP hkind hsame⟩, hless⟩
      · exact .inl ⟨_, prevRound_again hx hconsider hmove, ⟨hsequence, hforward, _, some x, hbwd',
          ⟨rfl, rfl, rfl⟩, hgoing.value hle hsees hP hkind hsame⟩, hless⟩

/-- `PositionBeforeCurrentUser` between two rounds: the entries of earlier user keys are to come. -/
def Positions (it : Iterator σ (InternalKey K) V Error) (old : List (InternalKey K × V)) (s : Nat)
    (Bwd : σ → (InternalKey K → Prop) → Prop) (start : DbIterator σ K V) (u : K)
    (db : DbIterator σ K V) : Prop :=
  db = { start with internal := db.internal } ∧ ∃ internal P,
    it.move .prev db.internal = (.ok (), internal) ∧ Bwd internal P ∧
    ∀ {y}, Sees old s y → y.1.userKey < u → P y.1

/-- Nothing is before the entries of the user key, or the internal iterator stands before them. -/
def Positioned (old : List (InternalKey K × V)) (s : Nat) (Inv : σ → Prop)
    (Bwd : σ → (InternalKey K → Prop) → Prop) (start : DbIterator σ K V) (u : K)
    (result : Result Bool × DbIterator σ K V) : Prop :=
  (∃ internal, result = (.ok false,
      { start with internal, valid := false, savedKey := none, savedValue := none }) ∧
    Inv internal ∧ ∀ {y}, Sees old s y → ¬ y.1.userKey < u) ∨
  ∃ internal P, result = (.ok true, { start with internal, forward := false }) ∧
    Bwd internal P ∧ ∀ {y}, Sees old s y → (P y.1 ↔ y.1.userKey < u)

omit hinvisible hview in
theorem positionRound_keeps {u : K} {start : DbIterator σ K V} (hsaved : start.savedKey = some u) :
    Loop.Keeps (positionRound it) (fun db => behind (it.move .prev db.internal).2)
      (Positions it old s Bwd start u) (Positioned old s Inv Bwd start u) := by
  rintro db ⟨hstart, internal, P, hmove, hbwd, hearlier⟩
  have hsaved' : db.savedKey = some u := by rw [hstart, hsaved]
  cases hx : it.current internal with
  | none =>
    have hnone := hscans.bwd_none hbwd hx
    refine .inr ⟨_, positionRound_end hmove hx, .inl ⟨internal, ?_, hscans.inv_bwd hbwd, ?_⟩⟩
    · rw [hstart]
    · exact fun hy hlt => hnone _ hy.1 (hearlier hy hlt)
  | some x =>
    obtain ⟨hle, _⟩ := hscans.bwd_some hbwd hx
    rw [positionRound_some hsaved' hmove hx]
    by_cases hstop : x.1.userKey < u
    · rw [if_pos hstop]
      refine .inr ⟨_, rfl, .inr ⟨internal, P, by rw [hstart], hbwd, ?_⟩⟩
      refine fun hy => ⟨fun hP => ?_, hearlier hy⟩
      exact lt_of_le_of_lt (InternalKey.userKey_mono (hle _ hy.1 hP)) hstop
    · obtain ⟨internal', hmove', hbwd', hless⟩ := hscans.bwd_prev hbwd hx
      rw [if_neg hstop]
      refine .inl ⟨_, rfl, ⟨by rw [hstart], internal', _, hmove', hbwd', ?_⟩, ?_⟩
      · refine fun hy hlt => ⟨hearlier hy hlt, InternalKey.lt_iff.mpr (.inl ?_)⟩
        exact lt_of_lt_of_le hlt (not_lt.mp hstop)
      · simpa only [hmove, hmove'] using hless

/-! ### Moves -/

variable {rounds : Nat} (hrounds : bound < rounds)

include hrounds

/-- `FindNextUserEntry` ends, and finds the first answer that the scan looks for. -/
theorem findNextUserEntry_ok {skipping : Bool} (hsequence : db.sequence = s)
    (hforward : db.forward = true) (hfwd : Fwd db.internal P)
    (hcoming : Coming old s T (skippedKey skipping db) P) :
    Loop.Ends (nextRound it) (skipping, db) (findNextUserEntry it rounds skipping db) ∧
      Arrives it old s Inv Fwd Bwd (Upto view T) (findNextUserEntry it rounds skipping db) :=
  (nextRound_keeps hscans hinvisible hview).run _ ⟨hsequence, hforward, P, hfwd, hcoming⟩
    (lt_of_le_of_lt (hscans.ahead_le (hscans.inv_fwd hfwd)) hrounds)

/-- `FindPrevUserEntry` ends, and finds the last answer that the scan looks for. -/
theorem findPrevUserEntry_ok (hsequence : db.sequence = s) (hforward : db.forward = false)
    (hbwd : Bwd db.internal P) (hdown : ∀ {a b}, T b → a ≤ b → T a)
    (hP : ∀ {y}, Sees old s y → (P y.1 ↔ T y.1.userKey)) :
    Loop.Ends (prevRound it) (.deletion, db) (findPrevUserEntry it rounds db) ∧
      Arrives it old s Inv Fwd Bwd (Downto view T) (findPrevUserEntry it rounds db) :=
  (prevRound_keeps hscans hinvisible hview hdown).run _
    ⟨hsequence, hforward, P, none, hbwd, rfl, going_of_iff hdown hP⟩
    (lt_of_le_of_lt (hscans.behind_le (hscans.inv_bwd hbwd)) hrounds)

omit hinvisible hview in
theorem positionBeforeCurrentUser_ok (db : DbIterator σ K V) {x : InternalKey K × V}
    (hx : it.current db.internal = some x) (hfwd : Fwd db.internal P) :
    Loop.Ends (positionRound it) { db with savedKey := some x.1.userKey }
        (positionBeforeCurrentUser it rounds db) ∧
      Positioned old s Inv Bwd { db with savedKey := some x.1.userKey } x.1.userKey
        (positionBeforeCurrentUser it rounds db) := by
  obtain ⟨internal, hmove, hbwd⟩ := hscans.fwd_prev hfwd hx
  have hless := lt_of_le_of_lt (hscans.behind_le (hscans.inv_bwd hbwd)) hrounds
  unfold positionBeforeCurrentUser
  rw [hx]
  refine (positionRound_keeps hscans rfl).run _ ⟨rfl, internal, _, hmove, hbwd, ?_⟩ ?_
  · exact fun _ hlt => InternalKey.lt_iff.mpr (.inl hlt)
  · simpa only [hmove] using hless

theorem seekForward_ok {m : Move (InternalKey K)} {internal : σ} (hsequence : db.sequence = s)
    (hmove : it.move m db.internal = (.ok (), internal)) (hfwd : Fwd internal P)
    (hup : ∀ {a b}, T a → a ≤ b → T b) (hP : ∀ {y}, Sees old s y → (P y.1 ↔ T y.1.userKey)) :
    Arrives it old s Inv Fwd Bwd (Upto view T) (seekForward it rounds m db) := by
  unfold seekForward
  rw [hmove]
  exact And.right (findNextUserEntry_ok hscans hinvisible hview hrounds hsequence rfl hfwd
    (coming_of_iff hup hP))

theorem next_ok {shown : K × V} (h : Shows it old s Inv Fwd Bwd db (some shown)) :
    Arrives it old s Inv Fwd Bwd (Upto view (shown.1 < ·)) (next it rounds db) := by
  have hfind : ∀ {db : DbIterator σ K V} {P : InternalKey K → Prop}, db.sequence = s →
      db.forward = true → db.savedKey = some shown.1 → Fwd db.internal P →
      Coming old s (shown.1 < ·) (some shown.1) P →
      Arrives it old s Inv Fwd Bwd (Upto view (shown.1 < ·)) (findNextUserEntry it rounds true db) := by
    intro db P hsequence hforward hsaved hfwd hcoming
    refine (findNextUserEntry_ok hscans hinvisible hview hrounds hsequence hforward hfwd ?_).2
    rw [skippedKey, if_pos rfl, hsaved]
    exact hcoming
  unfold next advanceForNext
  rcases h.place shown rfl with ⟨hforward, e, P, hx, _, rfl, hfwd, hP⟩ |
    ⟨hforward, hkey, _, _, ⟨P, hbwd, hP⟩, hvisible⟩
  · obtain ⟨internal, hmove, hfwd', _⟩ := hscans.fwd_next hfwd hx
    simp only [hforward, if_true, hx, hmove, Option.map_some]
    refine hfind h.sequence rfl rfl hfwd' (coming_after ?_ ?_ ?_)
    · exact fun _ hPy => InternalKey.userKey_mono hPy.2.le
    · intro y hy hlt
      have hey : e.1 < y.1 := InternalKey.lt_iff.mpr (.inl hlt)
      exact ⟨(hP hy).mpr hey.le, hey⟩
    · intro y z hy hz hPy hyz
      have hez := lt_of_lt_of_le hPy.2 hyz
      exact ⟨(hP hz).mpr hez.le, hez⟩
  · -- Going backward everything from the shown user key on is behind the internal iterator.
    have hclosed : ∀ {Q : InternalKey K → Prop},
        (∀ {y}, Sees old s y → (Q y.1 ↔ shown.1 ≤ y.1.userKey)) →
        Coming old s (shown.1 < ·) (some shown.1) Q := by
      intro Q hQ
      refine coming_after (fun hy hPy => (hQ hy).mp hPy) (fun hy hlt => (hQ hy).mpr hlt.le) ?_
      exact fun hy hz hPy hyz => (hQ hz).mpr (((hQ hy).mp hPy).trans (InternalKey.userKey_mono hyz))
    cases hx : it.current db.internal with
    | none =>
      obtain ⟨internal, hmove, hfwd⟩ := hscans.seekToFirst h.inv
      simp only [hforward, Bool.false_eq_true, if_false, Option.isSome_none, hmove]
      refine hfind h.sequence rfl hkey hfwd (hclosed (fun hy => ⟨fun _ => ?_, fun _ => trivial⟩))
      exact not_lt.mp (fun hlt => hscans.bwd_none hbwd hx _ hy.1 ((hP hy).mpr hlt))
    | some x =>
      have hsees := sees_current hscans hinvisible h.inv hx (hvisible x hx)
      obtain ⟨hle, hPx⟩ := hscans.bwd_some hbwd hx
      have hxu : x.1.userKey < shown.1 := (hP hsees).mp (hPx hsees.1)
      obtain ⟨internal, hmove, hfwd⟩ := hscans.bwd_next hbwd hx
      simp only [hforward, Bool.false_eq_true, if_false, Option.isSome_some, if_true, hmove]
      refine hfind h.sequence rfl hkey hfwd (hclosed (fun hy => ⟨fun hlt => ?_, fun hge => ?_⟩))
      · refine not_lt.mp (fun hyu => ?_)
        exact absurd (hle _ hy.1 ((hP hy).mpr hyu)) hlt.not_ge
      · exact InternalKey.lt_iff.mpr (.inl (lt_of_lt_of_le hxu hge))

theorem prev_ok {shown : K × V} (h : Shows it old s Inv Fwd Bwd db (some shown)) :
    Arrives it old s Inv Fwd Bwd (Downto view (· < shown.1)) (prev it rounds db) := by
  have hdown : ∀ {a b : K}, b < shown.1 → a ≤ b → a < shown.1 := fun hb hab => lt_of_le_of_lt hab hb
  unfold prev
  rcases h.place shown rfl with ⟨hforward, e, P, hx, hanswer, rfl, hfwd, hP⟩ |
    ⟨hforward, _, _, _, ⟨P, hbwd, hP⟩, _⟩
  · simp only [hforward, if_true]
    obtain ⟨_, hposition⟩ := positionBeforeCurrentUser_ok hscans hrounds (s := s)
      { db with forward := true, valid := false } hx hfwd
    rcases hposition with ⟨internal', hloop, hinv, hnone⟩ | ⟨internal', Q, hloop, hbwd', hQ⟩
    · rw [hloop]
      refine ⟨rfl, none, ⟨h.sequence, hinv, rfl, by simp⟩, ?_⟩
      rintro ⟨u, v⟩ hmem hlt
      obtain ⟨a, ha, rfl, rfl⟩ := hview.mem.mp hmem
      exact hnone ha.sees hlt
    · rw [hloop]
      exact And.right
        (findPrevUserEntry_ok hscans hinvisible hview hrounds h.sequence rfl hbwd' hdown hQ)
  · simp only [hforward, Bool.false_eq_true, if_false]
    exact And.right (findPrevUserEntry_ok hscans hinvisible hview hrounds (T := (· < shown.1))
      h.sequence rfl hbwd hdown hP)

theorem move_ok {m : Move K} (h : Shows it old s Inv Fwd Bwd db position)
    (hallowed : Allowed m position) :
    Arrives it old s Inv Fwd Bwd (Reached view m position) ((dbIterator it rounds).move m db) := by
  cases m with
  | seekToFirst =>
    obtain ⟨internal, hmove, hfwd⟩ := hscans.seekToFirst h.inv
    exact seekForward_ok hscans hinvisible hview hrounds (T := fun _ => True) h.sequence hmove hfwd
      (fun _ _ => trivial) (fun _ => Iff.rfl)
  | seekToLast =>
    obtain ⟨internal, hmove, hbwd⟩ := hscans.seekToLast h.inv
    show Arrives it old s Inv Fwd Bwd _ (seekToLast it rounds db)
    unfold seekToLast
    rw [hmove]
    exact And.right (findPrevUserEntry_ok hscans hinvisible hview hrounds (T := fun _ => True)
      h.sequence rfl hbwd (fun _ _ => trivial) (fun _ => Iff.rfl))
  | seek userKey =>
    obtain ⟨internal, hmove, hfwd⟩ := hscans.seek (.lookupKey userKey s) h.inv
    rw [← h.sequence] at hmove
    refine seekForward_ok hscans hinvisible hview hrounds (T := (userKey ≤ ·)) h.sequence hmove hfwd
      le_trans (fun hy => ?_)
    rw [InternalKey.lookupKey_le_iff, le_iff_lt_or_eq (a := userKey)]
    simp [hy.2]
  | next =>
    cases position with
    | none => exact hallowed.elim
    | some shown => exact next_ok hscans hinvisible hview hrounds h
  | prev =>
    cases position with
    | none => exact hallowed.elim
    | some shown => exact prev_ok hscans hinvisible hview hrounds h

/-- The database iterator simulates a cursor over the view of the old entries. -/
theorem dbIterator_simulates :
    Simulates (dbIterator it rounds) view (Shows it old s Inv Fwd Bwd) where
  current := fun h => h.entry
  move := by
    intro db position m position' h hstep
    obtain ⟨hmove, found, hshows, hreached⟩ :=
      move_ok hscans hinvisible hview hrounds h (allowed_of_step hstep)
    obtain ⟨hreached', hmem'⟩ := reached_step (hview.sorted.imp le_of_lt) hstep
    have heq := hreached.unique hview.sorted hreached' (hshows.mem_view hview) hmem'
    exact ⟨_, Prod.ext hmove rfl, heq ▸ hshows⟩

end Loops

/-! ## Over a cursor -/

/-- Over an internal iterator that is a cursor over its entries, the database iterator is a cursor over
what a reader at its sequence sees. -/
theorem dbIterator_behaves (it : Iterator σ (InternalKey K) V Error)
    (entries : List (InternalKey K × V)) (hsorted : entries.Pairwise (fun a b => a.1 < b.1))
    (internal : σ) (hinternal : Behaves it entries internal) (sequence rounds : Nat)
    (hrounds : entries.length < rounds) :
    Behaves (dbIterator it rounds) (userView entries sequence) { internal, sequence } := by
  obtain ⟨R, hsimulates, hstart⟩ := hinternal.simulates
  have hscans := (hsimulates.tracks (hsorted.imp le_of_lt)).scans
  have hdb := dbIterator_simulates hscans (s := sequence) (fun e he hnot => absurd he hnot)
    (userView_views hsorted sequence) hrounds
  exact hdb.behaves ⟨rfl, ⟨none, hstart, by simp⟩, rfl, by simp⟩

/-- A deleted user key, and one with an entry that the reader does not see. -/
theorem dbIterator_behaves_overwritten :
    Behaves (dbIterator (listIterator (InternalKey Nat) String Error) 5)
      (userView [(⟨1, 5, .deletion⟩, ""), (⟨1, 3, .value⟩, "a"), (⟨2, 9, .value⟩, "new"),
        (⟨2, 4, .value⟩, "b")] 6)
      { internal := ([(⟨1, 5, .deletion⟩, ""), (⟨1, 3, .value⟩, "a"), (⟨2, 9, .value⟩, "new"),
          (⟨2, 4, .value⟩, "b")], none),
        sequence := 6 } :=
  dbIterator_behaves _ _ (by decide) _ (listIterator_behaves _) 6 5 (by decide)

end DbIterator

end ModernLevelDB
