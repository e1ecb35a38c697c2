import ModernLevelDB.Lib.Cursor
import ModernLevelDB.Lib.Partition
import ModernLevelDB.Metadata.VersionEdit

/-! # Iteration over a level (`engine/iterators.cc`)

`LevelIterator` goes through the tables of a sorted level with one open table at a time. Opening a
table and every move in it may fail; the iterator then closes the table, so that nothing of a failed
move is left but the number of the file. -/
namespace ModernLevelDB
set_option autoImplicit false

open Cursor

variable {ω σ κ ν : Type*}

/-- The table cache and the iterators of its tables. The outcome of a call may depend on anything
that `ω` records. -/
structure TableSource (ω σ κ ν : Type*) where
  find : FileMetadata κ → ω → Result σ × ω
  current : σ → Option (κ × ν)
  move : Move κ → σ → ω → Status × σ × ω

/-- The iterator of the open table, and the index of its file. The index stays behind when the table
is closed. -/
structure LevelIterator (σ : Type*) where
  entries : Option σ := none
  file : Nat := 0

namespace LevelIterator

/-- The end of a table at which it is entered. -/
inductive Edge where
  | first
  | last
deriving DecidableEq, Repr

def Edge.move : Edge → Move κ
  | .first => .seekToFirst
  | .last => .seekToLast

def emptyTable (file : FileMetadata κ) : Error :=
  .corruption ("table file " ++ toString file.number ++ " has no entries")

def valid (level : LevelIterator σ) : Bool := level.entries.isSome

def close (s : LevelIterator σ × ω) : LevelIterator σ × ω := ({ s.1 with entries := none }, s.2)

def fail (error : Error) (s : LevelIterator σ × ω) : Status × LevelIterator σ × ω :=
  (.error error, close s)

def andThen (op next : LevelIterator σ × ω → Status × LevelIterator σ × ω)
    (s : LevelIterator σ × ω) : Status × LevelIterator σ × ω :=
  match op s with
  | (.error error, s) => (.error error, s)
  | (.ok (), s) => next s

section Code

variable (source : TableSource ω σ κ ν) (files : List (FileMetadata κ))

def entriesValid (level : LevelIterator σ) : Bool := (level.entries.bind source.current).isSome

/-- A move of the open table's iterator. Its failure closes the table. -/
def moveEntries (m : Move κ) (s : LevelIterator σ × ω) : Status × LevelIterator σ × ω :=
  match s.1.entries with
  | none => (.ok (), s)
  | some table =>
      match source.move m table s.2 with
      | (.error error, _, world) => fail error (s.1, world)
      | (.ok (), table, world) => (.ok (), { s.1 with entries := some table }, world)

/-- `Open`. No caller passes an index past the last file. -/
def openTable (index : Nat) (s : LevelIterator σ × ω) : Status × LevelIterator σ × ω :=
  if s.1.entries.isSome ∧ s.1.file = index then (.ok (), s)
  else
    match files[index]? with
    | none => (.ok (), close s)
    | some file =>
        match source.find file s.2 with
        | (.error error, world) => (.error error, close (s.1, world))
        | (.ok table, world) => (.ok (), { entries := some table, file := index }, world)

def requireEntry (index : Nat) (s : LevelIterator σ × ω) : Status × LevelIterator σ × ω :=
  if entriesValid source s.1 then (.ok (), s)
  else
    match files[index]? with
    | none => (.ok (), close s)
    | some file => fail (emptyTable file) s

def enter (index : Nat) (edge : Edge) :
    LevelIterator σ × ω → Status × LevelIterator σ × ω :=
  andThen (openTable source files index)
    (andThen (moveEntries source edge.move) (requireEntry source files index))

/-- To the first entry of the file after the one at `index`, or past the end. -/
def enterAfter (index : Nat) (s : LevelIterator σ × ω) : Status × LevelIterator σ × ω :=
  if index + 1 = files.length then (.ok (), close s)
  else enter source files (index + 1) .first s

def seekInOpenFile (target : κ) (index : Nat) :
    LevelIterator σ × ω → Status × LevelIterator σ × ω :=
  andThen (moveEntries source (.seek target)) (fun s =>
    if entriesValid source s.1 then (.ok (), s)
    else andThen (moveEntries source .seekToFirst)
      (andThen (requireEntry source files index) (enterAfter source files index)) s)

def seekToFirst (s : LevelIterator σ × ω) : Status × LevelIterator σ × ω :=
  if files.isEmpty then (.ok (), close s) else enter source files 0 .first s

def seekToLast (s : LevelIterator σ × ω) : Status × LevelIterator σ × ω :=
  if files.isEmpty then (.ok (), close s) else enter source files (files.length - 1) .last s

def seek [LinearOrder κ] (target : κ) (s : LevelIterator σ × ω) :
    Status × LevelIterator σ × ω :=
  -- The partition point: the first file whose largest key is not before the target.
  let index := (files.takeWhile (fun file => file.largest < target)).length
  if index = files.length then (.ok (), close s)
  else andThen (openTable source files index) (seekInOpenFile source files target index) s

def next : LevelIterator σ × ω → Status × LevelIterator σ × ω :=
  andThen (moveEntries source .next) (fun s =>
    if entriesValid source s.1 then (.ok (), s) else enterAfter source files s.1.file s)

def prev : LevelIterator σ × ω → Status × LevelIterator σ × ω :=
  andThen (moveEntries source .prev) (fun s =>
    if entriesValid source s.1 then (.ok (), s)
    else if s.1.file = 0 then (.ok (), close s)
    else enter source files (s.1.file - 1) .last s)

end Code
end LevelIterator

def levelIterator [LinearOrder κ] (source : TableSource ω σ κ ν) (files : List (FileMetadata κ)) :
    Iterator (LevelIterator σ × ω) κ ν Error where
  current s := s.1.entries.bind source.current
  move
    | .seekToFirst => LevelIterator.seekToFirst source files
    | .seekToLast => LevelIterator.seekToLast source files
    | .seek target => LevelIterator.seek source files target
    | .next => LevelIterator.next source files
    | .prev => LevelIterator.prev source files

/-! ## Tables that may fail -/

variable [LinearOrder κ]

/-- The tables have the given entries, and their iterators are cursors over them as long as no call
fails. `failures` lists the errors that calls have returned. -/
structure TableSource.Serves (source : TableSource ω σ κ ν) (tables : Nat → List (κ × ν))
    (failures : ω → List Error) (R : Nat → σ → Option (κ × ν) → Prop) : Prop where
  find_ok : ∀ {file w table w'}, source.find file w = (.ok table, w') →
    R file.number table none ∧ failures w' = failures w
  find_error : ∀ {file w e w'}, source.find file w = (.error e, w') →
    failures w' = failures w ++ [e]
  current : ∀ {n table position}, R n table position → source.current table = position
  move_ok : ∀ {n table position m position' w table' w'}, R n table position →
    step (tables n) m position = some position' → source.move m table w = (.ok (), table', w') →
    R n table' position' ∧ failures w' = failures w
  move_error : ∀ {n table position m position' w e table' w'}, R n table position →
    step (tables n) m position = some position' → source.move m table w = (.error e, table', w') →
    failures w' = failures w ++ [e]

/-- A sorted level of disjoint files. A recorded largest key is at or after the last key of its table
and before the first key of the next one; a table may also have no entries at all. -/
structure LevelFiles (files : List (FileMetadata κ)) (tables : Nat → List (κ × ν)) : Prop where
  ordered : ∀ f ∈ files, f.smallest ≤ f.largest
  disjoint : files.Pairwise (fun f g => f.largest < g.smallest)
  sorted : ∀ f ∈ files, (tables f.number).Pairwise (fun a b => a.1 < b.1)
  upper : ∀ f ∈ files, ∀ x ∈ tables f.number, x.1 ≤ f.largest
  next : files.IsChain (fun f g => ∀ x ∈ tables g.number, f.largest < x.1)

def levelEntries (files : List (FileMetadata κ)) (tables : Nat → List (κ × ν)) : List (κ × ν) :=
  files.flatMap (fun file => tables file.number)

/-- The files that a move from this entry may open. -/
def Enters (files : List (FileMetadata κ)) (tables : Nat → List (κ × ν)) :
    Move κ → Option (κ × ν) → FileMetadata κ → Prop
  | .seekToFirst, _, f => files.head? = some f
  | .seekToLast, _, f => files.getLast? = some f
  | .seek target, _, f =>
      ∃ g rest, files.dropWhile (fun file => file.largest < target) = g :: rest ∧
        (f = g ∨ rest.head? = some f ∧ tables g.number ≠ [] ∧ ∀ x ∈ tables g.number, x.1 < target)
  | .next, some here, f =>
      ∃ l g r, files = l ++ g :: f :: r ∧ (tables g.number).getLast? = some here
  | .prev, some here, f =>
      ∃ l g r, files = l ++ f :: g :: r ∧ (tables g.number).head? = some here
  | .next, none, _ => False
  | .prev, none, _ => False

/-! ## The concatenation in parts -/

section Parts

variable {files l r : List (FileMetadata κ)} {f : FileMetadata κ} {tables : Nat → List (κ × ν)}

omit [LinearOrder κ] in
theorem levelEntries_split (hsplit : files = l ++ f :: r) : levelEntries files tables =
    levelEntries l tables ++ (tables f.number ++ levelEntries r tables) := by
  rw [hsplit, levelEntries, List.flatMap_append, List.flatMap_cons]
  rfl

omit [LinearOrder κ] in
theorem head?_levelEntries_cons (hne : tables f.number ≠ []) :
    (levelEntries (f :: r) tables).head? = (tables f.number).head? := by
  rw [levelEntries, List.flatMap_cons]
  exact List.head?_append_of_ne_nil _ hne

omit [LinearOrder κ] in
theorem getLast?_levelEntries_concat (hne : tables f.number ≠ []) :
    (levelEntries (l ++ [f]) tables).getLast? = (tables f.number).getLast? := by
  rw [levelEntries, List.flatMap_append, List.flatMap_singleton]
  exact List.getLast?_append_of_ne_nil _ hne

namespace LevelFiles

theorem pairwise (h : LevelFiles files tables) :
    files.Pairwise (fun f g => f.largest < g.largest ∧ ∀ x ∈ tables g.number, f.largest < x.1) := by
  have : IsTrans (FileMetadata κ)
      (fun f g => f.largest < g.largest ∧ ∀ x ∈ tables g.number, f.largest < x.1) :=
    ⟨fun _ _ _ hfg hgh => ⟨hfg.1.trans hgh.1, fun x hx => hfg.1.trans (hgh.2 x hx)⟩⟩
  have hlargest : files.Pairwise (fun f g => f.largest < g.largest) :=
    h.disjoint.imp_of_mem (fun _ hg hlt => hlt.trans_le (h.ordered _ hg))
  have hlargest := List.isChain_iff_getElem.mp (List.isChain_iff_pairwise.mpr hlargest)
  have hnext := List.isChain_iff_getElem.mp h.next
  exact List.isChain_iff_pairwise.mp (List.isChain_iff_getElem.mpr
    (fun i hi => ⟨hlargest i hi, hnext i hi⟩))

theorem after (h : LevelFiles (l ++ f :: r) tables) :
    ∀ y ∈ levelEntries r tables, f.largest < y.1 := by
  intro y hy
  obtain ⟨g, hg, hy⟩ := List.mem_flatMap.mp hy
  exact (List.rel_of_pairwise_cons (List.pairwise_append.mp h.pairwise).2.1 hg).2 y hy

theorem before (h : LevelFiles (l ++ f :: r) tables) {x : κ × ν} (hx : x ∈ tables f.number) :
    ∀ y ∈ levelEntries l tables, y.1 < x.1 := by
  intro y hy
  obtain ⟨g, hg, hy⟩ := List.mem_flatMap.mp hy
  have hlt := (List.pairwise_append.mp h.pairwise).2.2 g hg f (by simp)
  exact (h.upper g (by simp [hg]) y hy).trans_lt (hlt.2 x hx)

variable {here : κ × ν}

theorem step_next (h : LevelFiles (l ++ f :: r) tables) (hhere : here ∈ tables f.number) :
    step (levelEntries (l ++ f :: r) tables) .next (some here) =
      some (((tables f.number).find? (fun entry => here.1 < entry.1)).or
        (levelEntries r tables).head?) := by
  show some _ = some _
  rw [levelEntries_split rfl, find?_parts]
  · exact fun y hy => by simpa using (h.before hhere y hy).le
  · exact fun y hy => by simpa using (h.upper f (by simp) here hhere).trans_lt (h.after y hy)

theorem step_prev (h : LevelFiles (l ++ f :: r) tables) (hhere : here ∈ tables f.number) :
    step (levelEntries (l ++ f :: r) tables) .prev (some here) =
      some (((tables f.number).reverse.find? (fun entry => entry.1 < here.1)).or
        (levelEntries l tables).getLast?) := by
  show some _ = some _
  rw [levelEntries_split rfl, reverse_find?_parts]
  · exact fun y hy => by simpa using h.before hhere y hy
  · exact fun y hy => by simpa using ((h.upper f (by simp) here hhere).trans_lt (h.after y hy)).le

theorem step_seek (h : LevelFiles (l ++ f :: r) tables) {target : κ}
    (hbefore : ∀ g ∈ l, g.largest < target) (htarget : target ≤ f.largest)
    (position : Option (κ × ν)) :
    step (levelEntries (l ++ f :: r) tables) (.seek target) position =
      some (((tables f.number).find? (fun entry => target ≤ entry.1)).or
        (levelEntries r tables).head?) := by
  show some _ = some _
  rw [levelEntries_split rfl, find?_parts]
  · intro y hy
    obtain ⟨g, hg, hy⟩ := List.mem_flatMap.mp hy
    simpa using (h.upper g (by simp [hg]) y hy).trans_lt (hbefore g hg)
  · exact fun y hy => by simpa using htarget.trans (h.after y hy).le

theorem unique (h : LevelFiles files tables) {l' r' : List (FileMetadata κ)} {f' : FileMetadata κ}
    (hsplit : files = l ++ f :: r) (hsplit' : files = l' ++ f' :: r') {x : κ × ν}
    (hx : x ∈ tables f.number) (hx' : x ∈ tables f'.number) : l = l' ∧ f = f' ∧ r = r' := by
  have hmem : ∀ {a b : List (FileMetadata κ)} {g g' : FileMetadata κ} {c d : List (FileMetadata κ)},
      files = a ++ g :: c → files = a ++ (g :: b) ++ g' :: d → x ∈ tables g.number →
      x ∉ tables g'.number := by
    intro a b g g' c d _ hlong hg hg'
    rw [hlong] at h
    have hin : x ∈ levelEntries (a ++ g :: b) tables :=
      List.mem_flatMap.mpr ⟨g, by simp, hg⟩
    exact lt_irrefl _ (h.before hg' x hin)
  rcases List.append_eq_append_iff.mp (hsplit.symm.trans hsplit') with
    ⟨a, hl, hcons⟩ | ⟨a, hl, hcons⟩
  · cases a with
    | nil =>
      cases hcons
      exact ⟨by simpa using hl.symm, rfl, rfl⟩
    | cons g a =>
      obtain ⟨rfl, _⟩ := List.cons.inj hcons
      exact absurd hx' (hmem hsplit (hl ▸ hsplit') hx)
  · cases a with
    | nil =>
      cases hcons
      exact ⟨by simpa using hl, rfl, rfl⟩
    | cons g a =>
      obtain ⟨rfl, _⟩ := List.cons.inj hcons
      exact absurd hx (hmem hsplit' (hl ▸ hsplit) hx')

theorem getLast?_of_find? (h : LevelFiles files tables) (hf : f ∈ files)
    (hhere : here ∈ tables f.number) :
    (tables f.number).find? (fun entry => here.1 < entry.1) = none ↔
      (tables f.number).getLast? = some here := by
  have hsorted := h.sorted f hf
  constructor
  · intro hnone
    obtain ⟨a, z, ha⟩ := List.eq_nil_or_concat (tables f.number) |>.resolve_left
      (List.ne_nil_of_mem hhere)
    rw [List.concat_eq_append] at ha
    rw [ha] at hhere hnone hsorted ⊢
    rcases List.mem_append.mp hhere with hin | hlast
    · have hlt := (List.pairwise_append.mp hsorted).2.2 here hin z (by simp)
      have hnot := List.find?_eq_none.mp hnone z (by simp)
      simp [hlt] at hnot
    · rw [List.mem_singleton.mp hlast, List.getLast?_concat]
  · intro hlast
    obtain ⟨a, ha⟩ := List.getLast?_eq_some_iff.mp hlast
    rw [List.find?_eq_none]
    intro y hy
    rw [ha] at hy hsorted
    rcases List.mem_append.mp hy with hin | hlast
    · simpa using ((List.pairwise_append.mp hsorted).2.2 y hin here (by simp)).le
    · rw [List.mem_singleton.mp hlast]
      simp

theorem head?_of_find? (h : LevelFiles files tables) (hf : f ∈ files)
    (hhere : here ∈ tables f.number) :
    (tables f.number).reverse.find? (fun entry => entry.1 < here.1) = none ↔
      (tables f.number).head? = some here := by
  have hsorted := h.sorted f hf
  cases htable : tables f.number with
  | nil =>
    rw [htable] at hhere
    cases hhere
  | cons first rest =>
    rw [htable] at hhere hsorted
    have hfirst := (List.pairwise_cons.mp hsorted).1
    rw [List.find?_eq_none, List.head?_cons, Option.some.injEq]
    constructor
    · intro hnone
      rcases List.mem_cons.mp hhere with heq | hrest
      · exact heq.symm
      · have hnot := hnone first (by simp)
        simp [hfirst here hrest] at hnot
    · rintro rfl y hy
      rcases List.mem_cons.mp (List.mem_reverse.mp hy) with rfl | hrest
      · simp
      · simpa using (hfirst y hrest).le

end LevelFiles
end Parts

/-! ## Calls that may fail -/

namespace LevelIterator

/-- A call ends without an error and with `P`, or it closes the table and returns an error: that of
the last call on the tables, or one that `Reports` describes. -/
def Ends (failures : ω → List Error) (before : List Error) (Reports : Error → Prop)
    (P : LevelIterator σ → Prop) (out : Status × LevelIterator σ × ω) : Prop :=
  match out.1 with
  | .ok _ => failures out.2.2 = before ∧ P out.2.1
  | .error e => out.2.1.entries = none ∧
      (failures out.2.2 = before ++ [e] ∨ failures out.2.2 = before ∧ Reports e)

section Rules

variable {failures : ω → List Error} {past : List Error} {Reports : Error → Prop}
  {P Q : LevelIterator σ → Prop}

theorem Ends.mono {out : Status × LevelIterator σ × ω} (h : Ends failures past Reports P out)
    (hPQ : ∀ level, P level → Q level) : Ends failures past Reports Q out := by
  obtain ⟨status, level, world⟩ := out
  cases status with
  | ok _ => exact ⟨h.1, hPQ _ h.2⟩
  | error e => exact h

theorem Ends.andThen {op next : LevelIterator σ × ω → Status × LevelIterator σ × ω}
    {s : LevelIterator σ × ω} (h : Ends failures past Reports P (op s))
    (hnext : ∀ t, failures t.2 = past → P t.1 → Ends failures past Reports Q (next t)) :
    Ends failures past Reports Q (LevelIterator.andThen op next s) := by
  unfold LevelIterator.andThen
  rcases hop : op s with ⟨status, t⟩
  rw [hop] at h
  cases status with
  | ok _ => exact hnext t h.1 h.2
  | error e => exact h

end Rules

/-- The open table is that of the file `f` behind `l`, and its iterator stands at `position`. -/
structure Standing (files : List (FileMetadata κ)) (R : Nat → σ → Option (κ × ν) → Prop)
    (l : List (FileMetadata κ)) (f : FileMetadata κ) (r : List (FileMetadata κ))
    (position : Option (κ × ν)) (level : LevelIterator σ) : Prop where
  split : files = l ++ f :: r
  file : level.file = l.length
  entries : ∃ table, level.entries = some table ∧ R f.number table position

/-- The open table, if any, is that of the file at the recorded index. -/
def Placed (files : List (FileMetadata κ)) (R : Nat → σ → Option (κ × ν) → Prop)
    (level : LevelIterator σ) : Prop :=
  level.entries = none ∨ ∃ l f r position, Standing files R l f r position level

/-- The iterator is closed, or it stands at an entry of the open table. -/
def Shows (files : List (FileMetadata κ)) (tables : Nat → List (κ × ν))
    (R : Nat → σ → Option (κ × ν) → Prop) (level : LevelIterator σ) : Option (κ × ν) → Prop
  | none => level.entries = none
  | some x => ∃ l f r, x ∈ tables f.number ∧ Standing files R l f r (some x) level

section Calls

variable {source : TableSource ω σ κ ν} {files l r : List (FileMetadata κ)} {f : FileMetadata κ}
  {tables : Nat → List (κ × ν)} {failures : ω → List Error}
  {R : Nat → σ → Option (κ × ν) → Prop} {Reports : Error → Prop}
  {position position' : Option (κ × ν)} {s : LevelIterator σ × ω} {past : List Error}

variable {level : LevelIterator σ}

omit [LinearOrder κ] in
theorem Standing.placed (h : Standing files R l f r position level) :
    Placed files R level := .inr ⟨l, f, r, position, h⟩

omit [LinearOrder κ] in
theorem Shows.placed (h : Shows files tables R level position) : Placed files R level := by
  cases position with
  | none => exact .inl h
  | some x =>
    obtain ⟨l, f, r, _, hstanding⟩ := h
    exact hstanding.placed

omit [LinearOrder κ] in
theorem Standing.unique (h : Standing files R l f r position level) {l' r' : List (FileMetadata κ)}
    {f' : FileMetadata κ} (hsplit : files = l' ++ f' :: r') (hfile : level.file = l'.length) :
    Standing files R l' f' r' position level := by
  obtain ⟨rfl, hcons⟩ := List.append_inj (h.split.symm.trans hsplit) (h.file.symm.trans hfile)
  cases hcons
  exact h

def Edge.entry : Edge → List (κ × ν) → Option (κ × ν)
  | .first, entries => entries.head?
  | .last, entries => entries.getLast?

theorem Edge.step (edge : Edge) (entries : List (κ × ν)) (position : Option (κ × ν)) :
    step entries edge.move position = some (edge.entry entries) := by
  cases edge <;> rfl

omit [LinearOrder κ] in
theorem Edge.entry_eq_none {edge : Edge} {entries : List (κ × ν)} :
    edge.entry entries = none ↔ entries = [] := by
  cases edge
  · exact List.head?_eq_none_iff
  · exact List.getLast?_eq_none_iff

theorem Edge.mem_of_entry {edge : Edge} {entries : List (κ × ν)} {x : κ × ν}
    (h : edge.entry entries = some x) : x ∈ entries :=
  mem_of_step ((edge.step entries none).trans (congrArg some h))

section

variable (hserves : source.Serves tables failures R)

include hserves

theorem Serves.entriesValid
    (h : Standing files R l f r position level) : entriesValid source level = position.isSome := by
  obtain ⟨table, hentries, hR⟩ := h.entries
  rw [LevelIterator.entriesValid, hentries, Option.bind_some, hserves.current hR]

section

variable (hpast : failures s.2 = past)

include hpast

theorem moveEntries_ends (h : Standing files R l f r position s.1) {m : Move κ}
    (hstep : step (tables f.number) m position = some position') :
    Ends failures past Reports (Standing files R l f r position') (moveEntries source m s) := by
  obtain ⟨table, hentries, hR⟩ := h.entries
  unfold moveEntries
  rw [hentries]
  dsimp only
  rcases hmove : source.move m table s.2 with ⟨_ | _, table', world⟩
  · exact ⟨rfl, .inl (hpast ▸ hserves.move_error hR hstep hmove)⟩
  · obtain ⟨hR', hfailures⟩ := hserves.move_ok hR hstep hmove
    exact ⟨hfailures.trans hpast, h.split, h.file, table', rfl, hR'⟩

theorem openTable_ends (hplaced : Placed files R s.1) (hsplit : files = l ++ f :: r) :
    Ends failures past Reports (fun level => ∃ position, Standing files R l f r position level)
      (openTable source files l.length s) := by
  unfold openTable
  split
  · next hopen =>
    rcases hplaced with hnone | ⟨l', f', r', position, hstanding⟩
    · simp [hnone] at hopen
    · exact ⟨hpast, position, hstanding.unique hsplit hopen.2⟩
  · have hget : files[l.length]? = some f := by simp [hsplit]
    rw [hget]
    dsimp only
    rcases hfind : source.find f s.2 with ⟨_ | table, world⟩
    · exact ⟨rfl, .inl (hpast ▸ hserves.find_error hfind)⟩
    · obtain ⟨hR, hfailures⟩ := hserves.find_ok hfind
      exact ⟨hfailures.trans hpast, none, hsplit, rfl, table, rfl, hR⟩

theorem requireEntry_ends
    (h : Standing files R l f r position s.1) (hreports : position = none → Reports (emptyTable f)) :
    Ends failures past Reports
      (fun level => ∃ x, position = some x ∧ Standing files R l f r (some x) level)
      (requireEntry source files l.length s) := by
  unfold requireEntry
  rw [Serves.entriesValid hserves h]
  cases position with
  | none =>
    have hget : files[l.length]? = some f := by simp [h.split]
    rw [hget]
    exact ⟨rfl, .inr ⟨hpast, hreports rfl⟩⟩
  | some x => exact ⟨hpast, x, rfl, h⟩

theorem enter_ends (hplaced : Placed files R s.1) (hsplit : files = l ++ f :: r) (edge : Edge)
    (hreports : tables f.number = [] → Reports (emptyTable f)) :
    Ends failures past Reports
      (fun level => Shows files tables R level (edge.entry (tables f.number)) ∧
        tables f.number ≠ [])
      (enter source files l.length edge s) := by
  refine (openTable_ends hserves hpast hplaced hsplit).andThen ?_
  rintro t ht ⟨position, hstanding⟩
  refine (moveEntries_ends hserves ht hstanding (edge.step _ position)).andThen ?_
  intro t ht hstanding
  refine (requireEntry_ends hserves ht hstanding
    (fun h => hreports (Edge.entry_eq_none.mp h))).mono ?_
  rintro level ⟨x, hx, hlevel⟩
  rw [hx]
  refine ⟨⟨l, f, r, Edge.mem_of_entry hx, hlevel⟩, fun hempty => ?_⟩
  rw [Edge.entry_eq_none.mpr hempty] at hx
  cases hx

theorem enterAfter_ends (hplaced : Placed files R s.1) (hsplit : files = l ++ f :: r)
    (hreports : ∀ g, r.head? = some g → tables g.number = [] → Reports (emptyTable g)) :
    Ends failures past Reports
      (fun level => Shows files tables R level (levelEntries r tables).head? ∧
        ∀ g, r.head? = some g → tables g.number ≠ [])
      (enterAfter source files l.length s) := by
  unfold enterAfter
  cases r with
  | nil =>
    rw [if_pos (by simp [hsplit])]
    exact ⟨hpast, rfl, fun g hg => by cases hg⟩
  | cons g r =>
    rw [if_neg (by simp [hsplit])]
    have hsplit' : files = (l ++ [f]) ++ g :: r := by simp [hsplit]
    have henter := enter_ends hserves hpast hplaced hsplit' .first (hreports g rfl)
    rw [List.length_append, List.length_singleton] at henter
    refine henter.mono ?_
    rintro level ⟨hshows, hne⟩
    refine ⟨?_, fun g' hg' => Option.some.inj hg' ▸ hne⟩
    rw [head?_levelEntries_cons hne]
    exact hshows

end

end

end Calls

/-! ## Moves -/

section Moves

variable {source : TableSource ω σ κ ν} {files : List (FileMetadata κ)}
  {tables : Nat → List (κ × ν)} {failures : ω → List Error}
  {R : Nat → σ → Option (κ × ν) → Prop} {s : LevelIterator σ × ω} {position position' : Option (κ × ν)}

/-- The move of the cursor over the concatenation, unless a call fails or the move enters a table
without entries. -/
def Moves (files : List (FileMetadata κ)) (tables : Nat → List (κ × ν)) (failures : ω → List Error)
    (R : Nat → σ → Option (κ × ν) → Prop) (m : Move κ) (position position' : Option (κ × ν))
    (past : List Error) (out : Status × LevelIterator σ × ω) : Prop :=
  Ends failures past
    (fun e => ∃ f, Enters files tables m position f ∧ tables f.number = [] ∧ e = emptyTable f)
    (fun level => Shows files tables R level position' ∧
      ∀ f, Enters files tables m position f → tables f.number ≠ []) out

section

variable (hserves : source.Serves tables failures R)

include hserves

theorem seekToFirst_moves (hplaced : Placed files R s.1) (position : Option (κ × ν)) :
    Moves files tables failures R .seekToFirst position (levelEntries files tables).head?
      (failures s.2) (seekToFirst source files s) := by
  unfold seekToFirst
  cases files with
  | nil => exact ⟨rfl, rfl, fun f hf => by cases hf⟩
  | cons f r =>
    have henters : ∀ g, Enters (f :: r) tables .seekToFirst position g → g = f :=
      fun g hg => (Option.some.inj hg).symm
    refine (enter_ends hserves rfl hplaced (List.nil_append _).symm .first
      (fun hempty => ⟨f, rfl, hempty, rfl⟩)).mono ?_
    rintro level ⟨hshows, hne⟩
    refine ⟨?_, fun g hg => henters g hg ▸ hne⟩
    rw [head?_levelEntries_cons hne]
    exact hshows

theorem seekToLast_moves (hplaced : Placed files R s.1) (position : Option (κ × ν)) :
    Moves files tables failures R .seekToLast position (levelEntries files tables).getLast?
      (failures s.2) (seekToLast source files s) := by
  unfold seekToLast
  rcases List.eq_nil_or_concat files with rfl | ⟨l, f, rfl⟩
  · exact ⟨rfl, rfl, fun f hf => by cases hf⟩
  · rw [List.concat_eq_append] at hplaced ⊢
    have henters : ∀ g, Enters (l ++ [f]) tables .seekToLast position g → g = f := by
      intro g hg
      have hg : (l ++ [f]).getLast? = some g := hg
      rw [List.getLast?_concat] at hg
      exact (Option.some.inj hg).symm
    rw [if_neg (by simp), List.length_append, List.length_singleton, Nat.add_sub_cancel]
    refine (enter_ends hserves rfl hplaced rfl .last
      (fun hempty => ⟨f, List.getLast?_concat, hempty, rfl⟩)).mono ?_
    rintro level ⟨hshows, hne⟩
    refine ⟨?_, fun g hg => henters g hg ▸ hne⟩
    rw [getLast?_levelEntries_concat hne]
    exact hshows

theorem seekInOpenFile_ends {past : List Error} (hpast : failures s.2 = past)
    {l r : List (FileMetadata κ)} {f : FileMetadata κ}
    (h : Standing files R l f r position s.1) {target : κ} {Reports : Error → Prop}
    (hempty : tables f.number = [] → Reports (emptyTable f)) (hreports : tables f.number ≠ [] →
      (tables f.number).find? (fun entry => target ≤ entry.1) = none →
      ∀ g, r.head? = some g → tables g.number = [] → Reports (emptyTable g)) :
    Ends failures past Reports
      (fun level => Shows files tables R level
          (((tables f.number).find? (fun entry => target ≤ entry.1)).or (levelEntries r tables).head?) ∧
        tables f.number ≠ [] ∧
        ((tables f.number).find? (fun entry => target ≤ entry.1) = none →
          ∀ g, r.head? = some g → tables g.number ≠ []))
      (seekInOpenFile source files target l.length s) := by
  refine (moveEntries_ends hserves hpast h (m := .seek target) rfl).andThen ?_
  intro t ht hstanding
  rw [Serves.entriesValid hserves hstanding]
  cases hfound : (tables f.number).find? (fun entry => target ≤ entry.1) with
  | some x =>
    rw [hfound] at hstanding
    have hx := List.mem_of_find?_eq_some hfound
    exact ⟨ht, ⟨l, f, r, hx, hstanding⟩, List.ne_nil_of_mem hx, fun hnone => by cases hnone⟩
  | none =>
    refine (moveEntries_ends hserves ht hstanding (m := .seekToFirst) rfl).andThen ?_
    intro t ht hstanding
    refine (requireEntry_ends hserves ht hstanding
      (fun hnone => hempty (List.head?_eq_none_iff.mp hnone))).andThen ?_
    rintro t ht ⟨x, hx, hstanding⟩
    have hne : tables f.number ≠ [] := List.ne_nil_of_mem (List.mem_of_mem_head? hx)
    refine (enterAfter_ends hserves ht hstanding.placed hstanding.split (hreports hne hfound)).mono ?_
    rintro level ⟨hshows, hnext⟩
    exact ⟨hshows, hne, fun _ => hnext⟩

variable (hfiles : LevelFiles files tables)

include hfiles

theorem seek_moves (hplaced : Placed files R s.1) (target : κ)
    (hstep : step (levelEntries files tables) (.seek target) position = some position') :
    Moves files tables failures R (.seek target) position position' (failures s.2)
      (seek source files target s) := by
  have hsplit := List.takeWhile_append_dropWhile (p := fun file => decide (file.largest < target))
    (l := files)
  have hbefore : ∀ g ∈ files.takeWhile (fun file => file.largest < target), g.largest < target :=
    fun g hg => by simpa using List.mem_takeWhile_imp hg
  unfold seek
  generalize hl : files.takeWhile (fun file => file.largest < target) = l at hsplit hbefore
  cases hrest : files.dropWhile (fun file => file.largest < target) with
  | nil =>
    rw [hrest, List.append_nil] at hsplit
    subst hsplit
    rw [if_pos rfl]
    refine ⟨rfl, ?_, ?_⟩
    · have hnone : (levelEntries l tables).find? (fun entry => target ≤ entry.1) = none := by
        rw [List.find?_eq_none]
        intro y hy
        obtain ⟨g, hg, hy⟩ := List.mem_flatMap.mp hy
        simpa using (hfiles.upper g hg y hy).trans_lt (hbefore g hg)
      have hnone : position' = none := (Option.some.inj hstep).symm.trans hnone
      rw [hnone]
      rfl
    · rintro f ⟨g, rest, hcons, _⟩
      rw [hrest] at hcons
      cases hcons
  | cons f r =>
    have htarget : target ≤ f.largest := by
      have hhead := List.head?_dropWhile_not (fun file => decide (file.largest < target)) files
      rw [hrest] at hhead
      simpa using hhead
    rw [hrest] at hsplit
    have hfind : ∀ g rest, files.dropWhile (fun file => file.largest < target) = g :: rest →
        g = f ∧ rest = r := by
      intro g rest hg
      rw [hrest] at hg
      cases hg
      exact ⟨rfl, rfl⟩
    have hstep' := (hsplit ▸ hfiles).step_seek hbefore htarget position
    rw [hsplit, hstep] at hstep'
    rw [if_neg (by simp [← hsplit]), Option.some.inj hstep']
    refine (openTable_ends hserves rfl hplaced hsplit.symm).andThen ?_
    rintro t ht ⟨p, hstanding⟩
    refine (seekInOpenFile_ends hserves ht hstanding
      (fun hempty => ⟨f, ⟨f, r, hrest, .inl rfl⟩, hempty, rfl⟩) ?_).mono ?_
    · intro hne hnone g hg hempty
      refine ⟨g, ⟨f, r, hrest, .inr ⟨hg, hne, fun x hx => ?_⟩⟩, hempty, rfl⟩
      simpa using List.find?_eq_none.mp hnone x hx
    · rintro level ⟨hshows, hne, hnext⟩
      refine ⟨hshows, ?_⟩
      rintro g ⟨f', rest, hcons, henters⟩
      obtain ⟨rfl, rfl⟩ := hfind f' rest hcons
      rcases henters with rfl | ⟨hhead, _, hlt⟩
      · exact hne
      · refine hnext (List.find?_eq_none.mpr (fun x hx => ?_)) g hhead
        simpa using hlt x hx

theorem next_moves {here : κ × ν} (hshows : Shows files tables R s.1 (some here))
    (hstep : step (levelEntries files tables) .next (some here) = some position') :
    Moves files tables failures R .next (some here) position' (failures s.2)
      (next source files s) := by
  obtain ⟨l, f, r, hhere, hstanding⟩ := hshows
  have hsplit := hstanding.split
  have hf : f ∈ files := by simp [hsplit]
  have hstep' := (hsplit ▸ hfiles).step_next hhere
  rw [← hsplit, hstep] at hstep'
  rw [Option.some.inj hstep']
  have hlast := hfiles.getLast?_of_find? hf hhere
  -- Only the last entry of a table makes the move enter the next one.
  have henters : ∀ g, Enters files tables .next (some here) g →
      (tables f.number).getLast? = some here ∧ r.head? = some g := by
    rintro g ⟨l', f', r', hsplit', hlast'⟩
    obtain ⟨_, rfl, rfl⟩ := hfiles.unique hsplit hsplit' hhere (List.mem_of_getLast? hlast')
    exact ⟨hlast', rfl⟩
  refine (moveEntries_ends hserves rfl hstanding (m := .next) rfl).andThen ?_
  intro t ht hstanding
  rw [Serves.entriesValid hserves hstanding]
  cases hfound : (tables f.number).find? (fun entry => here.1 < entry.1) with
  | some x =>
    rw [hfound] at hstanding
    refine ⟨ht, ⟨l, f, r, List.mem_of_find?_eq_some hfound, hstanding⟩, fun g hg => ?_⟩
    rw [hlast.mpr (henters g hg).1] at hfound
    cases hfound
  | none =>
    rw [hstanding.file]
    refine (enterAfter_ends hserves ht hstanding.placed hsplit ?_).mono ?_
    · intro g hg hempty
      refine ⟨g, ?_, hempty, rfl⟩
      obtain ⟨r', rfl⟩ := List.head?_eq_some_iff.mp hg
      exact ⟨l, f, r', hsplit, hlast.mp hfound⟩
    · rintro level ⟨hshows, hnext⟩
      exact ⟨hshows, fun g hg => hnext g (henters g hg).2⟩

theorem prev_moves {here : κ × ν} (hshows : Shows files tables R s.1 (some here))
    (hstep : step (levelEntries files tables) .prev (some here) = some position') :
    Moves files tables failures R .prev (some here) position' (failures s.2)
      (prev source files s) := by
  obtain ⟨l, f, r, hhere, hstanding⟩ := hshows
  have hsplit := hstanding.split
  have hf : f ∈ files := by simp [hsplit]
  have hstep' := (hsplit ▸ hfiles).step_prev hhere
  rw [← hsplit, hstep] at hstep'
  rw [Option.some.inj hstep']
  have hfirst := hfiles.head?_of_find? hf hhere
  have henters : ∀ g, Enters files tables .prev (some here) g →
      (tables f.number).head? = some here ∧ l.getLast? = some g := by
    rintro g ⟨l', f', r', hsplit', hfirst'⟩
    obtain ⟨rfl, rfl, _⟩ := hfiles.unique hsplit (hsplit'.trans (List.append_cons l' g (f' :: r')))
      hhere (List.mem_of_mem_head? hfirst')
    exact ⟨hfirst', List.getLast?_concat⟩
  refine (moveEntries_ends hserves rfl hstanding (m := .prev) rfl).andThen ?_
  intro t ht hstanding
  rw [Serves.entriesValid hserves hstanding]
  cases hfound : (tables f.number).reverse.find? (fun entry => entry.1 < here.1) with
  | some x =>
    rw [hfound] at hstanding
    have hx := List.mem_reverse.mp (List.mem_of_find?_eq_some hfound)
    refine ⟨ht, ⟨l, f, r, hx, hstanding⟩, fun g hg => ?_⟩
    rw [hfirst.mpr (henters g hg).1] at hfound
    cases hfound
  | none =>
    rw [hstanding.file]
    rcases List.eq_nil_or_concat l with rfl | ⟨l', g, rfl⟩
    · refine ⟨ht, rfl, fun g hg => ?_⟩
      have hnil := (henters g hg).2
      cases hnil
    · rw [List.concat_eq_append] at henters hsplit ⊢
      have hsplit' : files = l' ++ g :: f :: r := by simp [hsplit]
      rw [if_neg (by simp), if_neg (by simp), List.length_append, List.length_singleton,
        Nat.add_sub_cancel]
      refine (enter_ends hserves ht hstanding.placed hsplit' .last (fun hempty =>
        ⟨g, ⟨l', f, r, hsplit', hfirst.mp hfound⟩, hempty, rfl⟩)).mono ?_
      rintro level ⟨hshows, hne⟩
      refine ⟨?_, fun g' hg' => ?_⟩
      · rw [Option.none_or, getLast?_levelEntries_concat hne]
        exact hshows
      · have heq := (henters g' hg').2
        rw [List.getLast?_concat] at heq
        exact Option.some.inj heq ▸ hne

theorem levelIterator_moves {m : Move κ} (hshows : Shows files tables R s.1 position)
    (hstep : step (levelEntries files tables) m position = some position') :
    Moves files tables failures R m position position' (failures s.2)
      ((levelIterator source files).move m s) := by
  cases m with
  | seekToFirst =>
    cases hstep
    exact seekToFirst_moves hserves hshows.placed position
  | seekToLast =>
    cases hstep
    exact seekToLast_moves hserves hshows.placed position
  | seek target => exact seek_moves hserves hfiles hshows.placed target hstep
  | next =>
    cases position with
    | none => cases hstep
    | some here => exact next_moves hserves hfiles hshows hstep
  | prev =>
    cases position with
    | none => cases hstep
    | some here => exact prev_moves hserves hfiles hshows hstep

end

omit [LinearOrder κ] in
theorem Shows.valid {level : LevelIterator σ} (h : Shows files tables R level position) :
    level.valid = position.isSome := by
  cases position with
  | none =>
    have h : level.entries = none := h
    rw [LevelIterator.valid, h]
    rfl
  | some x =>
    obtain ⟨l, f, r, _, hstanding⟩ := h
    obtain ⟨table, hentries, _⟩ := hstanding.entries
    rw [LevelIterator.valid, hentries]
    rfl

theorem Shows.current (hserves : source.Serves tables failures R)
    (h : Shows files tables R s.1 position) :
    (levelIterator source files).current s = position := by
  show s.1.entries.bind source.current = position
  cases position with
  | none =>
    have h : s.1.entries = none := h
    rw [h]
    rfl
  | some x =>
    obtain ⟨l, f, r, _, hstanding⟩ := h
    obtain ⟨table, hentries, hR⟩ := hstanding.entries
    rw [hentries, Option.bind_some, hserves.current hR]

theorem shows_move (hfiles : LevelFiles files tables) (hserves : source.Serves tables failures R)
    {m : Move κ} (hshows : Shows files tables R s.1 position) (hallowed : Allowed m position) :
    ∃ position', Shows files tables R ((levelIterator source files).move m s).2.1 position' := by
  obtain ⟨position', hstep⟩ := step_isSome (levelEntries files tables) hallowed
  have hmoves := levelIterator_moves hserves hfiles hshows hstep
  generalize (levelIterator source files).move m s = out at hmoves ⊢
  obtain ⟨_ | _, t⟩ := out
  · exact ⟨none, hmoves.1⟩
  · exact ⟨position', hmoves.2.1⟩

end Moves
end LevelIterator

section Runs

open LevelIterator

variable {source : TableSource ω σ κ ν} {files : List (FileMetadata κ)}
  {tables : Nat → List (κ × ν)} {failures : ω → List Error}
  {R : Nat → σ → Option (κ × ν) → Prop}

theorem shows_after (hfiles : LevelFiles files tables) (hserves : source.Serves tables failures R)
    (world : ω) {moves : List (Move κ)}
    (hallowed : (levelIterator source files).AllowedRun moves ({}, world)) :
    ∃ position, Shows files tables R ((levelIterator source files).after moves ({}, world)).1
      position := by
  have hstart : Shows files tables R ({} : LevelIterator σ) none := rfl
  refine Iterator.after_induction (P := fun s => ∃ position, Shows files tables R s.1 position)
    ?_ moves ⟨none, hstart⟩ hallowed
  rintro s m ⟨position, hshows⟩ hm
  rw [hshows.current hserves] at hm
  exact shows_move hfiles hserves hshows hm

/-- After any moves, failed ones included, the next move is that of a cursor over the concatenation
of the tables. A move that fails returns the error of the call that failed, or reports a table without
entries that it had to enter, and leaves the iterator invalid; a move that succeeds has entered no
such table. -/
theorem levelIterator_cursor (hfiles : LevelFiles files tables)
    (hserves : source.Serves tables failures R) (world : ω) (moves : List (Move κ)) (m : Move κ)
    (hallowed : (levelIterator source files).AllowedRun (moves ++ [m]) ({}, world)) :
    let it := levelIterator source files
    let s := it.after moves ({}, world)
    let out := it.move m s
    match out.1 with
    | .ok _ =>
        step (levelEntries files tables) m (it.current s) = some (it.current out.2) ∧
        out.2.1.valid = (it.current out.2).isSome ∧
        failures out.2.2 = failures s.2 ∧
        ∀ f, Enters files tables m (it.current s) f → tables f.number ≠ []
    | .error e =>
        out.2.1.valid = false ∧ it.current out.2 = none ∧
        (failures out.2.2 = failures s.2 ++ [e] ∨
          failures out.2.2 = failures s.2 ∧ ∃ f, Enters files tables m (it.current s) f ∧
            tables f.number = [] ∧ e = emptyTable f) := by
  obtain ⟨hbefore, hm, _⟩ := (Iterator.allowedRun_append moves [m]).mp hallowed
  obtain ⟨position, hshows⟩ := shows_after hfiles hserves world hbefore
  have hcurrent := hshows.current hserves
  obtain ⟨position', hstep⟩ := step_isSome (levelEntries files tables) (hcurrent ▸ hm)
  have hmoves := levelIterator_moves hserves hfiles hshows hstep
  dsimp only
  rw [hcurrent]
  generalize hout : (levelIterator source files).move m
    ((levelIterator source files).after moves ({}, world)) = out at hmoves ⊢
  obtain ⟨_ | _, t⟩ := out
  · have hclosed : Shows files tables R t.1 none := hmoves.1
    exact ⟨hclosed.valid, hclosed.current hserves, hmoves.2⟩
  · obtain ⟨hfailures, hshows', henters⟩ := hmoves
    dsimp only
    rw [hshows'.current hserves]
    exact ⟨hstep, hshows'.valid, hfailures, henters⟩

end Runs

/-! ## Tables with planned failures -/

/-- The failures of the coming calls, and the errors that calls have returned. -/
structure FailurePlan where
  coming : List (Option Error) := []
  returned : List Error := []

/-- The outcome of the next call. Calls succeed when the plan is at its end. -/
def FailurePlan.call {α : Type*} (plan : FailurePlan) (result : α) : Result α × FailurePlan :=
  match plan.coming with
  | some e :: coming => (.error e, ⟨coming, plan.returned ++ [e]⟩)
  | none :: coming => (.ok result, ⟨coming, plan.returned⟩)
  | [] => (.ok result, plan)

theorem FailurePlan.call_ok {α : Type*} {plan plan' : FailurePlan} {result value : α}
    (h : plan.call result = (.ok value, plan')) : value = result ∧ plan'.returned = plan.returned := by
  unfold call at h
  split at h <;> cases h <;> exact ⟨rfl, rfl⟩

theorem FailurePlan.call_error {α : Type*} {plan plan' : FailurePlan} {result : α} {e : Error}
    (h : plan.call result = (.error e, plan')) : plan'.returned = plan.returned ++ [e] := by
  unfold call at h
  split at h <;> cases h
  rfl

/-- Tables in memory whose calls fail as planned. -/
def plannedSource (tables : Nat → List (κ × ν)) :
    TableSource FailurePlan (Nat × Option (κ × ν)) κ ν where
  find file plan := plan.call (file.number, none)
  current := Prod.snd
  move m table plan :=
    match plan.call (table.1, (step (tables table.1) m table.2).getD table.2) with
    | (.error e, plan) => (.error e, table, plan)
    | (.ok table, plan) => (.ok (), table, plan)

theorem plannedSource_serves (tables : Nat → List (κ × ν)) :
    (plannedSource tables).Serves tables FailurePlan.returned
      (fun n table position => table = (n, position)) where
  find_ok h := FailurePlan.call_ok h
  find_error h := FailurePlan.call_error h
  current h := congrArg Prod.snd h
  move_ok := by
    rintro n table position m position' w table' w' rfl hstep hmove
    simp only [plannedSource, hstep, Option.getD_some] at hmove
    split at hmove
    · cases hmove
    · next hcall =>
      cases hmove
      exact FailurePlan.call_ok hcall
  move_error := by
    rintro n table position m position' w e table' w' rfl hstep hmove
    simp only [plannedSource, hstep, Option.getD_some] at hmove
    split at hmove
    · next hcall =>
      cases hmove
      exact FailurePlan.call_error hcall
    · cases hmove

def twoTables : Nat → List (Nat × Nat)
  | 1 => [(1, 10), (3, 30)]
  | 2 => [(6, 60)]
  | _ => []

def twoFiles : List (FileMetadata Nat) :=
  [{ number := 1, fileSize := 1, smallest := 1, largest := 4 },
    { number := 2, fileSize := 1, smallest := 5, largest := 6 }]

/-- The second table cannot be opened at first; a seek that passes the first table's last entry then
opens it. -/
theorem levelIterator_cursor_reopened :
    let it := levelIterator (plannedSource twoTables) twoFiles
    let plan : FailurePlan := ⟨[none, none, none, some (.io "open")], []⟩
    let s := it.after [.seek 2, .next] ({}, plan)
    it.current s = none ∧ s.2.returned = [.io "open"] ∧
      step (levelEntries twoFiles twoTables) (.seek 4) none =
        some (it.current (it.move (.seek 4) s).2) := by
  have hfiles : LevelFiles twoFiles twoTables :=
    ⟨by decide, by decide, by decide, by decide, by decide⟩
  have h := levelIterator_cursor hfiles (plannedSource_serves twoTables)
    ⟨[none, none, none, some (.io "open")], []⟩ [.seek 2, .next] (.seek 4)
    ⟨trivial, trivial, trivial, trivial⟩
  exact ⟨rfl, rfl, h.1⟩

end ModernLevelDB
