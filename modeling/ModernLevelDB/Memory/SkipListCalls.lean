import ModernLevelDB.Memory.SkipListRuns

/-! # Calls of one thread

A skip list that one thread uses: an insertion runs to its end before a search begins, and a search
has its answer before anything else happens. The number of entries bounds the accesses of both. -/
namespace ModernLevelDB.SkipList
set_option autoImplicit false

variable {ε α : Type*} [DecidableEq ε] [LinearOrder α] {key : ε → α} {shared : Shared ε}
  {levels : Nat → List ε}

/-! ## Insertions -/

section Code

variable (key : ε → α)

def Writer.run (height : Nat) : Nat → Shared ε × Writer ε → Shared ε × Writer ε
  | 0, s => s
  | n + 1, s => Writer.run height n (s.2.step key s.1 height)

/-- `Insert` into a list of `size` entries; `height` is what `RandomHeight` returns. -/
def insert (shared : Shared ε) (size height : Nat) (entry : ε) : Shared ε :=
  (Writer.run key height (4 * maxHeight + size + 2)
    (shared, .search entry { level := shared.height - 1 } (fun _ => none))).1

def Reader.run (shared : Shared ε) : Nat → Reader ε α → Option (Option ε)
  | 0, _ => none
  | n + 1, reader =>
      match reader.step key shared with
      | .inl reader => Reader.run shared n reader
      | .inr (_, node) => some node

def findGreaterOrEqual (shared : Shared ε) (size : Nat) (cut : Cut α) : Option ε :=
  (Reader.run key shared (maxHeight + size) (.start shared (.seek cut))).getD none

end Code

def Writer.pending : Writer ε → List ε
  | .idle => []
  | .search entry _ _ => [entry]
  | .searched entry _ => [entry]
  | .prepared entry _ _ _ => [entry]
  | .link entry _ _ level => if level = 0 then [entry] else []
  | .loaded entry _ _ level _ => if level = 0 then [entry] else []
  | .stored entry _ _ level => if level = 0 then [entry] else []

def Writer.rank (key : ε → α) (l : List ε) : Writer ε → Nat
  | .idle => 0
  | .search _ find _ => find.level + ahead key l find.node + 1 + (3 * maxHeight + 2)
  | .searched _ _ => 3 * maxHeight + 2
  | .prepared _ height _ _ => 3 * height + 1
  | .link _ height _ level => 3 * (height - level)
  | .loaded _ height _ level _ => 3 * (height - level) - 1
  | .stored _ height _ level => 3 * (height - level) - 2

theorem Writer.pending_step (writer : Writer ε) (key : ε → α) (shared : Shared ε) (height : Nat) :
    writer.pending = writer.links ++ (writer.step key shared height).2.pending := by
  cases writer with
  | idle => rfl
  | search entry find predecessors =>
    rw [Writer.step]
    split <;> rfl
  | searched entry predecessors => rfl
  | prepared entry newHeight currentHeight predecessors => rfl
  | link entry newHeight predecessors level => rfl
  | loaded entry newHeight predecessors level next => rfl
  | stored entry newHeight predecessors level =>
    cases level with
    | zero =>
      rw [Writer.step]
      dsimp only
      split <;> rfl
    | succ level =>
      rw [Writer.step]
      dsimp only
      split <;> rfl

theorem Writer.Holds.rank_step {writer : Writer ε} (hwriter : writer.Holds key shared levels)
    (h : Levels key shared levels) {height : Nat} (hheight : 1 ≤ height ∧ height ≤ maxHeight)
    {l : List ε} (hl : l.Perm (writer.links ++ levels 0)) (hbusy : writer ≠ .idle) :
    (writer.step key shared height).2.rank key l < writer.rank key (levels 0) := by
  cases writer with
  | idle => exact absurd rfl hbusy
  | search entry find predecessors =>
    obtain ⟨_, hfind, _, _⟩ := hwriter
    have hround := hfind.round h
    rw [Writer.step]
    cases hout : find.round key (.lt (key entry)) (shared.next find.node find.level) with
    | goOn after =>
      rw [hout] at hround
      obtain ⟨_, hsame, b, hb, hnode, hlt⟩ := hround
      have hahead := ahead_lt hb hlt
      have hperm := ahead_perm key (some b) hl
      simp only [Writer.links, List.length_nil] at hperm
      simp only [Writer.rank, hnode, hsame]
      omega
    | descend after =>
      rw [hout] at hround
      obtain ⟨_, hdown, hnode, _⟩ := hround
      have hperm := ahead_perm key find.node hl
      simp only [Writer.links, List.length_nil] at hperm
      simp only [Writer.rank, hnode, hdown]
      omega
    | found next =>
      simp only [Writer.rank]
      omega
  | searched entry predecessors =>
    simp only [Writer.step, Writer.rank]
    omega
  | prepared entry newHeight currentHeight predecessors =>
    simp only [Writer.step, Writer.rank]
    omega
  | link entry newHeight predecessors level =>
    have hinside := hwriter.inside
    simp only [Writer.step, Writer.rank]
    omega
  | loaded entry newHeight predecessors level next =>
    have hinside := hwriter.1.inside
    simp only [Writer.step, Writer.rank]
    omega
  | stored entry newHeight predecessors level =>
    have hinside := hwriter.1.inside
    rw [Writer.step]
    dsimp only
    split
    · simp only [Writer.rank]
      omega
    · simp only [Writer.rank]
      omega

/-- The writer alone comes to its end, with its entry linked. -/
theorem Writer.Holds.run {height : Nat} (hheight : 1 ≤ height ∧ height ≤ maxHeight) (n : Nat) :
    ∀ {shared : Shared ε} {writer : Writer ε} {levels : Nat → List ε},
      writer.Holds key shared levels → Levels key shared levels →
      writer.rank key (levels 0) ≤ n →
      ∃ after, Levels key (Writer.run key height n (shared, writer)).1 after ∧
        (after 0).Perm (writer.pending ++ levels 0) := by
  induction n with
  | zero =>
    intro shared writer levels hwriter h hrank
    have hidle : writer = .idle := by
      by_contra hbusy
      have hlt := hwriter.rank_step h hheight (List.Perm.refl _) hbusy
      omega
    exact ⟨levels, h, by rw [hidle]; exact List.Perm.refl _⟩
  | succ n ih =>
    intro shared writer levels hwriter h hrank
    obtain ⟨middle, hstep⟩ := hwriter.step h hheight
    have hrank' : (writer.step key shared height).2.rank key (middle 0) ≤ n := by
      by_cases hbusy : writer = .idle
      · rw [hbusy]
        exact Nat.zero_le n
      · have hlt := hwriter.rank_step h hheight hstep.links hbusy
        omega
    obtain ⟨after, hafter, hperm⟩ := ih hstep.holds hstep.spells hrank'
    refine ⟨after, hafter, ?_⟩
    rw [writer.pending_step key shared height]
    refine hperm.trans ((List.Perm.append_left _ hstep.links).trans ?_)
    rw [← List.append_assoc]
    exact List.Perm.append_right _ List.perm_append_comm

theorem insert_levels (h : Levels key shared levels) {size height : Nat} (hsize : (levels 0).length ≤ size)
    (hheight : 1 ≤ height ∧ height ≤ maxHeight) {entry : ε}
    (hfresh : ∀ a ∈ levels 0, key a ≠ key entry) :
    ∃ after, Levels key (insert key shared size height entry) after ∧
      (after 0).Perm (entry :: levels 0) := by
  have hpositive := h.positive
  have hbounded := h.bounded
  have hwriter : (Writer.search entry { level := shared.height - 1 } (fun _ => none)).Holds key
      shared levels := by
    refine ⟨hfresh, Find.holds_start _, by dsimp only; omega, fun l hl hlt => ?_⟩
    dsimp only at hl
    omega
  refine hwriter.run hheight _ h ?_
  rw [Writer.rank, ahead]
  dsimp only
  omega

/-! ## Searches -/

def Reader.operation : Reader ε α → Option (Operation ε α)
  | .idle => none
  | .seek cut _ => some (.seek cut)
  | .lastBefore cut _ _ => some (.lastBefore cut)
  | .next node => some (.next node)

theorem Reader.operation_step (reader : Reader ε α) (key : ε → α) (shared : Shared ε) :
    match reader.step key shared with
    | .inl after => after.operation = reader.operation
    | .inr (operation, _) => reader.operation = some operation := by
  cases reader with
  | idle => rfl
  | seek cut find =>
    rw [Reader.step]
    cases find.round key cut (shared.next find.node find.level) <;> rfl
  | lastBefore cut node level =>
    rw [Reader.step]
    cases reachedUpperBound key cut (shared.next node level) with
    | false => rfl
    | true => by_cases hzero : level = 0 <;> simp only [hzero, if_true, if_false] <;> rfl
  | next node => rfl

/-- A reader alone comes to its answer, which is exact. -/
theorem Reader.Holds.run (h : Levels key shared levels) {operation : Operation ε α} (n : Nat) :
    ∀ {reader : Reader ε α}, reader.Holds key levels → reader.operation = some operation →
      reader.rank key (levels 0) ≤ n →
      ∃ node, Reader.run key shared n reader = some node ∧
        Exact key (levels 0) operation node := by
  induction n with
  | zero =>
    intro reader _ hoperation hrank
    cases reader with
    | idle => cases hoperation
    | _ =>
      rw [Reader.rank] at hrank
      omega
  | succ n ih =>
    intro reader hreader hoperation hrank
    have hstep := hreader.step h
    have hkeeps := reader.operation_step key shared
    have hbusy : reader ≠ .idle := by
      rintro rfl
      cases hoperation
    rw [Reader.run]
    cases hout : reader.step key shared with
    | inl after =>
      rw [hout] at hstep hkeeps
      obtain ⟨hafter, hless⟩ := hstep
      have hlt := (hless hbusy).1
      exact ih hafter (hkeeps.trans hoperation) (by omega)
    | inr answer =>
      obtain ⟨operation', node⟩ := answer
      rw [hout] at hstep hkeeps
      obtain rfl := Option.some.inj (hoperation.symm.trans hkeeps)
      exact ⟨node, rfl, hstep⟩

theorem findGreaterOrEqual_eq (h : Levels key shared levels) {size : Nat}
    (hsize : (levels 0).length ≤ size) (cut : Cut α) :
    findGreaterOrEqual key shared size cut =
      (levels 0).find? (fun entry => !cut.below (key entry)) := by
  have hholds : (Reader.start shared (.seek cut)).Holds key levels :=
    Reader.holds_start h (fun a ha => nomatch ha)
  have hrank := hholds.rank_le (levels 0)
  obtain ⟨node, hrun, hexact⟩ := hholds.run h (maxHeight + size) rfl (by omega)
  rw [findGreaterOrEqual, hrun]
  exact hexact

end ModernLevelDB.SkipList
