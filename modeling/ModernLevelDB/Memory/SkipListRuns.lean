import ModernLevelDB.Memory.SkipListLevels

/-! # Runs of a skip list

What holds between any two accesses of the threads: the links spell the levels, the writer has found
the places of its entry, and every reader stands at an entry that it was right to pass. The levels
change only where the writer links its entry, and they never lose one. -/
namespace ModernLevelDB.SkipList
set_option autoImplicit false

variable {ε α ι : Type*} [DecidableEq ε] [LinearOrder α] {key : ε → α} {shared : Shared ε}
  {levels : Nat → List ε}

/-! ## Writing links -/

omit [LinearOrder α] in
theorem setNext_same (shared : Shared ε) (node : Option ε) (level : Nat) (value : Option ε) :
    (fun n => (shared.setNext node level value).next n level) =
      Function.update (fun n => shared.next n level) node value := by
  funext n
  by_cases hn : n = node
  · simp [Shared.setNext, hn]
  · simp [Shared.setNext, hn]

omit [LinearOrder α] in
theorem setNext_other (shared : Shared ε) (node : Option ε) {level other : Nat} (value : Option ε)
    (hne : other ≠ level) : (fun n => (shared.setNext node level value).next n other) =
      fun n => shared.next n other := by
  funext n
  simp [Shared.setNext, hne]

theorem Levels.setNext_of_notMem (h : Levels key shared levels) {entry : ε} {level : Nat}
    (hnot : entry ∉ levels level) (value : Option ε) :
    Levels key (shared.setNext (some entry) level value) levels := by
  refine { h with chain := fun other => ?_ }
  by_cases heq : other = level
  · rw [heq, setNext_same]
    exact (h.chain level).update_of_notMem hnot value
  · rw [setNext_other _ _ _ heq]
    exact h.chain other

/-! ## The writer -/

def predecessor (key : ε → α) (l : List ε) (entry : ε) : Option ε :=
  (before key (.lt (key entry)) l).getLast?

def successor (key : ε → α) (l : List ε) (entry : ε) : Option ε :=
  (behind key (.lt (key entry)) l).head?

def insertEntry (key : ε → α) (l : List ε) (entry : ε) : List ε :=
  before key (.lt (key entry)) l ++ entry :: behind key (.lt (key entry)) l

/-- The entry is linked below `level`, and the writer has its places on the levels from there. -/
structure Linking (key : ε → α) (shared : Shared ε) (levels : Nat → List ε) (entry : ε)
    (height : Nat) (predecessors : Nat → Option ε) (level : Nat) : Prop where
  linked : ∀ l < level, entry ∈ levels l
  fresh : ∀ l, level ≤ l → ∀ a ∈ levels l, key a ≠ key entry
  inside : level < height
  published : height ≤ shared.height
  places : ∀ l, level ≤ l → l < height → predecessors l = predecessor key (levels l) entry

/-- What the writer knows at each of its accesses. -/
def Writer.Holds (key : ε → α) (shared : Shared ε) (levels : Nat → List ε) : Writer ε → Prop
  | .idle => True
  | .search entry find predecessors => (∀ a ∈ levels 0, key a ≠ key entry) ∧
      find.Holds key levels (.lt (key entry)) ∧ find.level < shared.height ∧
      ∀ l, find.level < l → l < shared.height → predecessors l = predecessor key (levels l) entry
  | .searched entry predecessors => (∀ a ∈ levels 0, key a ≠ key entry) ∧
      ∀ l < shared.height, predecessors l = predecessor key (levels l) entry
  | .prepared entry height currentHeight predecessors => (∀ a ∈ levels 0, key a ≠ key entry) ∧
      currentHeight = shared.height ∧ (0 < height ∧ height ≤ maxHeight) ∧
      ∀ l < height, predecessors l = predecessor key (levels l) entry
  | .link entry height predecessors level =>
      Linking key shared levels entry height predecessors level
  | .loaded entry height predecessors level next =>
      Linking key shared levels entry height predecessors level ∧
      next = successor key (levels level) entry
  | .stored entry height predecessors level =>
      Linking key shared levels entry height predecessors level ∧
      shared.next (some entry) level = successor key (levels level) entry

section Insert

variable {l : List ε} {entry : ε}

omit [DecidableEq ε] in
theorem insertEntry_perm (l : List ε) (entry : ε) :
    (insertEntry key l entry).Perm (entry :: l) := by
  have hsplit := before_append_behind (.lt (key entry)) key l
  unfold insertEntry
  refine List.perm_middle.trans (List.Perm.cons entry ?_)
  rw [hsplit]

omit [DecidableEq ε] in
theorem mem_insertEntry {a : ε} : a ∈ insertEntry key l entry ↔ a = entry ∨ a ∈ l := by
  rw [(insertEntry_perm l entry).mem_iff, List.mem_cons]

omit [DecidableEq ε] in
theorem insertEntry_sorted (h : l.Pairwise (fun a b => key a < key b))
    (hfresh : ∀ a ∈ l, key a ≠ key entry) :
    (insertEntry key l entry).Pairwise (fun a b => key a < key b) := by
  have hsplit := before_append_behind (.lt (key entry)) key l
  have hbefore : ∀ a ∈ before key (.lt (key entry)) l, key a < key entry :=
    fun a ha => of_decide_eq_true (below_of_mem_before ha)
  have hbehind : ∀ a ∈ behind key (.lt (key entry)) l, key entry < key a := by
    intro a ha
    have hle : key entry ≤ key a := not_lt.mp (of_decide_eq_false (not_below_of_mem_behind h ha))
    have hmem : a ∈ l := by
      rw [← hsplit]
      exact List.mem_append_right _ ha
    exact lt_of_le_of_ne hle (hfresh a hmem).symm
  rw [← hsplit] at h
  obtain ⟨h₁, h₂, h₁₂⟩ := List.pairwise_append.mp h
  refine List.pairwise_append.mpr ⟨h₁, List.pairwise_cons.mpr ⟨hbehind, h₂⟩, ?_⟩
  intro a ha b hb
  rcases List.mem_cons.mp hb with rfl | hb
  · exact hbefore a ha
  · exact h₁₂ a ha b hb

end Insert

theorem Levels.link (h : Levels key shared levels) {entry : ε} {height level : Nat}
    {predecessors : Nat → Option ε}
    (hlinking : Linking key shared levels entry height predecessors level)
    (hnext : shared.next (some entry) level = successor key (levels level) entry) :
    Levels key (shared.setNext (predecessors level) level (some entry))
      (Function.update levels level (insertEntry key (levels level) entry)) := by
  have hfresh := hlinking.fresh level le_rfl
  have hnot : entry ∉ levels level := fun hmem => hfresh entry hmem rfl
  have hsplit := before_append_behind (.lt (key entry)) key (levels level)
  refine ⟨fun other => ?_, fun other => ?_, fun other => ?_, fun other hother => ?_, h.positive,
    h.bounded⟩
  · by_cases heq : other = level
    · rw [heq, setNext_same, Function.update_self, hlinking.places level le_rfl hlinking.inside]
      have hchain := h.chain level
      rw [← hsplit] at hchain
      have hnodup := Partition.nodup_of_sorted (h.sorted level)
      rw [← hsplit] at hnodup hnot
      have hsplice := hchain.splice hnodup (fun _ _ => by simp) hnot (by simp) hnext
      rw [Option.or_none] at hsplice
      exact hsplice
    · rw [setNext_other _ _ _ heq, Function.update_of_ne heq]
      exact h.chain other
  · by_cases heq : other = level
    · rw [heq, Function.update_self]
      exact insertEntry_sorted (h.sorted level) hfresh
    · rw [Function.update_of_ne heq]
      exact h.sorted other
  · by_cases habove : other + 1 = level
    · -- The level below has the entry already.
      rw [habove, Function.update_self, Function.update_of_ne (by omega)]
      intro a ha
      rcases mem_insertEntry.mp ha with rfl | ha
      · exact hlinking.linked other (by omega)
      · exact h.subset other (habove ▸ ha)
    · rw [Function.update_of_ne habove]
      refine List.Subset.trans (h.subset other) ?_
      by_cases heq : other = level
      · rw [heq, Function.update_self]
        exact fun a ha => mem_insertEntry.mpr (.inr ha)
      · rw [Function.update_of_ne heq]
        exact List.Subset.refl _
  · have hpublished := hlinking.published
    have hinside := hlinking.inside
    have hheight : shared.height ≤ other := hother
    rw [Function.update_of_ne (by omega)]
    exact h.empty other hother

/-- An access of the writer: the levels grow by what it links. -/
structure Advances (key : ε → α) (shared : Shared ε) (levels : Nat → List ε) (writer : Writer ε)
    (out : Shared ε × Writer ε) (after : Nat → List ε) : Prop where
  spells : Levels key out.1 after
  holds : out.2.Holds key out.1 after
  grows : ∀ l, levels l ⊆ after l
  links : (after 0).Perm (writer.links ++ levels 0)
  finishes : ∀ a ∈ writer.finishes, a ∈ after 0

section WriterSteps

omit [DecidableEq ε] in
/-- An access that links nothing. -/
theorem advances_still {writer : Writer ε} {out : Shared ε × Writer ε}
    (hspells : Levels key out.1 levels) (hholds : out.2.Holds key out.1 levels)
    (hlinks : writer.links = []) (hfinishes : writer.finishes = []) :
    Advances key shared levels writer out levels where
  spells := hspells
  holds := hholds
  grows _ := List.Subset.refl _
  links := by rw [hlinks, List.nil_append]
  finishes a ha := by rw [hfinishes] at ha; cases ha

variable {entry : ε} {predecessors : Nat → Option ε} {height newHeight level : Nat}

theorem search_step (h : Levels key shared levels) {find : Find ε}
    (hwriter : (Writer.search entry find predecessors).Holds key shared levels) (height : Nat) :
    Advances key shared levels (.search entry find predecessors)
      ((Writer.search entry find predecessors).step key shared height) levels := by
  obtain ⟨hfresh, hfind, hlevel, hplaces⟩ := hwriter
  have hround := hfind.round h
  have hplaces' : find.node = predecessor key (levels find.level) entry →
      ∀ l, find.level ≤ l → l < shared.height →
        Function.update predecessors find.level find.node l = predecessor key (levels l) entry := by
    intro hnode l hl hlt
    by_cases heq : l = find.level
    · rw [heq, Function.update_self]
      exact hnode
    · rw [Function.update_of_ne heq]
      exact hplaces l (by omega) hlt
  rw [Writer.step]
  cases hout : find.round key (.lt (key entry)) (shared.next find.node find.level) with
  | goOn next =>
    rw [hout] at hround
    obtain ⟨hnext, hsame, _⟩ := hround
    exact advances_still h ⟨hfresh, hnext, hsame ▸ hlevel, fun l hl => hplaces l (hsame ▸ hl)⟩ rfl rfl
  | descend next =>
    rw [hout] at hround
    obtain ⟨hnext, hdown, _, hnode⟩ := hround
    have hlevel' : next.level < shared.height := by omega
    exact advances_still h ⟨hfresh, hnext, hlevel', fun l hl => hplaces' hnode l (by omega)⟩ rfl rfl
  | found next =>
    rw [hout] at hround
    obtain ⟨hzero, hnode, _⟩ := hround
    rw [← hzero] at hnode
    exact advances_still h ⟨hfresh, fun l hl => hplaces' hnode l (by omega) hl⟩ rfl rfl

theorem searched_step (h : Levels key shared levels)
    (hwriter : (Writer.searched entry predecessors).Holds key shared levels)
    (hheight : 1 ≤ height ∧ height ≤ maxHeight) :
    Advances key shared levels (.searched entry predecessors)
      ((Writer.searched entry predecessors).step key shared height) levels := by
  obtain ⟨hfresh, hplaces⟩ := hwriter
  have hlevels : Levels key { shared with
      next := fun node level => if node = some entry then none else shared.next node level }
      levels := by
    refine { h with chain := fun l => ?_ }
    have hnot : entry ∉ levels l := fun hmem => hfresh entry (h.subset_zero l hmem) rfl
    refine (h.chain l).congr_links (by simp) (fun a ha => ?_)
    have hne : a ≠ entry := fun heq => hnot (heq ▸ ha)
    simp [hne]
  refine advances_still hlevels ⟨hfresh, rfl, hheight, fun l hl => ?_⟩ rfl rfl
  dsimp only
  split
  · next hempty =>
    rw [predecessor, h.empty l hempty]
    rfl
  · next hlt => exact hplaces l (by omega)

theorem prepared_step (h : Levels key shared levels) {currentHeight : Nat}
    (hwriter : (Writer.prepared entry newHeight currentHeight predecessors).Holds key shared levels)
    (height : Nat) :
    Advances key shared levels (.prepared entry newHeight currentHeight predecessors)
      ((Writer.prepared entry newHeight currentHeight predecessors).step key shared height)
      levels := by
  obtain ⟨hfresh, rfl, ⟨hpositive, hbounded⟩, hplaces⟩ := hwriter
  have hfresh' : ∀ l, 0 ≤ l → ∀ a ∈ levels l, key a ≠ key entry :=
    fun l _ a ha => hfresh a (h.subset_zero l ha)
  rw [Writer.step]
  split
  · next hlt =>
    have hlevels : Levels key { shared with height := newHeight } levels :=
      ⟨h.chain, h.sorted, h.subset, fun l hl => h.empty l (hlt.le.trans hl), hpositive, hbounded⟩
    exact advances_still hlevels ⟨fun l hl => absurd hl (Nat.not_lt_zero l), hfresh', hpositive,
      le_rfl, fun l _ hl => hplaces l hl⟩ rfl rfl
  · next hle =>
    exact advances_still h ⟨fun l hl => absurd hl (Nat.not_lt_zero l), hfresh', hpositive,
      Nat.le_of_not_lt hle, fun l _ hl => hplaces l hl⟩ rfl rfl

omit [DecidableEq ε] in
theorem next_predecessor (h : Levels key shared levels) (level : Nat) (entry : ε) :
    shared.next (predecessor key (levels level) entry) level =
      successor key (levels level) entry := by
  have hchain := h.chain level
  have hsplit := before_append_behind (.lt (key entry)) key (levels level)
  rw [← hsplit] at hchain
  have hbehind := hchain.behind
  rw [Option.or_none] at hbehind
  exact hbehind.head

theorem link_step (h : Levels key shared levels)
    (hwriter : (Writer.link entry newHeight predecessors level).Holds key shared levels)
    (height : Nat) :
    Advances key shared levels (.link entry newHeight predecessors level)
      ((Writer.link entry newHeight predecessors level).step key shared height) levels := by
  refine advances_still h ⟨hwriter, ?_⟩ rfl rfl
  rw [hwriter.places level le_rfl hwriter.inside]
  exact next_predecessor h level entry

theorem loaded_step (h : Levels key shared levels) {next : Option ε}
    (hwriter : (Writer.loaded entry newHeight predecessors level next).Holds key shared levels)
    (height : Nat) :
    Advances key shared levels (.loaded entry newHeight predecessors level next)
      ((Writer.loaded entry newHeight predecessors level next).step key shared height) levels := by
  obtain ⟨hlinking, rfl⟩ := hwriter
  have hnot : entry ∉ levels level := fun hmem => hlinking.fresh level le_rfl entry hmem rfl
  refine advances_still (h.setNext_of_notMem hnot _) ⟨{ hlinking with }, ?_⟩ rfl rfl
  simp [Writer.step, Shared.setNext]

theorem stored_step (h : Levels key shared levels)
    (hwriter : (Writer.stored entry newHeight predecessors level).Holds key shared levels)
    (height : Nat) :
    Advances key shared levels (.stored entry newHeight predecessors level)
      ((Writer.stored entry newHeight predecessors level).step key shared height)
      (Function.update levels level (insertEntry key (levels level) entry)) := by
  obtain ⟨hlinking, hnext⟩ := hwriter
  have hinside := hlinking.inside
  have hmem : ∀ l ≤ level, entry ∈
      Function.update levels level (insertEntry key (levels level) entry) l := by
    intro l hl
    by_cases heq : l = level
    · rw [heq, Function.update_self]
      exact mem_insertEntry.mpr (.inl rfl)
    · rw [Function.update_of_ne heq]
      exact hlinking.linked l (by omega)
  refine ⟨h.link hlinking hnext, ?_, fun l => ?_, ?_, ?_⟩
  · rw [Writer.step]
    dsimp only
    split
    · next hmore =>
      refine ⟨fun l hl => hmem l (by omega), fun l hl => ?_, hmore, hlinking.published,
        fun l hl hlt => ?_⟩
      · rw [Function.update_of_ne (by omega)]
        exact hlinking.fresh l (by omega)
      · rw [Function.update_of_ne (by omega)]
        exact hlinking.places l (by omega) hlt
    · trivial
  · by_cases heq : l = level
    · rw [heq, Function.update_self]
      exact fun a ha => mem_insertEntry.mpr (.inr ha)
    · rw [Function.update_of_ne heq]
      exact List.Subset.refl _
  · cases level with
    | zero =>
      rw [Function.update_self]
      exact insertEntry_perm (levels 0) entry
    | succ level =>
      rw [Function.update_of_ne (by omega)]
      exact List.Perm.refl _
  · intro a ha
    have ha : a ∈ if level + 1 < newHeight then [] else [entry] := ha
    split at ha
    · cases ha
    · rw [List.mem_singleton.mp ha]
      exact hmem 0 (Nat.zero_le _)

theorem Writer.Holds.step {writer : Writer ε} (hwriter : writer.Holds key shared levels)
    (h : Levels key shared levels) (hheight : 1 ≤ height ∧ height ≤ maxHeight) :
    ∃ after, Advances key shared levels writer (writer.step key shared height) after := by
  cases writer with
  | idle => exact ⟨levels, advances_still h trivial rfl rfl⟩
  | search entry find predecessors => exact ⟨levels, search_step h hwriter height⟩
  | searched entry predecessors => exact ⟨levels, searched_step h hwriter hheight⟩
  | prepared entry newHeight currentHeight predecessors =>
    exact ⟨levels, prepared_step h hwriter height⟩
  | link entry newHeight predecessors level => exact ⟨levels, link_step h hwriter height⟩
  | loaded entry newHeight predecessors level next => exact ⟨levels, loaded_step h hwriter height⟩
  | stored entry newHeight predecessors level => exact ⟨_, stored_step h hwriter height⟩

end WriterSteps

/-! ## Readers -/

/-- What an operation returns of a list. `lastBefore` returns the head where no entry is below. -/
def Exact (key : ε → α) (l : List ε) : Operation ε α → Option ε → Prop
  | .seek cut, node => node = l.find? (fun entry => !cut.below (key entry))
  | .lastBefore cut, node => node = (l.filter (fun entry => cut.below (key entry))).getLast?
  | .next none, node => node = l.head?
  | .next (some entry), node => ∃ l₁ l₂, l = l₁ ++ entry :: l₂ ∧ node = l₂.head?

def ahead (key : ε → α) (l : List ε) : Option ε → Nat
  | none => l.length
  | some a => l.countP (fun b => key a < key b)

/-- A bound on the loads that a reader still makes if nothing is linked meanwhile. -/
def Reader.rank (key : ε → α) (l : List ε) : Reader ε α → Nat
  | .idle => 0
  | .seek _ find => find.level + ahead key l find.node + 1
  | .lastBefore _ node level => level + ahead key l node + 1
  | .next _ => 1

/-- What a reader knows at each of its accesses. -/
def Reader.Holds (key : ε → α) (levels : Nat → List ε) : Reader ε α → Prop
  | .idle => True
  | .seek cut find => find.Holds key levels cut ∧ find.level < maxHeight
  | .lastBefore cut node level => Passed key cut (levels level) node ∧ level < maxHeight
  | .next node => ∀ a, node = some a → a ∈ levels 0

section Readers

variable {l l' : List ε} {cut : Cut α}

omit [DecidableEq ε] in
theorem ahead_lt {node : Option ε} {b : ε} (hb : b ∈ l) (hnode : ∀ a, node = some a → key a < key b) :
    ahead key l (some b) < ahead key l node := by
  cases node with
  | none =>
    rw [ahead, ahead, List.length_eq_countP_add_countP (fun c => key b < key c)]
    have hpos : 0 < l.countP (fun c => ¬ (decide (key b < key c)) = true) :=
      List.countP_pos_iff.mpr ⟨b, hb, by simp⟩
    omega
  | some a =>
    have hlt := hnode a rfl
    refine Partition.countP_lt_countP (fun c _ hc => ?_) hb (by simp) (by simpa using hlt)
    rw [decide_eq_true_iff] at hc ⊢
    exact hlt.trans hc

omit [DecidableEq ε] in
theorem ahead_le (key : ε → α) (node : Option ε) (l : List ε) : ahead key l node ≤ l.length := by
  cases node with
  | none => exact le_rfl
  | some a => exact List.countP_le_length

omit [DecidableEq ε] in
theorem ahead_perm (key : ε → α) (node : Option ε) {more : List ε} (h : l'.Perm (more ++ l)) :
    ahead key l' node ≤ ahead key l node + more.length := by
  cases node with
  | none =>
    rw [ahead, ahead, h.length_eq, List.length_append, Nat.add_comm]
  | some a =>
    have hle := List.countP_le_length (p := fun b => decide (key a < key b)) (l := more)
    rw [ahead, ahead, h.countP_eq, List.countP_append]
    omega

omit [DecidableEq ε] in
theorem head?_behind (l : List ε) :
    (behind key cut l).head? = l.find? (fun entry => !cut.below (key entry)) := by
  induction l with
  | nil => rfl
  | cons a l ih =>
    unfold behind at ih ⊢
    cases hbelow : cut.below (key a) with
    | true => simpa [hbelow] using ih
    | false => simp [hbelow]

omit [DecidableEq ε] in
theorem before_eq_filter (h : l.Pairwise (fun a b => key a < key b)) :
    before key cut l = l.filter (fun entry => cut.below (key entry)) := by
  have hsplit := before_append_behind cut key l
  have hbefore : (before key cut l).filter (fun entry => cut.below (key entry)) =
      before key cut l := List.filter_eq_self.mpr (fun a ha => below_of_mem_before ha)
  have hbehind : (behind key cut l).filter (fun entry => cut.below (key entry)) = [] :=
    List.filter_eq_nil_iff.mpr (fun a ha => by simp [not_below_of_mem_behind h ha])
  have hfilter := congrArg (List.filter (fun entry => cut.below (key entry))) hsplit
  rw [List.filter_append, hbefore, hbehind, List.append_nil] at hfilter
  exact hfilter

omit [DecidableEq ε] in
theorem Reader.Holds.mono {reader : Reader ε α} {after : Nat → List ε} (h : reader.Holds key levels)
    (hsub : ∀ l, levels l ⊆ after l) : reader.Holds key after := by
  cases reader with
  | idle => trivial
  | seek cut find => exact ⟨h.1.mono hsub, h.2⟩
  | lastBefore cut node level => exact ⟨h.1.mono (hsub level), h.2⟩
  | next node => exact fun a ha => hsub 0 (h a ha)

omit [DecidableEq ε] in
theorem Reader.holds_start (h : Levels key shared levels) {operation : Operation ε α}
    (hnext : ∀ a, operation = .next (some a) → a ∈ levels 0) :
    (Reader.start shared operation).Holds key levels := by
  have hlevel : shared.height - 1 < maxHeight := by
    have hpositive := h.positive
    have hbounded := h.bounded
    omega
  cases operation with
  | seek cut => exact ⟨Find.holds_start _, hlevel⟩
  | lastBefore cut => exact ⟨passed_head, hlevel⟩
  | next node =>
    rintro a rfl
    exact hnext a rfl

theorem Reader.Holds.step {reader : Reader ε α} (hreader : reader.Holds key levels)
    (h : Levels key shared levels) :
    match reader.step key shared with
    | .inl after => after.Holds key levels ∧
        (reader ≠ .idle → after.rank key (levels 0) < reader.rank key (levels 0) ∧ after ≠ .idle)
    | .inr (operation, node) => Exact key (levels 0) operation node := by
  cases reader with
  | idle => exact ⟨trivial, fun hne => absurd rfl hne⟩
  | seek cut find =>
    obtain ⟨hfind, hlevel⟩ := hreader
    have hround := hfind.round h
    rw [Reader.step]
    cases hout : find.round key cut (shared.next find.node find.level) with
    | goOn after =>
      rw [hout] at hround
      obtain ⟨hafter, hsame, b, hb, hnode, hlt⟩ := hround
      have hahead := ahead_lt hb hlt
      refine ⟨⟨hafter, hsame ▸ hlevel⟩, fun _ => ⟨?_, by simp⟩⟩
      rw [Reader.rank, Reader.rank, hnode, hsame]
      omega
    | descend after =>
      rw [hout] at hround
      obtain ⟨hafter, hdown, hnode, _⟩ := hround
      refine ⟨⟨hafter, by omega⟩, fun _ => ⟨?_, by simp⟩⟩
      rw [Reader.rank, Reader.rank, hnode, hdown]
      omega
    | found next =>
      rw [hout] at hround
      obtain ⟨_, _, hnext⟩ := hround
      exact hnext.trans (head?_behind _)
  | lastBefore cut node level =>
    obtain ⟨hpassed, hlevel⟩ := hreader
    rw [Reader.step]
    cases hreached : reachedUpperBound key cut (shared.next node level) with
    | true =>
      have hstop : ∀ b, shared.next node level = some b → cut.below (key b) = false := by
        intro b hb
        rw [hb, reachedUpperBound] at hreached
        simpa using hreached
      rw [if_pos rfl]
      by_cases hzero : level = 0
      · rw [if_pos hzero]
        subst hzero
        have hnode := (cut_at_node (h.chain 0) (h.sorted 0) hpassed hstop).1
        rw [before_eq_filter (h.sorted 0)] at hnode
        exact hnode
      · rw [if_neg hzero]
        have hsub := h.subset (level - 1)
        rw [Nat.sub_add_cancel (Nat.one_le_iff_ne_zero.mpr hzero)] at hsub
        refine ⟨⟨hpassed.mono hsub, by omega⟩, fun _ => ⟨?_, by simp⟩⟩
        rw [Reader.rank, Reader.rank]
        omega
    | false =>
      rw [if_neg Bool.false_ne_true]
      cases hnext : shared.next node level with
      | none =>
        rw [hnext] at hreached
        cases hreached
      | some b =>
        rw [hnext] at hreached
        have hbelow : cut.below (key b) = true := by simpa [reachedUpperBound] using hreached
        obtain ⟨hb, hlt⟩ := link_mem (h.chain level) (h.sorted level)
          (fun a ha => (hpassed a ha).1) hnext
        have hahead := ahead_lt (h.subset_zero level hb) hlt
        refine ⟨⟨?_, hlevel⟩, fun _ => ⟨?_, by simp⟩⟩
        · rintro c ⟨⟩
          exact ⟨hb, hbelow⟩
        · rw [Reader.rank, Reader.rank]
          omega
  | next node =>
    obtain ⟨l₁, l₂, hsplit, hlast, hhead⟩ := split_at_node (h.chain 0) hreader
    cases node with
    | none => exact (h.chain 0).head
    | some a =>
      obtain ⟨front, rfl⟩ := List.getLast?_eq_some_iff.mp hlast.symm
      exact ⟨front, l₂, by rw [hsplit, List.append_assoc]; rfl, hhead⟩

end Readers

/-! ## The system -/

variable [DecidableEq ι]

/-- The invariant of all interleavings. -/
structure Good (key : ε → α) (s : State ι ε α) (levels : Nat → List ε) : Prop where
  spells : Levels key s.shared levels
  writer : s.writer.Holds key s.shared levels
  readers : ∀ i, (s.readers i).Holds key levels
  linked : (levels 0).Perm s.linked
  finished : ∀ a ∈ s.finished, a ∈ s.linked

section System

variable {s t : State ι ε α}

omit [DecidableEq ε] [DecidableEq ι] in
theorem good_init (key : ε → α) : Good key ({} : State ι ε α) (fun _ => []) where
  spells := ⟨fun _ => rfl, fun _ => .nil, fun _ => List.Subset.refl _, fun _ _ => rfl, Nat.one_pos,
    show 1 ≤ maxHeight by decide⟩
  writer := trivial
  readers _ := trivial
  linked := List.Perm.refl _
  finished a ha := by cases ha

omit [DecidableEq ε] [DecidableEq ι] in
theorem Good.level_eq (h : Good key s levels) (level : Nat) : s.level level = levels level := by
  refine (h.spells.chain level).follow_eq ?_
  have hsub : levels level ⊆ s.linked :=
    List.Subset.trans (h.spells.subset_zero level) h.linked.subset
  exact (List.subperm_of_subset (Partition.nodup_of_sorted (h.spells.sorted level)) hsub).length_le

/-- What one step does: entries are added to the levels, and an answer is exact. A step that is no
load of the reader raises its rank by no more than the entries it links. -/
structure Follows (key : ε → α) (s t : State ι ε α) (levels after : Nat → List ε) : Prop where
  good : Good key t after
  grows : ∀ l, levels l ⊆ after l
  links : ∃ more, t.linked = s.linked ++ more ∧ (after 0).Perm (more ++ levels 0)

variable {answer : Option (Answer ι ε α)}

theorem good_insert (h : Good key s levels) {entry : ε}
    (hstep : s.step key (.insert entry) = some (t, answer)) :
    Follows key s t levels levels ∧ t.readers = s.readers ∧ answer = none := by
  rw [State.step] at hstep
  split at hstep
  · split at hstep
    · cases hstep
    · next hfresh =>
      cases hstep
      refine ⟨⟨⟨h.spells, ⟨?_, Find.holds_start _, ?_, ?_⟩, h.readers, h.linked, h.finished⟩,
        fun _ => List.Subset.refl _, [], by simp, List.Perm.refl _⟩, rfl, rfl⟩
      · intro a ha heq
        exact hfresh (List.mem_map.mpr ⟨a, h.linked.subset ha, heq⟩)
      · exact Nat.sub_lt h.spells.positive Nat.one_pos
      · intro l hlt hl
        have hlt : s.shared.height - 1 < l := hlt
        have hl : l < s.shared.height := hl
        omega
  · cases hstep

theorem good_write (h : Good key s levels) {height : Nat}
    (hstep : s.step key (.write height) = some (t, answer)) :
    (∃ after, Follows key s t levels after) ∧ t.readers = s.readers ∧ answer = none := by
  rw [State.step] at hstep
  split at hstep
  · next hheight =>
    cases hstep
    obtain ⟨after, hspells, hholds, hgrows, hlinks, hfinishes⟩ := h.writer.step h.spells hheight
    have hlinked : (after 0).Perm (s.linked ++ s.writer.links) :=
      hlinks.trans ((List.Perm.append_left _ h.linked).trans List.perm_append_comm)
    refine ⟨⟨after, ⟨hspells, hholds, fun i => (h.readers i).mono hgrows, hlinked, ?_⟩, hgrows,
      s.writer.links, rfl, hlinks⟩, rfl, rfl⟩
    intro a ha
    rcases List.mem_append.mp ha with ha | ha
    · exact List.mem_append_left _ (h.finished a ha)
    · exact hlinked.subset (hfinishes a ha)
  · cases hstep

omit [DecidableEq ε] in
theorem good_update (h : Good key s levels) {i : ι} {reader : Reader ε α}
    (hreader : reader.Holds key levels) :
    Follows key s { s with readers := Function.update s.readers i reader } levels levels := by
  refine ⟨⟨h.spells, h.writer, fun j => ?_, h.linked, h.finished⟩, fun _ => List.Subset.refl _, [],
    by simp, List.Perm.refl _⟩
  dsimp only
  by_cases heq : j = i
  · rw [heq, Function.update_self]
    exact hreader
  · rw [Function.update_of_ne heq]
    exact h.readers j

theorem good_begin (h : Good key s levels) {i : ι} {operation : Operation ε α}
    (hstep : s.step key (.begin i operation) = some (t, answer)) :
    Follows key s t levels levels ∧ s.readers i = .idle ∧
      (∀ j, j ≠ i → t.readers j = s.readers j) ∧ answer = none := by
  rw [State.step] at hstep
  split at hstep
  · next hidle =>
    split at hstep
    · next hallowed =>
      cases hstep
      refine ⟨good_update h (Reader.holds_start h.spells ?_), hidle,
        fun j hj => Function.update_of_ne hj _ _, rfl⟩
      rintro a rfl
      exact h.linked.mem_iff.mpr (of_decide_eq_true hallowed)
    · cases hstep
  · cases hstep

theorem good_read (h : Good key s levels) {i : ι} (hstep : s.step key (.read i) = some (t, answer)) :
    Follows key s t levels levels ∧ (∀ j, j ≠ i → t.readers j = s.readers j) ∧
      match answer with
      | some answer => answer.reader = i ∧ Exact key (levels 0) answer.operation answer.node
      | none => s.readers i ≠ .idle →
          (t.readers i).rank key (levels 0) < (s.readers i).rank key (levels 0) ∧
            t.readers i ≠ .idle := by
  have hreader := (h.readers i).step h.spells
  rw [State.step] at hstep
  cases hout : (s.readers i).step key s.shared with
  | inl next =>
    rw [hout] at hstep hreader
    cases hstep
    refine ⟨good_update h hreader.1, fun j hj => Function.update_of_ne hj _ _, fun hne => ?_⟩
    simpa using hreader.2 hne
  | inr result =>
    obtain ⟨operation, node⟩ := result
    rw [hout] at hstep hreader
    cases hstep
    exact ⟨good_update h trivial, fun j hj => Function.update_of_ne hj _ _, rfl, hreader⟩

theorem Good.step (h : Good key s levels) {choice : Choice ι ε α}
    (hstep : s.step key choice = some (t, answer)) :
    (∃ after, Follows key s t levels after) ∧
      ∀ a, answer = some a → Exact key (levels 0) a.operation a.node := by
  cases choice with
  | insert entry =>
    obtain ⟨hfollows, _, rfl⟩ := good_insert h hstep
    exact ⟨⟨levels, hfollows⟩, fun a ha => nomatch ha⟩
  | write height =>
    obtain ⟨hfollows, _, rfl⟩ := good_write h hstep
    exact ⟨hfollows, fun a ha => nomatch ha⟩
  | begin i operation =>
    obtain ⟨hfollows, _, _, rfl⟩ := good_begin h hstep
    exact ⟨⟨levels, hfollows⟩, fun a ha => nomatch ha⟩
  | read i =>
    obtain ⟨hfollows, _, hanswer⟩ := good_read h hstep
    refine ⟨⟨levels, hfollows⟩, ?_⟩
    rintro a rfl
    exact hanswer.2

theorem good_of_reachable (h : Reachable key s) : ∃ levels, Good key s levels := by
  refine Transition.Reachable.invariant (P := fun s => ∃ levels, Good key s levels) ?_ ?_ h
  · rintro s rfl
    exact ⟨_, good_init key⟩
  · rintro s t ⟨levels, hgood⟩ ⟨choice, answer, hstep⟩
    obtain ⟨⟨after, hfollows⟩, _⟩ := hgood.step hstep
    exact ⟨after, hfollows.good⟩

theorem grows_of_steps (h : Good key s levels) (hst : Relation.ReflTransGen (Step key) s t) :
    ∃ after, Good key t after ∧ ∀ l, levels l ⊆ after l := by
  induction hst with
  | refl => exact ⟨levels, h, fun _ => List.Subset.refl _⟩
  | tail _ hstep ih =>
    obtain ⟨middle, hgood, hgrows⟩ := ih
    obtain ⟨choice, answer, hstep⟩ := hstep
    obtain ⟨⟨after, hfollows⟩, _⟩ := hgood.step hstep
    exact ⟨after, hfollows.good, fun l => List.Subset.trans (hgrows l) (hfollows.grows l)⟩

/-! ## How long an operation takes -/

/-- A part of a run in which the reader makes `n` loads and no load answers its operation. -/
inductive Loads (key : ε → α) (i : ι) : Nat → State ι ε α → State ι ε α → Prop
  | start (s : State ι ε α) : Loads key i 0 s s
  | other {n : Nat} {s t u : State ι ε α} {choice : Choice ι ε α} {answer : Option (Answer ι ε α)} :
      Loads key i n s t → t.step key choice = some (u, answer) → choice ≠ .read i → Loads key i n s u
  | load {n : Nat} {s t u : State ι ε α} :
      Loads key i n s t → t.step key (.read i) = some (u, none) → Loads key i (n + 1) s u

omit [DecidableEq ε] in
theorem Reader.rank_perm (key : ε → α) (reader : Reader ε α) {l l' more : List ε}
    (h : l'.Perm (more ++ l)) :
    reader.rank key l' ≤ reader.rank key l + more.length := by
  cases reader with
  | idle => exact Nat.zero_le _
  | seek cut find =>
    have hahead := ahead_perm key find.node h
    rw [Reader.rank, Reader.rank]
    omega
  | lastBefore cut node level =>
    have hahead := ahead_perm key node h
    rw [Reader.rank, Reader.rank]
    omega
  | next node => exact Nat.le_add_right _ _

omit [DecidableEq ε] in
theorem Reader.Holds.rank_le {reader : Reader ε α} (h : reader.Holds key levels) (l : List ε) :
    reader.rank key l ≤ maxHeight + l.length := by
  cases reader with
  | idle => exact Nat.zero_le _
  | seek cut find =>
    have hahead := ahead_le key find.node l
    have hlevel := h.2
    rw [Reader.rank]
    omega
  | lastBefore cut node level =>
    have hahead := ahead_le key node l
    have hlevel := h.2
    rw [Reader.rank]
    omega
  | next node =>
    rw [Reader.rank, maxHeight]
    omega

theorem Good.other (h : Good key s levels) {i : ι} (hbusy : s.readers i ≠ .idle)
    {choice : Choice ι ε α} (hstep : s.step key choice = some (t, answer))
    (hchoice : choice ≠ .read i) :
    t.readers i = s.readers i := by
  cases choice with
  | insert entry => exact congrFun (good_insert h hstep).2.1 i
  | write height => exact congrFun (good_write h hstep).2.1 i
  | begin j operation =>
    obtain ⟨_, hidle, hsame, _⟩ := good_begin h hstep
    refine hsame i ?_
    rintro rfl
    exact hbusy hidle
  | read j =>
    refine (good_read h hstep).2.1 i ?_
    rintro rfl
    exact hchoice rfl

/-- Every load uses up one of the loads that the reader had left or that an added entry gave it. -/
theorem loads_rank {i : ι} {n : Nat} (hloads : Loads key i n s t) (h : Good key s levels)
    (hbusy : s.readers i ≠ .idle) :
    ∃ after, Good key t after ∧ t.readers i ≠ .idle ∧
      n + (t.readers i).rank key (after 0) + s.linked.length ≤
        (s.readers i).rank key (levels 0) + t.linked.length := by
  induction hloads with
  | start s => exact ⟨levels, h, hbusy, by omega⟩
  | @other n s t u choice answer _ hstep hchoice ih =>
    obtain ⟨middle, hgood, hbusy', hle⟩ := ih h hbusy
    have hsame := hgood.other hbusy' hstep hchoice
    obtain ⟨⟨after, hfollows⟩, _⟩ := hgood.step hstep
    obtain ⟨more, hlinked, hperm⟩ := hfollows.links
    refine ⟨after, hfollows.good, hsame ▸ hbusy', ?_⟩
    rw [hsame, hlinked, List.length_append]
    have hrank := Reader.rank_perm key (t.readers i) hperm
    omega
  | load _ hstep ih =>
    obtain ⟨middle, hgood, hbusy', hle⟩ := ih h hbusy
    obtain ⟨hfollows, _, hrank⟩ := good_read hgood hstep
    obtain ⟨hlt, hbusy''⟩ := hrank hbusy'
    obtain ⟨more, hlinked, hperm⟩ := hfollows.links
    refine ⟨middle, hfollows.good, hbusy'', ?_⟩
    rw [hlinked, List.length_append]
    omega

/-! ## Every run -/

/-- At every instant of every run the levels are sorted lists of linked entries, each a part of the
one below and of what it is at any later instant. An operation's last load gives the exact answer for
the list at that instant, and an operation comes to its last load. -/
theorem skipList_exact (h : Reachable key s) :
    (∀ level, Links.Chain (fun node => s.shared.next node level) none (s.level level)) ∧
    (s.level 0).Pairwise (fun a b => key a < key b) ∧ (∀ a, a ∈ s.level 0 ↔ a ∈ s.linked) ∧
    (∀ level, (s.level (level + 1)).Sublist (s.level level)) ∧
    (∀ a ∈ s.finished, a ∈ s.linked) ∧
    (∀ t, Relation.ReflTransGen (Step key) s t → ∀ level, (s.level level).Sublist (t.level level)) ∧
    (∀ choice t answer, s.step key choice = some (t, some answer) →
      Exact key (s.level 0) answer.operation answer.node) ∧
    ∀ i n t, s.readers i ≠ .idle → Loads key i n s t → n ≤ maxHeight + t.linked.length := by
  obtain ⟨levels, hgood⟩ := good_of_reachable h
  simp only [hgood.level_eq]
  refine ⟨hgood.spells.chain, hgood.spells.sorted 0, fun a => hgood.linked.mem_iff, fun level => ?_,
    hgood.finished, fun t hst level => ?_, fun choice t answer hstep => ?_, fun i n t hbusy hloads => ?_⟩
  · exact Partition.sublist_of_sorted (hgood.spells.sorted _) (hgood.spells.sorted _) (hgood.spells.subset level)
  · obtain ⟨after, hafter, hgrows⟩ := grows_of_steps hgood hst
    rw [hafter.level_eq]
    exact Partition.sublist_of_sorted (hgood.spells.sorted _) (hafter.spells.sorted _) (hgrows level)
  · exact (hgood.step hstep).2 answer rfl
  · obtain ⟨after, _, _, hle⟩ := loads_rank hloads hgood hbusy
    have hrank := (hgood.readers i).rank_le (levels 0)
    rw [hgood.linked.length_eq] at hrank
    omega

end System

/-- An entry is inserted with height 2 while a reader that began before looks for the last entry. -/
def overlappingChoices : List (Choice Unit Nat Nat) :=
  [.insert 5, .write 1, .write 1, .write 1, .write 1, .write 1, .write 1,
    .begin () (.lastBefore (.top Nat)), .insert 7, .write 1, .write 1, .write 2, .write 1, .write 1,
    .write 1, .write 1, .read (), .read ()]

theorem skipList_exact_overlapping : ∃ s, State.run id {} overlappingChoices = some s ∧
    s.level 0 = [5, 7] ∧ s.level 1 = [] ∧ s.finished = [5] ∧
    ∀ t answer, s.step id (.read ()) = some (t, some answer) →
      Exact id [5, 7] answer.operation answer.node := by
  obtain ⟨s, hs⟩ : ∃ s, State.run id ({} : State Unit Nat Nat) overlappingChoices = some s :=
    ⟨_, rfl⟩
  have hfields : (State.run id ({} : State Unit Nat Nat) overlappingChoices).map
      (fun s => (s.level 0, s.level 1, s.finished)) = some ([5, 7], [], [5]) := rfl
  rw [hs, Option.map_some] at hfields
  obtain ⟨hzero, hone, hfinished⟩ := by simpa using hfields
  refine ⟨s, hs, hzero, hone, hfinished, fun t answer hstep => ?_⟩
  rw [← hzero]
  have hreach : Reachable id s := Reachable.run id (Transition.Reachable.start rfl) hs
  exact (skipList_exact hreach).2.2.2.2.2.2.1 (.read ()) t answer hstep

end ModernLevelDB.SkipList
