import ModernLevelDB.Lib.Partition
import ModernLevelDB.Memory.SkipList

/-! # The levels of a skip list

At every instant the links of a level spell a sorted list, and a level holds only entries of the level
below it. A search that stands at an entry of a level goes on from there without ever looking back, so
all it needs is that entries stay where they are: what it has passed it would pass again. -/
namespace ModernLevelDB.SkipList
set_option autoImplicit false

variable {ε α : Type*} [LinearOrder α] {key : ε → α}

/-- `levels` spells out the links: sorted chains, each within the one below. -/
structure Levels (key : ε → α) (shared : Shared ε) (levels : Nat → List ε) : Prop where
  chain : ∀ level, Links.Chain (fun node => shared.next node level) none (levels level)
  sorted : ∀ level, (levels level).Pairwise (fun a b => key a < key b)
  subset : ∀ level, levels (level + 1) ⊆ levels level
  empty : ∀ level, shared.height ≤ level → levels level = []
  positive : 0 < shared.height
  bounded : shared.height ≤ maxHeight

theorem Levels.subset_zero {shared : Shared ε} {levels : Nat → List ε}
    (h : Levels key shared levels) (level : Nat) : levels level ⊆ levels 0 := by
  induction level with
  | zero => exact List.Subset.refl _
  | succ level ih => exact List.Subset.trans (h.subset level) ih

/-! ## Sorted lists -/

section Sorted

variable {l l' : List ε}

variable (cut : Cut α)

def before (key : ε → α) (cut : Cut α) (l : List ε) : List ε :=
  l.takeWhile (fun entry => cut.below (key entry))

def behind (key : ε → α) (cut : Cut α) (l : List ε) : List ε :=
  l.dropWhile (fun entry => cut.below (key entry))

theorem before_append_behind (key : ε → α) (l : List ε) :
    before key cut l ++ behind key cut l = l :=
  List.takeWhile_append_dropWhile

variable {cut}

theorem below_of_mem_before {a : ε} (ha : a ∈ before key cut l) : cut.below (key a) = true :=
  List.mem_takeWhile_imp (p := fun entry => cut.below (key entry)) ha

theorem not_below_of_mem_behind (h : l.Pairwise (fun a b => key a < key b)) {a : ε}
    (ha : a ∈ behind key cut l) : cut.below (key a) = false :=
  Partition.not_of_mem_dropWhile h (fun _ _ hlt hb => cut.lower hlt.le hb) ha

variable (cut) in
/-- Where a list is cut: behind the last entry that is known to be below, if the one after it is
known not to be. -/
theorem cut_here {l₁ l₂ : List ε} (h : (l₁ ++ l₂).Pairwise (fun a b => key a < key b))
    (hlast : ∀ a, l₁.getLast? = some a → cut.below (key a) = true)
    (hfirst : ∀ b, l₂.head? = some b → cut.below (key b) = false) :
    before key cut (l₁ ++ l₂) = l₁ ∧ behind key cut (l₁ ++ l₂) = l₂ := by
  have hbelow : ∀ a ∈ l₁, cut.below (key a) = true := by
    intro a ha
    obtain ⟨l, z, hl⟩ := (List.eq_nil_or_concat l₁).resolve_left (List.ne_nil_of_mem ha)
    rw [List.concat_eq_append] at hl
    have hz := hlast z (by rw [hl, List.getLast?_concat])
    rw [hl] at ha h
    rcases List.mem_append.mp ha with ha | ha
    · have hlt := (List.pairwise_append.mp (List.pairwise_append.mp h).1).2.2 a ha z (by simp)
      exact cut.lower hlt.le hz
    · rw [List.mem_singleton.mp ha]
      exact hz
  have hnil : l₂.takeWhile (fun entry => cut.below (key entry)) = [] := by
    cases l₂ with
    | nil => rfl
    | cons b l => exact List.takeWhile_cons_of_neg (by simp [hfirst b rfl])
  have hbefore : before key cut (l₁ ++ l₂) = l₁ := by
    rw [before, List.takeWhile_append_of_pos hbelow, hnil, List.append_nil]
  refine ⟨hbefore, ?_⟩
  have hsplit := before_append_behind cut key (l₁ ++ l₂)
  rw [hbefore] at hsplit
  exact List.append_cancel_left hsplit

end Sorted

/-! ## A search on one level -/

section Level

variable {link : Option ε → Option ε} {l : List ε} {node : Option ε} {cut : Cut α}

/-- A node that the search may stand on. -/
def Passed (key : ε → α) (cut : Cut α) (l : List ε) (node : Option ε) : Prop :=
  ∀ a, node = some a → a ∈ l ∧ cut.below (key a) = true

theorem passed_head : Passed key cut l none := fun _ h => nomatch h

theorem Passed.mono {l' : List ε} (h : Passed key cut l node) (hsub : l ⊆ l') :
    Passed key cut l' node :=
  fun a ha => ⟨hsub (h a ha).1, (h a ha).2⟩

omit [LinearOrder α] in
theorem split_at_node (hchain : Links.Chain link none l) (hnode : ∀ a, node = some a → a ∈ l) :
    ∃ l₁ l₂, l = l₁ ++ l₂ ∧ node = l₁.getLast? ∧ link node = l₂.head? := by
  cases node with
  | none => exact ⟨[], l, rfl, rfl, hchain.head⟩
  | some a =>
    obtain ⟨l₁, l₂, rfl⟩ := List.append_of_mem (hnode a rfl)
    exact ⟨l₁ ++ [a], l₂, List.append_cons l₁ a l₂, List.getLast?_concat.symm, hchain.link_eq⟩

theorem link_mem (hchain : Links.Chain link none l) (hsorted : l.Pairwise (fun a b => key a < key b))
    (hnode : ∀ a, node = some a → a ∈ l) {b : ε} (hlink : link node = some b) :
    b ∈ l ∧ ∀ a, node = some a → key a < key b := by
  obtain ⟨l₁, l₂, rfl, hlast, hhead⟩ := split_at_node hchain hnode
  have hb : b ∈ l₂ := List.mem_of_mem_head? (hhead.symm.trans hlink)
  refine ⟨List.mem_append_right _ hb, fun a ha => ?_⟩
  have ha : a ∈ l₁ := List.mem_of_getLast? (hlast.symm.trans ha)
  exact (List.pairwise_append.mp hsorted).2.2 a ha b hb

theorem cut_at_node (hchain : Links.Chain link none l)
    (hsorted : l.Pairwise (fun a b => key a < key b)) (hpassed : Passed key cut l node)
    (hstop : ∀ b, link node = some b → cut.below (key b) = false) :
    node = (before key cut l).getLast? ∧ link node = (behind key cut l).head? := by
  obtain ⟨l₁, l₂, rfl, hlast, hhead⟩ := split_at_node hchain (fun a ha => (hpassed a ha).1)
  obtain ⟨hbefore, hbehind⟩ := cut_here cut hsorted
    (fun a ha => (hpassed a (hlast.trans ha)).2) (fun b hb => hstop b (hhead.trans hb))
  rw [hbefore, hbehind]
  exact ⟨hlast, hhead⟩

end Level

/-! ## Rounds of a search -/

section Rounds

variable [DecidableEq ε] {shared : Shared ε} {levels : Nat → List ε} {cut : Cut α} {find : Find ε}

/-- What a search knows on its way. -/
structure Find.Holds (key : ε → α) (levels : Nat → List ε) (cut : Cut α) (find : Find ε) : Prop where
  passed : Passed key cut (levels find.level) find.node
  notLess : ∀ a, find.lastNotLess = some a → cut.below (key a) = false

omit [DecidableEq ε] in
theorem Find.holds_start (level : Nat) : ({ level } : Find ε).Holds key levels cut :=
  ⟨passed_head, fun _ h => nomatch h⟩

omit [DecidableEq ε] in
theorem Find.Holds.mono {levels' : Nat → List ε} (h : find.Holds key levels cut)
    (hsub : ∀ level, levels level ⊆ levels' level) : find.Holds key levels' cut :=
  ⟨h.passed.mono (hsub _), h.notLess⟩

theorem Find.Holds.stop (h : find.Holds key levels cut) {next : Option ε}
    (hpasses : find.passes key cut next = false) :
    ∀ b, next = some b → cut.below (key b) = false := by
  rintro b rfl
  unfold Find.passes at hpasses
  by_cases hb : some b = find.lastNotLess
  · exact h.notLess b hb.symm
  · simpa [hb] using hpasses

theorem Find.Holds.round (h : find.Holds key levels cut) (hlevels : Levels key shared levels) :
    match find.round key cut (shared.next find.node find.level) with
    | .goOn after => after.Holds key levels cut ∧ after.level = find.level ∧
        ∃ b ∈ levels 0, after.node = some b ∧ ∀ a, find.node = some a → key a < key b
    | .descend after => after.Holds key levels cut ∧ find.level = after.level + 1 ∧
        after.node = find.node ∧
        find.node = (before key cut (levels find.level)).getLast?
    | .found next => find.level = 0 ∧ find.node = (before key cut (levels 0)).getLast? ∧
        next = (behind key cut (levels 0)).head? := by
  have hchain := hlevels.chain find.level
  have hsorted := hlevels.sorted find.level
  unfold Find.round
  cases hpasses : find.passes key cut (shared.next find.node find.level) with
  | true =>
    rw [if_pos rfl]
    dsimp only
    cases hnext : shared.next find.node find.level with
    | none => simp [hnext, Find.passes] at hpasses
    | some b =>
      obtain ⟨hb, hlt⟩ := link_mem hchain hsorted (fun a ha => (h.passed a ha).1) hnext
      rw [hnext] at hpasses
      have hbelow : cut.below (key b) = true := (Bool.and_eq_true_iff.mp hpasses).2
      refine ⟨⟨?_, h.notLess⟩, rfl, b, hlevels.subset_zero find.level hb, rfl, hlt⟩
      rintro c ⟨⟩
      exact ⟨hb, hbelow⟩
  | false =>
    rw [if_neg Bool.false_ne_true]
    have hstop := h.stop hpasses
    obtain ⟨hnode, hnext⟩ := cut_at_node hchain hsorted h.passed hstop
    by_cases hzero : find.level = 0
    · rw [if_pos hzero]
      dsimp only
      rw [hzero] at hnode hnext
      exact ⟨hzero, hnode, by rw [hzero]; exact hnext⟩
    · rw [if_neg hzero]
      dsimp only
      have hlevel : find.level = find.level - 1 + 1 := by omega
      refine ⟨⟨?_, hstop⟩, hlevel, rfl, hnode⟩
      refine h.passed.mono ?_
      have hsub := hlevels.subset (find.level - 1)
      rwa [← hlevel] at hsub

end Rounds
end ModernLevelDB.SkipList
