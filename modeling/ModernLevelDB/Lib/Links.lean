import Mathlib.Data.List.Basic

/-! # Linked lists in a heap

A heap of pointers is a function from nodes to the nodes they point to. A path follows the pointers
through a list of nodes. Writing one pointer changes a path only where the node is on it. A ring is a
circular list with a head node, linked in both directions. -/
namespace Links
set_option autoImplicit false

variable {ν : Type*}

/-! ## Paths -/

/-- Following `next` from `start` passes these nodes and comes to `stop`. -/
def Path (next : ν → Option ν) : Option ν → List ν → Option ν → Prop
  | start, [], stop => start = stop
  | start, a :: l, stop => start = some a ∧ Path next (next a) l stop

variable {next next' : ν → Option ν} {start stop : Option ν} {l l₁ l₂ : List ν} {a b : ν}

theorem Path.congr (h : Path next start l stop) (heq : ∀ a ∈ l, next' a = next a) :
    Path next' start l stop := by
  induction l generalizing start with
  | nil => exact h
  | cons a l ih =>
    refine ⟨h.1, ?_⟩
    rw [heq a List.mem_cons_self]
    exact ih h.2 (fun b hb => heq b (List.mem_cons_of_mem _ hb))

theorem path_append : Path next start (l₁ ++ l₂) stop ↔
    ∃ middle, Path next start l₁ middle ∧ Path next middle l₂ stop := by
  induction l₁ generalizing start with
  | nil =>
    constructor
    · exact fun h => ⟨start, rfl, h⟩
    · rintro ⟨_, rfl, h⟩
      exact h
  | cons a l ih =>
    rw [List.cons_append]
    constructor
    · rintro ⟨hstart, h⟩
      obtain ⟨middle, hl, hrest⟩ := ih.mp h
      exact ⟨middle, ⟨hstart, hl⟩, hrest⟩
    · rintro ⟨middle, ⟨hstart, hl⟩, hrest⟩
      exact ⟨hstart, ih.mpr ⟨middle, hl, hrest⟩⟩

theorem Path.start_eq (h : Path next start l stop) : start = (l.head?).or stop := by
  cases l with
  | nil => exact h
  | cons a l => exact h.1

variable [DecidableEq ν]

theorem Path.redirect {head : ν} (h : Path next (next head) l stop) (hnodup : (head :: l).Nodup)
    (stop' : Option ν) :
    Path (Function.update next (l.getLastD head) stop')
      (Function.update next (l.getLastD head) stop' head) l stop' := by
  induction l generalizing head with
  | nil => exact Function.update_self _ _ _
  | cons a l ih =>
    obtain ⟨hnext, h⟩ := h
    have hne : head ≠ (a :: l).getLastD head := by
      intro heq
      have hmem : (a :: l).getLastD head ∈ a :: l := by
        rw [List.getLastD_cons]
        exact List.getLastD_mem_cons
      rw [← heq] at hmem
      exact (List.nodup_cons.mp hnodup).1 hmem
    rw [Function.update_of_ne hne, List.getLastD_cons]
    exact ⟨hnext, ih h (List.nodup_cons.mp hnodup).2⟩

theorem Path.update_of_notMem (h : Path next start l stop) (hnot : a ∉ l) (value : Option ν) :
    Path (Function.update next a value) start l stop := by
  refine h.congr (fun b hb => Function.update_of_ne ?_ _ _)
  rintro rfl
  exact hnot hb

theorem Path.bypass {head node : ν} (h₁ : Path next (next head) l₁ (some node))
    (h₂ : Path next (next node) l₂ stop) (hnodup : (head :: (l₁ ++ node :: l₂)).Nodup) :
    Path (Function.update (Function.update next (l₁.getLastD head) (next node)) node none)
      (Function.update (Function.update next (l₁.getLastD head) (next node)) node none head)
      (l₁ ++ l₂) stop := by
  have hlast : l₁.getLastD head ∈ head :: l₁ := List.getLastD_mem_cons
  have hhead : head ≠ node := by grind
  have hpath := h₁.redirect (hnodup.sublist (by simp)) (next node)
  have hrest : Path (Function.update next (l₁.getLastD head) (next node)) (next node) l₂ stop :=
    h₂.update_of_notMem (by grind) _
  rw [Function.update_of_ne hhead]
  exact (path_append.mpr ⟨_, hpath, hrest⟩).update_of_notMem (by grind) _

/-! ## Chains

A chain starts at a node and ends with an empty link. A node is named by its entry, and the head of a
chain, which has none, is the node `none`. -/

/-- The nodes behind `node`, to the end. -/
def Chain (link : Option ν → Option ν) : Option ν → List ν → Prop
  | node, [] => link node = none
  | node, a :: l => link node = some a ∧ Chain link (some a) l

/-- The first `n` nodes along the links behind `node`. -/
def follow (link : Option ν → Option ν) : Nat → Option ν → List ν
  | 0, _ => []
  | n + 1, node =>
      match link node with
      | none => []
      | some a => a :: follow link n (some a)

section Chain

variable {link link' : Option ν → Option ν} {node : Option ν}

omit [DecidableEq ν] in
theorem Chain.head (h : Chain link node l) : link node = l.head? := by
  cases l with
  | nil => exact h
  | cons a l => exact h.1

omit [DecidableEq ν] in
theorem Chain.behind (h : Chain link node (l₁ ++ l₂)) : Chain link (l₁.getLast?.or node) l₂ := by
  induction l₁ generalizing node with
  | nil => exact h
  | cons a l ih =>
    have hlast := ih h.2
    cases l with
    | nil => exact hlast
    | cons b l => exact hlast

omit [DecidableEq ν] in
theorem Chain.link_eq (h : Chain link node (l₁ ++ a :: l₂)) : link (some a) = l₂.head? := by
  rw [List.append_cons] at h
  have hbehind := h.behind
  rw [List.getLast?_concat, Option.some_or] at hbehind
  exact hbehind.head

omit [DecidableEq ν] in
theorem Chain.congr_links (h : Chain link node l) (hnode : link' node = link node)
    (heq : ∀ a ∈ l, link' (some a) = link (some a)) : Chain link' node l := by
  induction l generalizing node with
  | nil => exact hnode.trans h
  | cons a l ih =>
    refine ⟨hnode.trans h.1, ih h.2 (heq a (by simp)) (fun b hb => heq b (by simp [hb]))⟩

omit [DecidableEq ν] in
theorem Chain.follow_eq (h : Chain link node l) {n : Nat} (hn : l.length ≤ n) :
    follow link n node = l := by
  induction l generalizing node n with
  | nil =>
    cases n with
    | zero => rfl
    | succ n =>
      rw [follow, show link node = none from h]
  | cons a l ih =>
    cases n with
    | zero => cases hn
    | succ n =>
      rw [follow, h.1]
      exact congrArg (a :: ·) (ih h.2 (Nat.le_of_succ_le_succ hn))

theorem Chain.update_of_notMem (h : Chain link none l) (hnot : a ∉ l) (value : Option ν) :
    Chain (Function.update link (some a) value) none l := by
  refine h.congr_links (Function.update_of_ne (by simp) _ _) (fun b hb => ?_)
  refine Function.update_of_ne ?_ _ _
  rintro ⟨⟩
  exact hnot hb

theorem Chain.splice (h : Chain link node (l₁ ++ l₂)) (hnodup : (l₁ ++ l₂).Nodup)
    (hnode : ∀ a ∈ l₁ ++ l₂, node ≠ some a) (hnot : a ∉ l₁ ++ l₂) (hne : node ≠ some a)
    (ha : link (some a) = l₂.head?) :
    Chain (Function.update link (l₁.getLast?.or node) (some a)) node (l₁ ++ a :: l₂) := by
  induction l₁ generalizing node with
  | nil =>
    refine ⟨Function.update_self _ _ _, ?_⟩
    have hl₂ : Chain link (some a) l₂ := by
      cases l₂ with
      | nil => exact ha
      | cons b l => exact ⟨ha, h.2⟩
    refine hl₂.congr_links (Function.update_of_ne hne.symm _ _) (fun b hb => ?_)
    exact Function.update_of_ne (hnode b hb).symm _ _
  | cons b l ih =>
    have hrest := ih h.2 (List.nodup_cons.mp hnodup).2
      (fun c hc heq => (List.nodup_cons.mp hnodup).1 (Option.some.inj heq ▸ hc))
      (fun hc => hnot (List.mem_cons_of_mem _ hc))
      (fun heq => hnot (Option.some.inj heq ▸ List.mem_cons_self))
    have hlast : (b :: l).getLast?.or node = l.getLast?.or (some b) := by
      cases l <;> rfl
    have hmem : ∃ c ∈ b :: l ++ l₂, l.getLast?.or (some b) = some c := by
      cases hl : l.getLast? with
      | none => exact ⟨b, by simp, rfl⟩
      | some c => exact ⟨c, by simp [List.mem_of_getLast? hl], rfl⟩
    obtain ⟨c, hc, hlastc⟩ := hmem
    rw [hlast]
    refine ⟨?_, hrest⟩
    rw [Function.update_of_ne (hlastc ▸ hnode c hc)]
    exact h.1

end Chain

/-! ## Rings -/

/-- The two pointers of every node. -/
structure Heap (ν : Type*) where
  next : ν → Option ν
  previous : ν → Option ν

namespace Heap

/-- Takes a node out of its ring. -/
def remove (node : ν) (heap : Heap ν) : Heap ν :=
  match heap.next node, heap.previous node with
  | some after, some before =>
      { next := Function.update (Function.update heap.next before (some after)) node none
        previous := Function.update (Function.update heap.previous after (some before)) node none }
  | _, _ => heap

/-- Puts a node into a ring, before its head. -/
def append (head node : ν) (heap : Heap ν) : Heap ν :=
  match heap.previous head with
  | some last =>
      { next := Function.update (Function.update heap.next node (some head)) last (some node)
        previous := Function.update (Function.update heap.previous node (some last)) head (some node) }
  | none => heap

end Heap

/-- A circular list in both directions; `head` is its sentinel. -/
structure Ring (heap : Heap ν) (head : ν) (l : List ν) : Prop where
  next : Path heap.next (heap.next head) l (some head)
  previous : Path heap.previous (heap.previous head) l.reverse (some head)
  nodup : (head :: l).Nodup

section Ring

variable {heap heap' : Heap ν} {head head' node : ν} {l' : List ν}

omit [DecidableEq ν] in
theorem Ring.congr (h : Ring heap head l) (hnext : ∀ a ∈ head :: l, heap'.next a = heap.next a)
    (hprevious : ∀ a ∈ head :: l, heap'.previous a = heap.previous a) : Ring heap' head l where
  next := by
    rw [hnext head List.mem_cons_self]
    exact h.next.congr (fun a ha => hnext a (List.mem_cons_of_mem _ ha))
  previous := by
    rw [hprevious head List.mem_cons_self]
    exact h.previous.congr (fun a ha => hprevious a (List.mem_cons_of_mem _ (List.mem_reverse.mp ha)))
  nodup := h.nodup

omit [DecidableEq ν] in
theorem Ring.neighbours (h : Ring heap head (l₁ ++ node :: l₂)) :
    heap.next node = some (l₂.reverse.getLastD head) ∧
      heap.previous node = some (l₁.getLastD head) := by
  obtain ⟨_, _, _, hnext⟩ := path_append.mp h.next
  have hprevious := h.previous
  rw [List.reverse_append, List.reverse_cons, List.append_assoc, List.singleton_append] at hprevious
  obtain ⟨_, _, _, hprevious⟩ := path_append.mp hprevious
  rw [hnext.start_eq, hprevious.start_eq]
  constructor
  · rw [List.getLastD_eq_getLast?, List.getLast?_reverse]
    cases l₂.head? <;> rfl
  · rw [List.getLastD_eq_getLast?, List.head?_reverse]
    cases l₁.getLast? <;> rfl

omit [DecidableEq ν] in
theorem Ring.last (h : Ring heap head l) : heap.previous head = some (l.getLastD head) := by
  rw [h.previous.start_eq, List.getLastD_eq_getLast?, List.head?_reverse]
  cases l.getLast? <;> rfl

theorem Ring.remove (h : Ring heap head (l₁ ++ node :: l₂)) :
    Ring (heap.remove node) head (l₁ ++ l₂) := by
  obtain ⟨hafter, hbefore⟩ := h.neighbours
  obtain ⟨_, hnext₁, rfl, hnext₂⟩ := path_append.mp h.next
  have hprevious := h.previous
  have hreverse : (l₁ ++ node :: l₂).reverse = l₂.reverse ++ node :: l₁.reverse := by simp
  rw [hreverse] at hprevious
  obtain ⟨_, hprevious₂, rfl, hprevious₁⟩ := path_append.mp hprevious
  have hremove : heap.remove node =
      { next := Function.update (Function.update heap.next (l₁.getLastD head) (heap.next node)) node none
        previous := Function.update
          (Function.update heap.previous (l₂.reverse.getLastD head) (heap.previous node)) node none } := by
    unfold Heap.remove
    rw [hafter, hbefore]
  rw [hremove]
  refine ⟨hnext₁.bypass hnext₂ h.nodup, ?_, ?_⟩
  · rw [List.reverse_append]
    refine hprevious₂.bypass hprevious₁ (List.nodup_cons.mpr ⟨?_, ?_⟩)
    · rw [← hreverse, List.mem_reverse]
      exact (List.nodup_cons.mp h.nodup).1
    · rw [← hreverse]
      exact (List.reverse_perm _).nodup_iff.mpr (List.nodup_cons.mp h.nodup).2
  · exact h.nodup.sublist (by simp)

theorem Ring.append (h : Ring heap head l) (hnode : node ∉ head :: l) :
    Ring (heap.append head node) head (l ++ [node]) := by
  have hne : node ≠ head := fun heq => hnode (heq ▸ List.mem_cons_self)
  have hmem : node ∉ l := fun hm => hnode (List.mem_cons_of_mem _ hm)
  have hhead : head ∉ l := (List.nodup_cons.mp h.nodup).1
  have happend : heap.append head node =
      { next := Function.update (Function.update heap.next node (some head)) (l.getLastD head)
          (some node)
        previous := Function.update (Function.update heap.previous node (heap.previous head)) head
          (some node) } := by
    unfold Heap.append
    rw [h.last]
  rw [happend]
  refine ⟨?_, ?_, ?_⟩
  · have hlast : node ≠ l.getLastD head := fun heq => hnode (heq ▸ List.getLastD_mem_cons)
    have hpath : Path (Function.update heap.next node (some head))
        (Function.update heap.next node (some head) head) l (some head) := by
      rw [Function.update_of_ne hne.symm]
      exact h.next.update_of_notMem hmem _
    refine path_append.mpr ⟨_, hpath.redirect h.nodup (some node), rfl, ?_⟩
    show Function.update (Function.update heap.next node (some head)) _ _ node = some head
    rw [Function.update_of_ne hlast, Function.update_self]
  · rw [List.reverse_append, List.reverse_singleton, List.singleton_append]
    refine ⟨Function.update_self _ _ _, ?_⟩
    simp only
    rw [Function.update_of_ne hne, Function.update_self]
    refine (h.previous.update_of_notMem ?_ _).update_of_notMem ?_ _
    · rwa [List.mem_reverse]
    · rwa [List.mem_reverse]
  · have hperm : (node :: head :: l).Perm (head :: (l ++ [node])) :=
      (List.Perm.swap _ _ _).trans ((List.perm_append_singleton node l).symm.cons head)
    exact hperm.nodup_iff.mp (List.nodup_cons.mpr ⟨hnode, h.nodup⟩)

theorem Ring.remove_other (h : Ring heap head (l₁ ++ node :: l₂)) (h' : Ring heap head' l')
    (hdisjoint : ∀ a ∈ head' :: l', a ∉ head :: (l₁ ++ node :: l₂)) :
    Ring (heap.remove node) head' l' := by
  obtain ⟨hafter, hbefore⟩ := h.neighbours
  have hbeforeMem : l₁.getLastD head ∈ head :: l₁ := List.getLastD_mem_cons
  have hafterMem : l₂.reverse.getLastD head ∈ head :: l₂.reverse := List.getLastD_mem_cons
  unfold Heap.remove
  rw [hafter, hbefore]
  refine h'.congr (fun a ha => ?_) (fun a ha => ?_)
  all_goals
    have hnot := hdisjoint a ha
    simp only
    rw [Function.update_of_ne (by grind), Function.update_of_ne (by grind)]

theorem Ring.append_other (h : Ring heap head l) (h' : Ring heap head' l') (hnode : node ∉ head' :: l')
    (hdisjoint : ∀ a ∈ head' :: l', a ∉ head :: l) : Ring (heap.append head node) head' l' := by
  have hlastMem : l.getLastD head ∈ head :: l := List.getLastD_mem_cons
  unfold Heap.append
  rw [h.last]
  refine h'.congr (fun a ha => ?_) (fun a ha => ?_)
  all_goals
    have hnot := hdisjoint a ha
    simp only
    rw [Function.update_of_ne (by grind), Function.update_of_ne (by grind)]

end Ring

/-! ## Two rings in one heap -/

/-- Two circular lists that share no node. -/
structure Rings (heap : Heap ν) (a : ν) (l : List ν) (b : ν) (l' : List ν) : Prop where
  first : Ring heap a l
  second : Ring heap b l'
  disjoint : ∀ node ∈ a :: l, node ∉ b :: l'

section Rings

variable {heap : Heap ν} {l' : List ν} {node : ν}

omit [DecidableEq ν] in
theorem Rings.symm (h : Rings heap a l b l') : Rings heap b l' a l :=
  ⟨h.second, h.first, fun node hnode hmem => h.disjoint node hmem hnode⟩

theorem Rings.remove (h : Rings heap a l b l') (hnode : node ∈ l) :
    Rings (heap.remove node) a (l.erase node) b l' := by
  obtain ⟨l₁, l₂, _, rfl, herase⟩ := List.exists_erase_eq hnode
  rw [herase]
  refine ⟨h.first.remove, h.first.remove_other h.second ?_, fun x hx => h.disjoint x ?_⟩
  · exact fun x hx hmem => h.disjoint x hmem hx
  · simp only [List.mem_cons, List.mem_append] at hx ⊢
    tauto

theorem Rings.append (h : Rings heap a l b l') (hnode : node ∉ a :: l) (hnode' : node ∉ b :: l') :
    Rings (heap.append a node) a (l ++ [node]) b l' := by
  refine ⟨h.first.append hnode, h.first.append_other h.second hnode' ?_, fun x hx => ?_⟩
  · exact fun x hx hmem => h.disjoint x hmem hx
  · rw [← List.cons_append] at hx
    rcases List.mem_append.mp hx with hx | hx
    · exact h.disjoint x hx
    · rwa [List.mem_singleton.mp hx]

end Rings

end Links
