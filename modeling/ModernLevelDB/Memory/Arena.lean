import ModernLevelDB.Lib.Transition
import Mathlib

/-! # The arena (`memory/arena.h`)

Addresses are numbers, 0 is the null pointer, and `size_t` has 64 bits. What `new[]` answers is a
parameter of every call: the address of a block of the size that is asked for, or nothing where it
throws. `arena_allocates` is about all sequences of calls. -/
namespace ModernLevelDB
set_option autoImplicit false

/-- The bytes from `start` on. -/
structure MemoryRange where
  start : Nat
  size : Nat
deriving DecidableEq, Repr

namespace MemoryRange

/-- The ranges share no byte. -/
def Apart (a b : MemoryRange) : Prop := a.start + a.size ≤ b.start ∨ b.start + b.size ≤ a.start

/-- `a` lies within `b`. -/
def Inside (a b : MemoryRange) : Prop := b.start ≤ a.start ∧ a.start + a.size ≤ b.start + b.size

variable {a b c d : MemoryRange}

theorem Apart.symm (h : a.Apart b) : b.Apart a := Or.symm h

theorem Inside.refl (a : MemoryRange) : a.Inside a := ⟨Nat.le_refl _, Nat.le_refl _⟩

theorem Inside.trans (h : a.Inside b) (h' : b.Inside c) : a.Inside c :=
  ⟨Nat.le_trans h'.1 h.1, Nat.le_trans h.2 h'.2⟩

theorem Apart.mono (h : b.Apart d) (ha : a.Inside b) (hc : c.Inside d) : a.Apart c := by
  obtain ⟨hstart, hend⟩ := ha
  obtain ⟨hstart', hend'⟩ := hc
  rcases h with h | h
  · exact .inl (by omega)
  · exact .inr (by omega)

end MemoryRange

/-- `size_t` subtraction. -/
def sub64 (a b : Nat) : Nat := (a + (2 ^ 64 - b % 2 ^ 64)) % 2 ^ 64

theorem sub64_eq {a b : Nat} (hle : b ≤ a) (ha : a < 2 ^ 64) : sub64 a b = a - b := by
  unfold sub64
  omega

/-- The blocks are listed with the last one in front. -/
structure Arena where
  allocationPointer : Nat := 0
  bytesRemaining : Nat := 0
  blocks : List MemoryRange := []
  memoryUsage : Nat := 0
deriving DecidableEq, Repr

namespace Arena

def alignment : Nat := 8
def pointerSize : Nat := 8
def blockSize : Nat := 4 * 1024
def dedicatedAllocationThreshold : Nat := blockSize / 4

def alignmentPadding (pointer : Nat) : Nat :=
  if pointer = 0 then 0
  else
    let misalignment := pointer &&& (alignment - 1)
    if misalignment = 0 then 0 else alignment - misalignment

def canAllocateFromCurrentBlock (arena : Arena) (bytes padding : Nat) : Bool :=
  bytes ≤ sub64 arena.bytesRemaining padding

def shouldAllocateDedicated (bytes : Nat) : Bool := dedicatedAllocationThreshold < bytes

def allocateFromCurrentBlock (arena : Arena) (bytes padding : Nat) : Nat × Arena :=
  (arena.allocationPointer + padding, { arena with
    allocationPointer := arena.allocationPointer + (padding + bytes)
    bytesRemaining := sub64 arena.bytesRemaining (padding + bytes) })

section Calls

variable (new : Nat → Option Nat)

def allocateBlock (arena : Arena) (bytes : Nat) : Option (Nat × Arena) := do
  let block ← new bytes
  some (block, { arena with
    blocks := ⟨block, bytes⟩ :: arena.blocks
    memoryUsage := (arena.memoryUsage + (bytes + pointerSize)) % 2 ^ 64 })

def refillCurrentBlock (arena : Arena) : Option Arena := do
  let (block, arena) ← allocateBlock new arena blockSize
  some { arena with allocationPointer := block, bytesRemaining := blockSize }

def allocateFallback (arena : Arena) (bytes : Nat) : Option (Nat × Arena) :=
  if shouldAllocateDedicated bytes then allocateBlock new arena bytes
  else do
    let arena ← refillCurrentBlock new arena
    some (allocateFromCurrentBlock arena bytes 0)

def allocate (arena : Arena) (bytes : Nat) : Option (Nat × Arena) :=
  if bytes ≤ arena.bytesRemaining then some (allocateFromCurrentBlock arena bytes 0)
  else allocateFallback new arena bytes

def allocateAligned (arena : Arena) (bytes : Nat) : Option (Nat × Arena) :=
  let padding := alignmentPadding arena.allocationPointer
  if canAllocateFromCurrentBlock arena bytes padding then
    some (allocateFromCurrentBlock arena bytes padding)
  else allocateFallback new arena bytes

def call (aligned : Bool) (arena : Arena) (bytes : Nat) : Option (Nat × Arena) :=
  if aligned then allocateAligned new arena bytes else allocate new arena bytes

end Calls

/-! ## Sequences of calls -/

/-- What one block and the pointer to it take. -/
def charge (blocks : List MemoryRange) : Nat := (blocks.map fun b => b.size + pointerSize).sum

/-- What `new[]` returns: a block that is aligned and apart from the others. All blocks and the
pointers to them are in an address space of 64 bits. -/
structure Fresh (blocks : List MemoryRange) (block : MemoryRange) : Prop where
  nonnull : block.start ≠ 0
  aligned : alignment ∣ block.start
  apart : ∀ b ∈ blocks, block.Apart b
  fits : charge (block :: blocks) < 2 ^ 64

/-- What a call has returned. -/
structure Grant extends MemoryRange where
  aligned : Bool

/-- The arena and all that it has granted. -/
structure State where
  arena : Arena := {}
  grants : List Grant := []

/-- A call for a positive size, which throws or returns. -/
inductive Step : State → State → Prop
  | throws {s : State} {new : Nat → Option Nat} {aligned : Bool} {bytes : Nat}
      (h : call new aligned s.arena bytes = none) : Step s s
  | returns {s : State} {new : Nat → Option Nat} {aligned : Bool} {bytes start : Nat} {arena : Arena}
      (hnew : ∀ size block, new size = some block → Fresh s.arena.blocks ⟨block, size⟩)
      (hbytes : 0 < bytes ∧ bytes < 2 ^ 64)
      (h : call new aligned s.arena bytes = some (start, arena)) :
      Step s ⟨arena, ⟨⟨start, bytes⟩, aligned⟩ :: s.grants⟩

/-- What calls make of a new arena. -/
def Reachable : State → Prop := Transition.Reachable (· = {}) Step

/-! ## The invariant -/

def free (arena : Arena) : MemoryRange := ⟨arena.allocationPointer, arena.bytesRemaining⟩

/-- There is no current block, or its rest ends at a multiple of the alignment: that is why padding
never takes more than what is left. -/
inductive Current (arena : Arena) : Prop
  | none (pointer : arena.allocationPointer = 0) (remaining : arena.bytesRemaining = 0)
  | block (block : MemoryRange) (mem : block ∈ arena.blocks) (inside : arena.free.Inside block)
      (nonnull : arena.allocationPointer ≠ 0)
      (ends : alignment ∣ arena.allocationPointer + arena.bytesRemaining)
      (small : arena.bytesRemaining ≤ blockSize)

/-- Grants lie apart from one another within the blocks, and the counter has their sizes. -/
structure Inv (s : State) : Prop where
  current : Current s.arena
  apart : s.arena.blocks.Pairwise MemoryRange.Apart
  usage : s.arena.memoryUsage = charge s.arena.blocks
  inside : ∀ g ∈ s.grants, ∃ b ∈ s.arena.blocks, g.Inside b
  disjoint : s.grants.Pairwise fun g g' => g.toMemoryRange.Apart g'.toMemoryRange
  untouched : ∀ g ∈ s.grants, g.Apart s.arena.free
  aligned : ∀ g ∈ s.grants, g.aligned = true → alignment ∣ g.start

variable {arena : Arena} {s : State}

theorem alignmentPadding_eq {pointer : Nat} (h : pointer ≠ 0) :
    alignmentPadding pointer = (alignment - pointer % alignment) % alignment := by
  have hmask : pointer &&& (alignment - 1) = pointer % 8 := Nat.and_two_pow_sub_one_eq_mod pointer 3
  rw [alignmentPadding, if_neg h, hmask]
  simp only [alignment]
  split <;> omega

theorem Current.remaining_lt (h : Current arena) : arena.bytesRemaining < 2 ^ 64 := by
  cases h with
  | none _ hremaining => omega
  | block _ _ _ _ _ hsmall =>
    simp only [blockSize] at hsmall
    omega

theorem Current.padding_le (h : Current arena) :
    alignmentPadding arena.allocationPointer ≤ arena.bytesRemaining := by
  cases h with
  | none hpointer hremaining => simp [alignmentPadding, hpointer]
  | block _ _ _ hnonnull hends _ =>
    rw [alignmentPadding_eq hnonnull]
    simp only [alignment] at hends ⊢
    omega

theorem Current.apart_free (h : Current arena) {r : MemoryRange}
    (hr : ∀ b ∈ arena.blocks, r.Apart b) : r.Apart arena.free := by
  cases h with
  | none hpointer hremaining =>
    refine .inr ?_
    simp only [free, hpointer, hremaining]
    omega
  | block b hb hinside _ _ _ => exact (hr b hb).mono (.refl r) hinside

/-! ## What a call does -/

/-- A call takes from the current block, makes a block of its own, or begins a new current block. -/
inductive Returned (new : Nat → Option Nat) (aligned : Bool) (arena : Arena) (bytes start : Nat)
    (arena' : Arena) : Prop
  | current (padding : Nat) (fits : padding + bytes ≤ arena.bytesRemaining)
      (start_eq : start = arena.allocationPointer + padding)
      (lands : aligned = true → arena.allocationPointer ≠ 0 → alignment ∣ start)
      (result : arena' = { arena with
        allocationPointer := start + bytes
        bytesRemaining := arena.bytesRemaining - (padding + bytes) })
  | dedicated (large : dedicatedAllocationThreshold < bytes)
      (result : allocateBlock new arena bytes = some (start, arena'))
  | refilled (small : bytes ≤ dedicatedAllocationThreshold) (middle : Arena)
      (added : allocateBlock new arena blockSize = some (start, middle))
      (result : arena' = { middle with
        allocationPointer := start + bytes, bytesRemaining := blockSize - bytes })

variable {new : Nat → Option Nat} {aligned : Bool} {bytes start : Nat} {arena' : Arena}

theorem allocateFromCurrentBlock_eq {padding : Nat} (hcurrent : Current arena)
    (hfits : padding + bytes ≤ arena.bytesRemaining) :
    allocateFromCurrentBlock arena bytes padding = (arena.allocationPointer + padding, { arena with
      allocationPointer := arena.allocationPointer + padding + bytes
      bytesRemaining := arena.bytesRemaining - (padding + bytes) }) := by
  rw [allocateFromCurrentBlock, sub64_eq hfits hcurrent.remaining_lt, Nat.add_assoc]

theorem allocateFallback_returned (h : allocateFallback new arena bytes = some (start, arena')) :
    Returned new aligned arena bytes start arena' := by
  rw [allocateFallback] at h
  split at h
  · next hlarge => exact .dedicated (of_decide_eq_true hlarge) h
  · next hsmall =>
    have hle : bytes ≤ dedicatedAllocationThreshold :=
      Nat.le_of_not_lt fun hlt => hsmall (decide_eq_true hlt)
    obtain ⟨refilled, hrefill, h⟩ := Option.bind_eq_some_iff.mp h
    obtain ⟨⟨block, middle⟩, hblock, hrefill⟩ := Option.bind_eq_some_iff.mp hrefill
    cases hrefill
    have hsub : sub64 blockSize (0 + bytes) = blockSize - bytes := by
      simp only [dedicatedAllocationThreshold, blockSize] at hle ⊢
      rw [Nat.zero_add]
      exact sub64_eq (by omega) (by decide)
    rw [allocateFromCurrentBlock] at h
    dsimp only at h
    rw [hsub, Nat.zero_add, Nat.add_zero] at h
    cases h
    exact .refilled hle middle hblock rfl

theorem call_returned (hcurrent : Current arena) (h : call new aligned arena bytes = some (start, arena')) :
    Returned new aligned arena bytes start arena' := by
  rw [call] at h
  split at h
  · rw [allocateAligned] at h
    split at h
    · next hcan =>
      have hpadding := hcurrent.padding_le
      rw [canAllocateFromCurrentBlock, sub64_eq hpadding hcurrent.remaining_lt, decide_eq_true_eq] at hcan
      have hfits : alignmentPadding arena.allocationPointer + bytes ≤ arena.bytesRemaining := by omega
      rw [allocateFromCurrentBlock_eq hcurrent hfits] at h
      cases h
      refine .current _ hfits rfl (fun _ hnonnull => ?_) rfl
      rw [alignmentPadding_eq hnonnull]
      simp only [alignment]
      omega
    · exact allocateFallback_returned h
  · next hplain =>
    rw [allocate] at h
    split at h
    · next hfits =>
      rw [← Nat.zero_add bytes] at hfits
      rw [allocateFromCurrentBlock_eq hcurrent hfits] at h
      cases h
      exact .current 0 hfits rfl (fun haligned => absurd haligned hplain) rfl
    · exact allocateFallback_returned h

theorem allocateBlock_eq (h : allocateBlock new arena bytes = some (start, arena')) :
    new bytes = some start ∧ arena' = { arena with
      blocks := ⟨start, bytes⟩ :: arena.blocks
      memoryUsage := (arena.memoryUsage + (bytes + pointerSize)) % 2 ^ 64 } := by
  obtain ⟨block, hnew, h⟩ := Option.bind_eq_some_iff.mp h
  cases h
  exact ⟨hnew, rfl⟩

/-! ## Every call keeps the invariant -/

theorem Inv.apart_of_fresh (h : Inv s) {block r : MemoryRange} (hfresh : Fresh s.arena.blocks block)
    (hr : r.Inside block) {g : Grant} (hg : g ∈ s.grants) : r.Apart g.toMemoryRange := by
  obtain ⟨b, hb, hinside⟩ := h.inside g hg
  exact (hfresh.apart b hb).mono hr hinside

theorem Inv.usage_of_fresh (h : Inv s) (hfresh : Fresh s.arena.blocks ⟨start, bytes⟩) :
    (s.arena.memoryUsage + (bytes + pointerSize)) % 2 ^ 64 =
      charge (⟨start, bytes⟩ :: s.arena.blocks) := by
  have hcharge : charge (⟨start, bytes⟩ :: s.arena.blocks) =
      bytes + pointerSize + charge s.arena.blocks := List.sum_cons
  have hfits := hfresh.fits
  rw [h.usage, Nat.add_comm, ← hcharge, Nat.mod_eq_of_lt hfits]

theorem Current.add (h : Current arena) (block : MemoryRange) (usage : Nat) :
    Current { arena with blocks := block :: arena.blocks, memoryUsage := usage } := by
  cases h with
  | none hpointer hremaining => exact .none hpointer hremaining
  | block b hb hinside hnonnull hends hsmall =>
    exact .block b (List.mem_cons_of_mem _ hb) hinside hnonnull hends hsmall

theorem Inv.current_step (h : Inv s) {padding : Nat} (hbytes : 0 < bytes)
    (hfits : padding + bytes ≤ s.arena.bytesRemaining) (start_eq : start = s.arena.allocationPointer + padding)
    (lands : aligned = true → s.arena.allocationPointer ≠ 0 → alignment ∣ start) :
    Inv ⟨{ s.arena with
        allocationPointer := start + bytes
        bytesRemaining := s.arena.bytesRemaining - (padding + bytes) },
      ⟨⟨start, bytes⟩, aligned⟩ :: s.grants⟩ := by
  subst start_eq
  have hgrant : MemoryRange.Inside ⟨s.arena.allocationPointer + padding, bytes⟩ s.arena.free := by
    simp only [MemoryRange.Inside, free]
    omega
  have hfree : MemoryRange.Inside ⟨s.arena.allocationPointer + padding + bytes,
      s.arena.bytesRemaining - (padding + bytes)⟩ s.arena.free := by
    simp only [MemoryRange.Inside, free]
    omega
  cases h.current with
  | none _ hremaining => omega
  | block b hb hinside hnonnull hends hsmall =>
    refine ⟨.block b hb (hfree.trans hinside) ?_ ?_ ?_, h.apart, h.usage, ?_, ?_, ?_, ?_⟩
    · dsimp only
      omega
    · simp only [alignment] at hends ⊢
      omega
    · exact Nat.le_trans (Nat.sub_le _ _) hsmall
    · exact List.forall_mem_cons.mpr ⟨⟨b, hb, hgrant.trans hinside⟩, h.inside⟩
    · exact List.pairwise_cons.mpr
        ⟨fun g hg => ((h.untouched g hg).mono (.refl _) hgrant).symm, h.disjoint⟩
    · exact List.forall_mem_cons.mpr
        ⟨.inl (Nat.le_refl _), fun g hg => (h.untouched g hg).mono (.refl _) hfree⟩
    · exact List.forall_mem_cons.mpr ⟨fun haligned => lands haligned hnonnull, h.aligned⟩

theorem Inv.dedicated_step (h : Inv s) (hfresh : Fresh s.arena.blocks ⟨start, bytes⟩) :
    Inv ⟨{ s.arena with
        blocks := ⟨start, bytes⟩ :: s.arena.blocks
        memoryUsage := (s.arena.memoryUsage + (bytes + pointerSize)) % 2 ^ 64 },
      ⟨⟨start, bytes⟩, aligned⟩ :: s.grants⟩ := by
  refine ⟨h.current.add _ _, List.pairwise_cons.mpr ⟨hfresh.apart, h.apart⟩, h.usage_of_fresh hfresh,
    ?_, ?_, ?_, ?_⟩
  · refine List.forall_mem_cons.mpr ⟨⟨_, List.mem_cons_self, .refl _⟩, fun g hg => ?_⟩
    obtain ⟨b, hb, hinside⟩ := h.inside g hg
    exact ⟨b, List.mem_cons_of_mem _ hb, hinside⟩
  · exact List.pairwise_cons.mpr ⟨fun g hg => h.apart_of_fresh hfresh (.refl _) hg, h.disjoint⟩
  · exact List.forall_mem_cons.mpr ⟨h.current.apart_free hfresh.apart, h.untouched⟩
  · exact List.forall_mem_cons.mpr ⟨fun _ => hfresh.aligned, h.aligned⟩

theorem Inv.refilled_step (h : Inv s) (hbytes : bytes ≤ dedicatedAllocationThreshold)
    (hfresh : Fresh s.arena.blocks ⟨start, blockSize⟩) :
    Inv ⟨{ s.arena with
        allocationPointer := start + bytes
        bytesRemaining := blockSize - bytes
        blocks := ⟨start, blockSize⟩ :: s.arena.blocks
        memoryUsage := (s.arena.memoryUsage + (blockSize + pointerSize)) % 2 ^ 64 },
      ⟨⟨start, bytes⟩, aligned⟩ :: s.grants⟩ := by
  have hle : bytes ≤ blockSize := Nat.le_trans hbytes (by decide)
  have hgrant : MemoryRange.Inside ⟨start, bytes⟩ ⟨start, blockSize⟩ :=
    ⟨Nat.le_refl _, Nat.add_le_add_left hle _⟩
  have hfree : MemoryRange.Inside ⟨start + bytes, blockSize - bytes⟩ ⟨start, blockSize⟩ := by
    simp only [MemoryRange.Inside]
    omega
  have hnonnull := hfresh.nonnull
  have haligned := hfresh.aligned
  refine ⟨.block _ List.mem_cons_self hfree ?_ ?_ (Nat.sub_le _ _),
    List.pairwise_cons.mpr ⟨hfresh.apart, h.apart⟩, h.usage_of_fresh hfresh, ?_, ?_, ?_, ?_⟩
  · dsimp only at hnonnull ⊢
    omega
  · simp only [alignment, blockSize] at haligned hle ⊢
    omega
  · refine List.forall_mem_cons.mpr ⟨⟨_, List.mem_cons_self, hgrant⟩, fun g hg => ?_⟩
    obtain ⟨b, hb, hinside⟩ := h.inside g hg
    exact ⟨b, List.mem_cons_of_mem _ hb, hinside⟩
  · exact List.pairwise_cons.mpr ⟨fun g hg => h.apart_of_fresh hfresh hgrant hg, h.disjoint⟩
  · exact List.forall_mem_cons.mpr
      ⟨.inl (Nat.le_refl _), fun g hg => (h.apart_of_fresh hfresh hfree hg).symm⟩
  · exact List.forall_mem_cons.mpr ⟨fun _ => haligned, h.aligned⟩

theorem Inv.step {t : State} (h : Inv s) (hstep : Step s t) : Inv t := by
  cases hstep with
  | throws => exact h
  | returns hnew hbytes hcall =>
    cases call_returned h.current hcall with
    | current padding hfits hstart hlands hresult =>
      subst hresult
      exact h.current_step hbytes.1 hfits hstart hlands
    | dedicated _ hresult =>
      obtain ⟨hblock, rfl⟩ := allocateBlock_eq hresult
      exact h.dedicated_step (hnew _ _ hblock)
    | refilled hsmall middle hadded hresult =>
      obtain ⟨hblock, rfl⟩ := allocateBlock_eq hadded
      subst hresult
      exact h.refilled_step hsmall (hnew _ _ hblock)

theorem inv_start : Inv {} :=
  ⟨.none rfl rfl, .nil, rfl, by simp, .nil, by simp, by simp⟩

/-- After any calls, the ranges that were returned are apart, each inside a block, and aligned if that
was asked for; the subtraction of the padding does not wrap, the usage is what the blocks and their
pointers take, and a call that gets a block of its own leaves the current one as it is. -/
theorem arena_allocates {s : State} (h : Reachable s) :
    (s.grants.Pairwise fun g g' => g.toMemoryRange.Apart g'.toMemoryRange) ∧
    (∀ g ∈ s.grants, ∃ b ∈ s.arena.blocks, g.Inside b) ∧
    (∀ g ∈ s.grants, g.aligned = true → alignment ∣ g.start) ∧
    alignmentPadding s.arena.allocationPointer ≤ s.arena.bytesRemaining ∧
    s.arena.memoryUsage = (s.arena.blocks.map fun b => b.size + pointerSize).sum ∧
    ∀ (new : Nat → Option Nat) (aligned : Bool) (bytes start : Nat) (arena : Arena),
      call new aligned s.arena bytes = some (start, arena) →
        dedicatedAllocationThreshold < bytes → arena.blocks ≠ s.arena.blocks →
          arena.allocationPointer = s.arena.allocationPointer ∧
            arena.bytesRemaining = s.arena.bytesRemaining := by
  have hinv : Inv s := by
    refine h.invariant (fun s₀ h₀ => ?_) (fun s t hs hst => hs.step hst)
    rw [h₀]
    exact inv_start
  refine ⟨hinv.disjoint, hinv.inside, hinv.aligned, hinv.current.padding_le, hinv.usage, ?_⟩
  intro new aligned bytes start arena hcall hlarge hgrown
  cases call_returned hinv.current hcall with
  | current padding _ _ _ hresult =>
    rw [hresult] at hgrown
    exact absurd rfl hgrown
  | dedicated _ hresult =>
    obtain ⟨_, rfl⟩ := allocateBlock_eq hresult
    exact ⟨rfl, rfl⟩
  | refilled hsmall => omega

/-- One byte in a block at address 16, and 2000 bytes behind seven bytes of padding. -/
def paddedState : State where
  arena := { allocationPointer := 2024, bytesRemaining := 2088, blocks := [⟨16, 4096⟩], memoryUsage := 4104 }
  grants := [⟨⟨24, 2000⟩, true⟩, ⟨⟨16, 1⟩, false⟩]

theorem arena_allocates_padded :
    paddedState.arena.memoryUsage = (paddedState.arena.blocks.map fun b => b.size + pointerSize).sum := by
  have hfirst : Step {} ⟨⟨17, 4095, [⟨16, 4096⟩], 4104⟩, [⟨⟨16, 1⟩, false⟩]⟩ := by
    refine .returns (fun size block (hnew : (if size = 4096 then some 16 else none) = some block) => ?_)
      (by decide) rfl
    split at hnew
    · next hsize =>
      cases hnew
      subst hsize
      exact ⟨by decide, by decide, by simp, by decide⟩
    · cases hnew
  have hsecond : Step ⟨⟨17, 4095, [⟨16, 4096⟩], 4104⟩, [⟨⟨16, 1⟩, false⟩]⟩ paddedState :=
    .returns (fun size block (hnew : (fun _ => none) size = some block) => nomatch hnew) (by decide) rfl
  have hstart : Reachable {} := Transition.Reachable.start rfl
  exact (arena_allocates (Transition.Reachable.next (hstart.next hfirst) hsecond)).2.2.2.2.1

end Arena
end ModernLevelDB
