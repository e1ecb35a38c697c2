import Mathlib.Data.Set.Finite.Lemmas

/-! # The newest visible element

A multi-version store keeps elements with a time, and a reader sees those that satisfy a predicate.
What it reads is the newest visible element of everything stored. Below: how that element is found
by searching sources from new to old, and when two stores give a reader the same answer although
they do not hold the same elements. -/
namespace Newest
set_option autoImplicit false

variable {α β σ : Type*} {time : α → ℕ} {p : α → Prop} {E F E' : Set α} {o o' : Option α}

/-- The newest element of `E` that satisfies `p`, or `none` when no element does. -/
def IsNewest (time : α → ℕ) (p : α → Prop) (E : Set α) : Option α → Prop
  | none => ∀ a ∈ E, ¬ p a
  | some a => a ∈ E ∧ p a ∧ ∀ b ∈ E, p b → time b ≤ time a

/-- Everything visible in `F` is newer than everything visible in `E`. -/
def Above (time : α → ℕ) (p : α → Prop) (F E : Set α) : Prop :=
  ∀ a ∈ F, ∀ b ∈ E, p a → p b → time b < time a

theorem IsNewest.congr (h : IsNewest time p E o) (hE : ∀ a, p a → (a ∈ E ↔ a ∈ E')) :
    IsNewest time p E' o := by
  cases o with
  | none => exact fun a ha hp => h a ((hE a hp).mpr ha) hp
  | some a =>
    obtain ⟨ha, hp, hmax⟩ := h
    exact ⟨(hE a hp).mp ha, hp, fun b hb hpb => hmax b ((hE b hpb).mpr hb) hpb⟩

theorem IsNewest.of_image {f : β → α} {G : Set β} {o : Option β}
    (h : IsNewest time p (Set.image f G) (o.map f)) (hmem : ∀ b ∈ o, b ∈ G) :
    IsNewest (fun b => time (f b)) (fun b => p (f b)) G o := by
  cases o with
  | none => exact fun b hb => h (f b) ⟨b, hb, rfl⟩
  | some b =>
    obtain ⟨_, hp, hmax⟩ := h
    exact ⟨hmem b rfl, hp, fun c hc hpc => hmax (f c) ⟨c, hc, rfl⟩ hpc⟩

theorem IsNewest.union_of_none (hF : IsNewest time p F none) (hE : IsNewest time p E o) :
    IsNewest time p (F ∪ E) o := by
  refine hE.congr (fun a hp => ⟨.inr, fun h => ?_⟩)
  exact h.resolve_left (fun ha => hF a ha hp)

theorem IsNewest.union_of_some {a : α} (hF : IsNewest time p F (some a))
    (habove : Above time p F E) : IsNewest time p (F ∪ E) (some a) := by
  obtain ⟨ha, hp, hmax⟩ := hF
  refine ⟨.inl ha, hp, ?_⟩
  rintro b (hb | hb) hpb
  · exact hmax b hb hpb
  · exact (habove a ha b hb hp hpb).le

theorem IsNewest.extend (h : IsNewest time p E o) (hsub : E ⊆ F)
    (hold : ∀ b ∈ F, p b → ∃ a ∈ E, p a ∧ time b ≤ time a) : IsNewest time p F o := by
  cases o with
  | none =>
    intro b hb hpb
    obtain ⟨a, ha, hpa, _⟩ := hold b hb hpb
    exact h a ha hpa
  | some a =>
    obtain ⟨ha, hpa, hmax⟩ := h
    refine ⟨hsub ha, hpa, fun b hb hpb => ?_⟩
    obtain ⟨c, hc, hpc, hbc⟩ := hold b hb hpb
    exact hbc.trans (hmax c hc hpc)

theorem exists_isNewest (time : α → ℕ) (p : α → Prop) (hE : E.Finite) :
    ∃ o, IsNewest time p E o := by
  by_cases h : ∃ a ∈ E, p a
  · obtain ⟨a, ha, hp⟩ := h
    obtain ⟨b, ⟨hb, hpb⟩, hmax⟩ := Set.exists_max_image {a ∈ E | p a} time
      (hE.subset (Set.sep_subset _ _)) ⟨a, ha, hp⟩
    exact ⟨some b, hb, hpb, fun c hc hpc => hmax c ⟨hc, hpc⟩⟩
  · exact ⟨none, fun a ha hp => h ⟨a, ha, hp⟩⟩

/-! ## Searching sources from new to old -/

theorem Above.le_newest (habove : Above time p F E) {a : α} (ha : IsNewest time p F (some a)) :
    ∀ b ∈ E, p b → time b ≤ time a :=
  fun b hb hpb => (habove a ha.1 b hb ha.2.1 hpb).le

/-- A search that stops at the first source with a visible element finds the newest one, when each
source answers for itself and no later source has anything newer than that answer. -/
theorem isNewest_findSome? (contents : σ → Set α) (lookup : σ → Option α) {sources : List σ}
    (hlookup : ∀ s ∈ sources, IsNewest time p (contents s) (lookup s))
    (hlater : sources.Pairwise (fun s t =>
      ∀ a, lookup s = some a → ∀ b ∈ contents t, p b → time b ≤ time a)) :
    IsNewest time p {a | ∃ s ∈ sources, a ∈ contents s} (sources.findSome? lookup) := by
  induction sources with
  | nil => rintro a ⟨s, hs, _⟩; simp at hs
  | cons s sources ih =>
    have hs := hlookup s (by simp)
    have hrest := ih (fun t ht => hlookup t (by simp [ht])) hlater.of_cons
    have hcontents : {a | ∃ t ∈ s :: sources, a ∈ contents t} =
        contents s ∪ {a | ∃ t ∈ sources, a ∈ contents t} := by
      ext a
      simp
    rw [hcontents]
    cases hl : lookup s with
    | none =>
      rw [hl] at hs
      rw [List.findSome?_cons, hl]
      exact hs.union_of_none hrest
    | some a =>
      rw [hl] at hs
      rw [List.findSome?_cons, hl]
      refine ⟨.inl hs.1, hs.2.1, ?_⟩
      rintro b (hb | ⟨t, ht, hb⟩) hpb
      · exact hs.2.2 b hb hpb
      · exact List.rel_of_pairwise_cons hlater ht a hl b hb hpb

/-! ## Stores that answer alike -/

/-- Whatever is newest in one set and in the other looks the same. -/
def Agree (time : α → ℕ) (p : α → Prop) (view : α → Option β) (E E' : Set α) : Prop :=
  ∀ o o', IsNewest time p E o → IsNewest time p E' o' → o.bind view = o'.bind view

end Newest
