import Mathlib.Data.Set.Insert

/-! # Overlapping intervals

Items that occupy closed intervals of a linear order, and sets of items that hang together by
overlaps. Such a set leaves no gap: an interval that meets its hull meets a member, and one that
meets no member lies on one side of all of them. -/
namespace Overlap
set_option autoImplicit false

variable {ι τ : Type*} [LinearOrder τ] {lo hi : ι → τ} {I J : Set ι} {a b : ι}

/-- The two closed intervals have a common point. -/
def Meets (lo hi : ι → τ) (a b : ι) : Prop := lo a ≤ hi b ∧ lo b ≤ hi a

theorem Meets.symm (h : Meets lo hi a b) : Meets lo hi b a := ⟨h.2, h.1⟩

theorem meets_self (h : lo a ≤ hi a) : Meets lo hi a a := ⟨h, h⟩

/-- Whichever way the set is split in two, an overlap crosses the split. -/
def Connected (lo hi : ι → τ) (I : Set ι) : Prop :=
  ∀ P : ι → Prop, (∃ a ∈ I, P a) → (∃ b ∈ I, ¬ P b) →
    ∃ a ∈ I, ∃ b ∈ I, P a ∧ ¬ P b ∧ Meets lo hi a b

theorem connected_singleton (a : ι) : Connected lo hi {a} := by
  rintro P ⟨b, rfl, hb⟩ ⟨c, rfl, hc⟩
  exact absurd hb hc

theorem Connected.union (h : Connected lo hi I) (hJ : ∀ b ∈ J, ∃ a ∈ I, Meets lo hi a b) :
    Connected lo hi (I ∪ J) := by
  intro P hP hnot
  by_cases hsplit : (∃ a ∈ I, P a) ∧ ∃ b ∈ I, ¬ P b
  · obtain ⟨a, ha, b, hb, hcross⟩ := h P hsplit.1 hsplit.2
    exact ⟨a, .inl ha, b, .inl hb, hcross⟩
  -- All of `I` is on one side, so the other side has an added item, which overlaps a member.
  obtain ⟨a, ha, hPa⟩ := hP
  obtain ⟨b, hb, hPb⟩ := hnot
  rcases not_and_or.mp hsplit with hnone | hall
  · rcases ha with ha | ha
    · exact absurd ⟨a, ha, hPa⟩ hnone
    · obtain ⟨c, hc, hmeet⟩ := hJ a ha
      exact ⟨a, .inr ha, c, .inl hc, hPa, fun hPc => hnone ⟨c, hc, hPc⟩, hmeet.symm⟩
  · rcases hb with hb | hb
    · exact absurd ⟨b, hb, hPb⟩ hall
    · obtain ⟨c, hc, hmeet⟩ := hJ b hb
      refine ⟨c, .inl hc, b, .inr hb, ?_, hPb, hmeet⟩
      by_contra hPc
      exact hall ⟨c, hc, hPc⟩

theorem Connected.insert (h : Connected lo hi I) (ha : a ∈ I) (hab : Meets lo hi a b) :
    Connected lo hi (insert b I) := by
  rw [← Set.union_singleton]
  refine h.union ?_
  rintro _ rfl
  exact ⟨a, ha, hab⟩

theorem Connected.side (h : Connected lo hi I) (hb : lo b ≤ hi b)
    (hmeets : ∀ a ∈ I, ¬ Meets lo hi a b) :
    (∀ a ∈ I, hi a < lo b) ∨ ∀ a ∈ I, hi b < lo a := by
  have hright : ∀ a ∈ I, ¬ hi a < lo b → hi b < lo a := by
    intro a ha hleft
    rw [not_lt] at hleft
    by_contra hge
    exact hmeets a ha ⟨not_lt.mp hge, hleft⟩
  by_contra hsides
  rw [not_or] at hsides
  simp only [not_forall] at hsides
  obtain ⟨⟨x, hx, hxleft⟩, y, hy, hyright⟩ := hsides
  have hyleft : hi y < lo b := by
    by_contra hyleft
    exact hyright (hright y hy hyleft)
  obtain ⟨c, hc, d, hd, hcleft, hdleft, hcross⟩ :=
    h (fun a => hi a < lo b) ⟨y, hy, hyleft⟩ ⟨x, hx, hxleft⟩
  have : hi b < lo b := (hright d hd hdleft).trans (hcross.2.trans_lt hcleft)
  exact absurd hb this.not_ge

theorem Connected.meets (h : Connected lo hi I) (hb : lo b ≤ hi b) (hlo : ∃ a ∈ I, lo a ≤ hi b)
    (hhi : ∃ a ∈ I, lo b ≤ hi a) : ∃ a ∈ I, Meets lo hi a b := by
  by_contra hnone
  simp only [not_exists, not_and] at hnone
  obtain ⟨x, hx, hxb⟩ := hlo
  obtain ⟨y, hy, hby⟩ := hhi
  rcases h.side hb (fun a ha => hnone a ha) with hleft | hright
  · exact absurd (hleft y hy) hby.not_gt
  · exact absurd (hright x hx) hxb.not_gt

end Overlap
