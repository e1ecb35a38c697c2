import Mathlib.Data.List.Sort
import Mathlib.Data.List.TakeWhile

/-! # Partitioned lists

A list whose order a predicate respects, in the sense that the predicate holds on an initial part of
it, splits there: `takeWhile` is that part and nothing after it satisfies the predicate. Binary
searches such as `partition_point` return the split. -/
namespace Partition
set_option autoImplicit false

variable {α : Type*} {r : α → α → Prop} {p : α → Bool} {l : List α}

theorem not_of_mem_dropWhile (hl : l.Pairwise r) (hp : ∀ a b, r a b → p b = true → p a = true)
    {x : α} (hx : x ∈ l.dropWhile p) : p x = false := by
  induction hl with
  | nil => simp at hx
  | @cons a l ha _ ih =>
    rw [List.dropWhile_cons] at hx
    split at hx
    · exact ih hx
    · next hpa =>
      rcases List.mem_cons.mp hx with rfl | hx
      · simpa using hpa
      · by_contra hpx
        exact hpa (hp a x (ha x hx) (by simpa using hpx))

theorem mem_dropWhile_of_not {x : α} (hx : x ∈ l) (hpx : p x = false) : x ∈ l.dropWhile p := by
  rw [← List.takeWhile_append_dropWhile (p := p) (l := l)] at hx
  rcases List.mem_append.mp hx with h | h
  · rw [List.mem_takeWhile_imp h] at hpx
    cases hpx
  · exact h

theorem countP_lt_countP {q : α → Bool} (hpq : ∀ x ∈ l, p x = true → q x = true) {a : α}
    (ha : a ∈ l) (hp : p a = false) (hq : q a = true) : l.countP p < l.countP q := by
  obtain ⟨before, after, rfl⟩ := List.append_of_mem ha
  have hbefore : before.countP p ≤ before.countP q :=
    List.countP_mono_left (fun x hx => hpq x (by simp [hx]))
  have hafter : after.countP p ≤ after.countP q :=
    List.countP_mono_left (fun x hx => hpq x (by simp [hx]))
  simp only [List.countP_append, List.countP_cons, hp, hq, if_true, if_false, Bool.false_eq_true]
  omega

/-! ## Lists in the order of a key -/

section Sorted

variable {β : Type*} [LinearOrder β] {key : α → β} {l' : List α}

theorem nodup_of_sorted (h : l.Pairwise (fun a b => key a < key b)) : l.Nodup :=
  h.imp (fun hlt heq => absurd (congrArg key heq) hlt.ne)

theorem sublist_of_sorted (h : l.Pairwise (fun a b => key a < key b))
    (h' : l'.Pairwise (fun a b => key a < key b)) (hsub : l ⊆ l') : l.Sublist l' := by
  have : Std.Antisymm (fun a b : α => key a < key b) :=
    ⟨fun _ _ hab hba => absurd hab hba.asymm⟩
  exact List.sublist_of_subperm_of_pairwise (List.subperm_of_subset (nodup_of_sorted h) hsub) h h'

end Sorted

end Partition
