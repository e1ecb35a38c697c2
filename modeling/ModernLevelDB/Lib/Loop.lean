import Mathlib.Logic.Relation

/-! # Loops

A round of a loop goes on with a new state or ends with a result. `Ends` are the loops that come to an
end, whatever a model that counts rounds would do. -/
namespace Loop
set_option autoImplicit false

variable {σ β : Type*}

/-- The loop from `s` comes to its end with `b`. -/
inductive Ends (body : σ → σ ⊕ β) : σ → β → Prop where
  | done {s : σ} {b : β} : body s = .inr b → Ends body s b
  | again {s s' : σ} {b : β} : body s = .inl s' → Ends body s' b → Ends body s b

theorem Ends.exists_last {body : σ → σ ⊕ β} {s : σ} {b : β} (h : Ends body s b) :
    ∃ last, Relation.ReflTransGen (fun s t => body s = .inl t) s last ∧ body last = .inr b := by
  induction h with
  | done h => exact ⟨_, .refl, h⟩
  | again h _ ih =>
    obtain ⟨last, hreach, hlast⟩ := ih
    exact ⟨last, .head h hreach, hlast⟩

/-- At most `fuel` rounds; `out` is what a loop that needs more of them returns. -/
def run (body : σ → σ ⊕ β) (out : σ → β) : Nat → σ → β
  | 0, s => out s
  | fuel + 1, s =>
      match body s with
      | .inl s' => run body out fuel s'
      | .inr b => b

/-- A round goes on with `Q` and a smaller measure, or ends the loop with `R`. -/
def Keeps (body : σ → σ ⊕ β) (measure : σ → Nat) (Q : σ → Prop) (R : β → Prop) : Prop :=
  ∀ s, Q s → (∃ s', body s = .inl s' ∧ Q s' ∧ measure s' < measure s) ∨ ∃ b, body s = .inr b ∧ R b

theorem Keeps.run {body : σ → σ ⊕ β} {measure : σ → Nat} {Q : σ → Prop} {R : β → Prop}
    (hkeeps : Keeps body measure Q R) (out : σ → β) {fuel : Nat} : ∀ {s : σ}, Q s →
    measure s < fuel → Ends body s (run body out fuel s) ∧ R (run body out fuel s) := by
  induction fuel with
  | zero => intro s _ h; omega
  | succ fuel ih =>
    intro s hQ h
    rw [Loop.run]
    rcases hkeeps s hQ with ⟨s', hbody, hQ', hless⟩ | ⟨b, hbody, hR⟩
    · rw [hbody]
      obtain ⟨hends, hR⟩ := ih hQ' (by omega)
      exact ⟨.again hbody hends, hR⟩
    · rw [hbody]
      exact ⟨.done hbody, hR⟩

theorem ends_run {body : σ → σ ⊕ β} {measure : σ → Nat}
    (hless : ∀ s s', body s = .inl s' → measure s' < measure s) (out : σ → β) {fuel : Nat} {s : σ}
    (h : measure s < fuel) : Ends body s (run body out fuel s) := by
  have hkeeps : Keeps body measure (fun _ => True) (fun _ => True) := by
    intro s _
    cases hbody : body s with
    | inl s' => exact .inl ⟨s', rfl, trivial, hless s s' hbody⟩
    | inr b => exact .inr ⟨b, rfl, trivial⟩
  exact (hkeeps.run out trivial h).1

end Loop
