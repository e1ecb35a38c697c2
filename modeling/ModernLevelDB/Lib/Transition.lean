import Mathlib.Logic.Relation

/-! # Transition systems

A system is a set of initial states and a step relation. `Reachable` is the reflexive transitive
closure from an initial state, and the rules below are the only inductions over runs that the
component proofs use: an invariant holds initially and is kept by every step. -/
namespace Transition
set_option autoImplicit false

variable {σ : Type*} (init : σ → Prop) (step : σ → σ → Prop)

/-- What steps lead to from an initial state. -/
def Reachable (s : σ) : Prop := ∃ s₀, init s₀ ∧ Relation.ReflTransGen step s₀ s

variable {init step}

theorem Reachable.start {s : σ} (h : init s) : Reachable init step s := ⟨s, h, .refl⟩

theorem Reachable.next {s t : σ} (h : Reachable init step s) (hst : step s t) :
    Reachable init step t := by
  obtain ⟨s₀, h₀, hr⟩ := h
  exact ⟨s₀, h₀, hr.tail hst⟩

/-- The induction rule for runs: `P` may use that the state before a step is reachable. -/
theorem Reachable.induct {P : σ → Prop} (hinit : ∀ s, init s → P s)
    (hstep : ∀ s t, Reachable init step s → P s → step s t → P t) {s : σ}
    (h : Reachable init step s) : P s := by
  obtain ⟨s₀, h₀, hr⟩ := h
  induction hr with
  | refl => exact hinit s₀ h₀
  | tail hr hst ih => exact hstep _ _ ⟨s₀, h₀, hr⟩ ih hst

/-- An inductive invariant holds in every reachable state. -/
theorem Reachable.invariant {P : σ → Prop} (hinit : ∀ s, init s → P s)
    (hstep : ∀ s t, P s → step s t → P t) {s : σ} (h : Reachable init step s) : P s :=
  h.induct hinit (fun _ _ _ hP hst => hstep _ _ hP hst)

end Transition
