import Mathlib.Logic.Relation

/-! Transition systems. A state is reached when steps lead to it from an initial one. -/
namespace Transition

open Relation

variable {σ : Type} {init init' I : σ → Prop} {step step' : σ → σ → Prop} {s s' : σ}

/-- The states that are reached from the initial ones. -/
def Reach (init : σ → Prop) (step : σ → σ → Prop) (s : σ) : Prop :=
  ∃ s₀, init s₀ ∧ ReflTransGen step s₀ s

namespace Reach

theorem start (h : init s) : Reach init step s := ⟨s, h, .refl⟩

theorem next (h : Reach init step s) (hStep : step s s') : Reach init step s' := by
  obtain ⟨s₀, hInit, hSteps⟩ := h
  exact ⟨s₀, hInit, hSteps.tail hStep⟩

/-- An invariant holds at first and after every step. -/
theorem invariant (h : Reach init step s) (hInit : ∀ s, init s → I s)
    (hStep : ∀ s s', I s → step s s' → I s') : I s := by
  obtain ⟨s₀, hFirst, hSteps⟩ := h
  induction hSteps with
  | refl => exact hInit s₀ hFirst
  | tail _ last ih => exact hStep _ _ ih last

theorem mono (h : Reach init step s) (hMore : ∀ s s', step s s' → step' s s') : Reach init step' s := by
  obtain ⟨s₀, hInit, hSteps⟩ := h
  exact ⟨s₀, hInit, ReflTransGen.mono hMore s₀ s hSteps⟩

end Reach

end Transition
