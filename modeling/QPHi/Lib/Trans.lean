import Mathlib.Logic.Relation

/-! Transition systems: the states that steps reach from the initial ones, and invariants of them. -/

namespace Trans
variable {σ : Type} {init : σ → Prop} {step step' : σ → σ → Prop} {s s' : σ}

/-- Some run leads to `s`. -/
def Reachable (init : σ → Prop) (step : σ → σ → Prop) (s : σ) : Prop :=
  ∃ s₀, init s₀ ∧ Relation.ReflTransGen step s₀ s

namespace Reachable

theorem start (h : init s) : Reachable init step s := ⟨s, h, .refl⟩

theorem tail (h : Reachable init step s) (hs : step s s') : Reachable init step s' := by
  obtain ⟨s₀, h₀, hrun⟩ := h
  exact ⟨s₀, h₀, hrun.tail hs⟩

/-- What holds initially and is kept by every step holds in every reachable state. -/
theorem invariant {Inv : σ → Prop} (h : Reachable init step s) (h₀ : ∀ s, init s → Inv s)
    (hs : ∀ s s', Inv s → step s s' → Inv s') : Inv s := by
  obtain ⟨s₀, hinit, hrun⟩ := h
  induction hrun with
  | refl => exact h₀ s₀ hinit
  | tail _ hstep ih => exact hs _ _ ih hstep

end Reachable

end Trans
