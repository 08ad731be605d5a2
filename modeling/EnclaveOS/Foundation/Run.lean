import Mathlib.Tactic.TypeStar

/-!
# Foundation - runs of a partial step function

A system is a step function that may fail, together with the operations that its
environment can offer in a state.  The states, the operations and the failure
are arbitrary.
-/

namespace EnclaveOS

/-- States reached from `s₀` by steps that do not fail, each offered in the
state where it is taken. -/
inductive Reach {σ ι : Type*} (step : σ → ι → Option σ) (offered : σ → ι → Prop) (s₀ : σ) :
    σ → Prop
  | start : Reach step offered s₀ s₀
  | next {s s' : σ} {i : ι} (hs : Reach step offered s₀ s) (hi : offered s i)
      (h : step s i = some s') : Reach step offered s₀ s'

namespace Reach

variable {σ ι : Type*} {step : σ → ι → Option σ} {offered offered' : σ → ι → Prop} {s₀ s s' : σ}

/-- What holds at the start and is preserved by every offered step holds throughout. -/
theorem invariant {P : σ → Prop} (hstart : P s₀)
    (hstep : ∀ s i s', P s → offered s i → step s i = some s' → P s')
    (h : Reach step offered s₀ s) : P s := by
  induction h with
  | start => exact hstart
  | next _ hi hs ih => exact hstep _ _ _ ih hi hs

theorem mono (hle : ∀ s i, offered s i → offered' s i) (h : Reach step offered s₀ s) :
    Reach step offered' s₀ s := by
  induction h with
  | start => exact start
  | next _ hi hs ih => exact next ih (hle _ _ hi) hs

theorem trans (h : Reach step offered s₀ s) (h' : Reach step offered s s') :
    Reach step offered s₀ s' := by
  induction h' with
  | start => exact h
  | next _ hi hs ih => exact next ih hi hs

/-- A step function with the weights of its steps added up. -/
def weighed (step : σ → ι → Option σ) (weight : ι → Nat) (x : σ × Nat) (i : ι) :
    Option (σ × Nat) :=
  (step x.1 i).map fun s => (s, x.2 + weight i)

/-- A run whose steps are paid for by a budget weighs no more than what the budget loses. -/
theorem within_budget {P : σ → Prop} {budget : σ → Nat} {weight : ι → Nat} {x : σ × Nat}
    (hstart : P s₀)
    (hstep : ∀ s i s', P s → offered s i → step s i = some s' →
      P s' ∧ budget s' + weight i ≤ budget s)
    (h : Reach (weighed step weight) (fun x => offered x.1) (s₀, 0) x) :
    P x.1 ∧ budget x.1 + x.2 ≤ budget s₀ := by
  induction h with
  | start => exact ⟨hstart, Nat.le_refl _⟩
  | next _ hi hs ih =>
    obtain ⟨s', hs', rfl⟩ := Option.map_eq_some_iff.mp hs
    obtain ⟨hP, hpaid⟩ := hstep _ _ _ ih.1 hi hs'
    refine ⟨hP, ?_⟩
    dsimp only
    omega

end Reach
end EnclaveOS
