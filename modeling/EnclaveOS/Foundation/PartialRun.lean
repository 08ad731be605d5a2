import Mathlib.Data.Set.Finite.Basic
import Mathlib.Data.Set.Finite.Range

/-!
# Foundation - runs of a partial step

A step that may stop, run again and again from a state.  Over finitely many states a run comes to
an end exactly when it comes to no state twice.
-/

namespace EnclaveOS

variable {σ : Type*} {step : σ → Option σ} {s t : σ}

/-- The state after some steps, if none of them has stopped. -/
def partialRun (step : σ → Option σ) (s : σ) : Nat → Option σ
  | 0 => some s
  | n + 1 => (partialRun step s n).bind step

@[simp] theorem partialRun_zero : partialRun step s 0 = some s := rfl

theorem partialRun_succ (n : Nat) : partialRun step s (n + 1) = (partialRun step s n).bind step :=
  rfl

/-- The first step of a run. -/
theorem partialRun_succ' (n : Nat) :
    partialRun step s (n + 1) = (step s).bind fun t => partialRun step t n := by
  induction n with
  | zero => cases h : step s <;> simp [partialRun, h]
  | succ n ih =>
    rw [partialRun_succ, ih, Option.bind_assoc]
    rfl

theorem partialRun_add {i : Nat} (h : partialRun step s i = some t) (k : Nat) :
    partialRun step s (i + k) = partialRun step t k := by
  induction k with
  | zero => exact h
  | succ k ih => rw [← Nat.add_assoc, partialRun_succ, ih, partialRun_succ]

/-- A run that has stopped stays there. -/
theorem partialRun_none_of_le {i j : Nat} (h : partialRun step s i = none) (hle : i ≤ j) :
    partialRun step s j = none := by
  induction j, hle using Nat.le_induction with
  | base => exact h
  | succ j _ ih => rw [partialRun_succ, ih, Option.bind_none]

/-- A run that comes to a state again goes on for ever. -/
theorem partialRun_ne_none {i j : Nat} (hij : i < j) (hi : partialRun step s i = some t)
    (hj : partialRun step s j = some t) (n : Nat) : partialRun step s n ≠ none := by
  -- the states from the first visit on come again and again
  have hback : ∀ n, partialRun step t n ≠ none := by
    intro n
    induction n using Nat.strong_induction_on with
    | _ n ih =>
      obtain ⟨k, rfl⟩ := Nat.exists_eq_add_of_lt hij
      rw [Nat.add_assoc, partialRun_add hi] at hj
      rcases Nat.lt_or_ge n (k + 1) with hlt | hge
      · intro hnone
        rw [partialRun_none_of_le hnone (Nat.le_of_lt hlt)] at hj
        cases hj
      · obtain ⟨m, rfl⟩ := Nat.exists_eq_add_of_le hge
        rw [partialRun_add hj]
        exact ih m (by omega)
  intro hnone
  rcases Nat.lt_or_ge n i with hlt | hge
  · rw [partialRun_none_of_le hnone (Nat.le_of_lt hlt)] at hi
    cases hi
  · obtain ⟨m, rfl⟩ := Nat.exists_eq_add_of_le hge
    rw [partialRun_add hi] at hnone
    exact hback m hnone

/-- Over finitely many states, a run ends exactly when it comes to no state twice. -/
theorem partialRun_ends_iff (hfinite : {t | ∃ n, partialRun step s n = some t}.Finite) :
    (∃ n, partialRun step s n = none) ↔
      ∀ i j t, i < j → partialRun step s i = some t → partialRun step s j ≠ some t := by
  constructor
  · rintro ⟨n, hn⟩ i j t hij hi hj
    exact partialRun_ne_none hij hi hj n hn
  · intro hfresh
    by_contra hnone
    have hsome : ∀ n, ∃ t, partialRun step s n = some t := fun n =>
      Option.ne_none_iff_exists'.mp fun h => hnone ⟨n, h⟩
    choose state hstate using hsome
    have hinj : Function.Injective state := by
      intro i j heq
      rcases Nat.lt_trichotomy i j with hlt | rfl | hlt
      · exact absurd (hstate j) (hfresh i j _ hlt (heq ▸ hstate i))
      · rfl
      · exact absurd (hstate i) (hfresh j i _ hlt (heq ▸ hstate j))
    exact Set.infinite_range_of_injective hinj
      (hfinite.subset (Set.range_subset_iff.mpr fun n => ⟨n, hstate n⟩))

end EnclaveOS
