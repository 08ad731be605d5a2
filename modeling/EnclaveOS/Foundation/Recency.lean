import Mathlib.Data.List.Destutter

/-!
# Foundation - the most recent entries of a log

A log is kept with its newest entry in front.  What is shown of it are its newest entries, with
runs of equal ones merged.
-/

namespace EnclaveOS
namespace Recency

variable {α : Type*} [DecidableEq α]

/-- The newest `limit` entries of a log, where equal neighbours count once. -/
def recent (limit : Nat) (log : List α) : List α := (log.destutter (· ≠ ·)).take limit

variable {limit : Nat} {x : α} {log : List α}

@[simp]
theorem recent_nil : recent limit ([] : List α) = [] := by
  simp [recent]

theorem length_recent_le : (recent limit log).length ≤ limit :=
  List.length_take_le _ _

theorem head?_destutter' (a : α) (l : List α) : (l.destutter' (· ≠ ·) a).head? = some a := by
  induction l generalizing a with
  | nil => rfl
  | cons b l ih => by_cases h : a = b <;> simp [h, ih]

theorem head?_recent (hlimit : 0 < limit) : (recent limit log).head? = log.head? := by
  cases log with
  | nil => simp [recent]
  | cons a l => simp [recent, List.head?_take, hlimit.ne', List.destutter_cons', head?_destutter']

/-- An entry that equals the newest one. -/
theorem recent_cons_same (h : log.head? = some x) : recent limit (x :: log) = recent limit log := by
  cases log with
  | nil => cases h
  | cons a l =>
    obtain rfl : a = x := Option.some.inj h
    simp [recent, List.destutter_cons']

/-- An entry that is new. -/
theorem recent_cons_new (h : log.head? ≠ some x) :
    recent limit (x :: log) = (x :: recent limit log).take limit := by
  cases log with
  | nil => simp [recent]
  | cons a l =>
    have hne : x ≠ a := fun heq => h (congrArg some heq.symm)
    rw [recent, List.destutter_cons_cons, if_pos hne, recent, List.destutter_cons']
    cases limit with
    | zero => rfl
    | succ limit => simp [List.take_take]

theorem mem_recent_cons {y : α} (h : y ∈ recent limit (x :: log)) :
    y = x ∨ y ∈ recent limit log := by
  by_cases hsame : log.head? = some x
  · rw [recent_cons_same hsame] at h
    exact Or.inr h
  · rw [recent_cons_new hsame] at h
    exact List.mem_cons.mp (List.mem_of_mem_take h)

end Recency
end EnclaveOS
