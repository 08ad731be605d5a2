import Mathlib.Tactic.TypeStar

/-!
# Foundation - scans with an early result

A scan reads the items of a list one after the other.  An item changes the state of the
scan, ends it with a result, or does something that the state does not allow.  The items,
the states and the results are arbitrary.
-/

namespace EnclaveOS

/-- What a step of a scan leads to. -/
inductive Scan (σ α : Type*)
  /-- The scan goes on. -/
  | next (s : σ)
  /-- The scan has its result. -/
  | done (a : α)
  /-- The step left the memory of the scan. -/
  | overrun

namespace Scan

variable {σ α : Type*}

/-- What comes after a step. -/
def andThen : Scan σ α → (σ → Scan σ α) → Scan σ α
  | next s, f => f s
  | done a, _ => done a
  | overrun, _ => overrun

@[simp] theorem next_andThen (s : σ) (f : σ → Scan σ α) : (next s).andThen f = f s := rfl

@[simp] theorem done_andThen (a : α) (f : σ → Scan σ α) : (done a).andThen f = done a := rfl

@[simp] theorem overrun_andThen (f : σ → Scan σ α) :
    (overrun : Scan σ α).andThen f = overrun := rfl

theorem andThen_assoc (x : Scan σ α) (f g : σ → Scan σ α) :
    (x.andThen f).andThen g = x.andThen fun s => (f s).andThen g := by
  cases x <;> rfl

theorem andThen_eq_next {x : Scan σ α} {f : σ → Scan σ α} {s' : σ} :
    x.andThen f = next s' ↔ ∃ s, x = next s ∧ f s = next s' := by
  cases x <;> simp [andThen]

end Scan

section List

variable {ε σ α : Type*} {step : ε → σ → Scan σ α}

/-- The scan of a list. -/
def scanList (step : ε → σ → Scan σ α) : List ε → σ → Scan σ α
  | [], s => .next s
  | e :: es, s => (step e s).andThen (scanList step es)

@[simp] theorem scanList_nil (s : σ) : scanList step [] s = .next s := rfl

@[simp] theorem scanList_cons (e : ε) (es : List ε) (s : σ) :
    scanList step (e :: es) s = (step e s).andThen (scanList step es) := rfl

theorem scanList_append (es es' : List ε) (s : σ) :
    scanList step (es ++ es') s = (scanList step es s).andThen (scanList step es') := by
  induction es generalizing s with
  | nil => rfl
  | cons e es ih =>
    rw [List.cons_append, scanList_cons, scanList_cons, Scan.andThen_assoc]
    congr
    funext s'
    exact ih s'

/-- A scan that overruns does so at one of its items. -/
theorem scanList_eq_overrun_iff {es : List ε} {s : σ} :
    scanList step es s = .overrun ↔ ∃ pre e post s', es = pre ++ e :: post ∧
      scanList step pre s = .next s' ∧ step e s' = .overrun := by
  constructor
  · intro h
    induction es generalizing s with
    | nil => cases h
    | cons e es ih =>
      rw [scanList_cons] at h
      cases hstep : step e s with
      | next s₁ =>
        rw [hstep] at h
        obtain ⟨pre, e', post, s', rfl, hpre, he'⟩ := ih h
        exact ⟨e :: pre, e', post, s', rfl, by rw [scanList_cons, hstep]; exact hpre, he'⟩
      | done a =>
        rw [hstep] at h
        cases h
      | overrun => exact ⟨[], e, es, s, rfl, rfl, hstep⟩
  · rintro ⟨pre, e, post, s', rfl, hpre, he⟩
    rw [scanList_append, hpre, Scan.next_andThen, scanList_cons, he, Scan.overrun_andThen]

/-- A result is the one of an item. -/
theorem exists_of_scanList_done {es : List ε} {s : σ} {a : α} (h : scanList step es s = .done a) :
    ∃ e ∈ es, ∃ s', step e s' = .done a := by
  induction es generalizing s with
  | nil => cases h
  | cons e es ih =>
    rw [scanList_cons] at h
    cases hstep : step e s with
    | next s₁ =>
      rw [hstep] at h
      obtain ⟨e', he', hdone⟩ := ih h
      exact ⟨e', List.mem_cons_of_mem e he', hdone⟩
    | done b =>
      rw [hstep] at h
      exact ⟨e, List.mem_cons_self, s, hstep.trans h⟩
    | overrun =>
      rw [hstep] at h
      cases h

end List

end EnclaveOS
