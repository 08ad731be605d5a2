import Mathlib.Data.List.Induction

/-!
# Foundation - lists handed over piece by piece

A writer makes a piece of output at each call, and a reader takes a piece of its input.  The
states, the calls and the elements are arbitrary; what is observed of a state is one list.
-/

namespace EnclaveOS
namespace Transfer

variable {σ ι ρ α : Type*}

section Writer

variable {step : σ → ι → σ} {Inv : σ → Prop} {total : σ → List α} {made : ι → List α}
  {Keeps : σ → ι → Prop} {s : σ} {calls : List ι}

theorem foldl_inv (hinv : ∀ s i, Inv s → Inv (step s i)) (hs : Inv s) :
    Inv (calls.foldl step s) := by
  induction calls generalizing s with
  | nil => exact hs
  | cons i calls ih => exact ih (hinv s i hs)

/-- The total is right after every prefix of the calls if and only if every call keeps it. -/
theorem foldl_total_iff (hinv : ∀ s i, Inv s → Inv (step s i))
    (hstep : ∀ s i, Inv s → (total (step s i) = total s ++ made i ↔ Keeps s i)) (hs : Inv s) :
    (∀ pre, pre <+: calls → total (pre.foldl step s) = total s ++ pre.flatMap made) ↔
      ∀ pre i, pre ++ [i] <+: calls → Keeps (pre.foldl step s) i := by
  constructor
  · intro htotal pre i hpre
    have hbefore := htotal pre ((List.prefix_append pre [i]).trans hpre)
    have hafter := htotal (pre ++ [i]) hpre
    apply (hstep _ _ (foldl_inv hinv hs)).mp
    rw [hbefore]
    simpa using hafter
  · intro hkeeps pre hpre
    induction pre using List.reverseRecOn with
    | nil => simp
    | append_singleton pre i ih =>
      have hbefore := ih ((List.prefix_append pre [i]).trans hpre)
      have hone := (hstep _ i (foldl_inv hinv hs)).mpr (hkeeps pre i hpre)
      simp [hone, hbefore]

/-- A writer all of whose calls append their piece. -/
theorem foldl_total (hinv : ∀ s i, Inv s → Inv (step s i))
    (hstep : ∀ s i, Inv s → total (step s i) = total s ++ made i) (hs : Inv s) :
    total (calls.foldl step s) = total s ++ calls.flatMap made := by
  have hkeeps : ∀ s i, Inv s → (total (step s i) = total s ++ made i ↔ True) :=
    fun s i h => iff_true_intro (hstep s i h)
  exact (foldl_total_iff hinv hkeeps hs).mpr (fun _ _ _ => trivial) calls List.prefix_rfl

end Writer

section Reader

variable {step : σ → ι → ρ × σ} {Inv : σ → Prop} {rest : σ → List α} {got : ι → ρ → List α}

/-- The calls one after the other, each with its answer. -/
def runAll (step : σ → ι → ρ × σ) : σ → List ι → List (ι × ρ) × σ
  | s, [] => ([], s)
  | s, i :: calls =>
    let answer := (step s i).1
    let after := runAll step (step s i).2 calls
    ((i, answer) :: after.1, after.2)

@[simp]
theorem runAll_nil (s : σ) : runAll step s [] = ([], s) :=
  rfl

@[simp]
theorem runAll_cons (s : σ) (i : ι) (calls : List ι) :
    runAll step s (i :: calls) = ((i, (step s i).1) :: (runAll step (step s i).2 calls).1,
      (runAll step (step s i).2 calls).2) :=
  rfl

/-- A map that every call carries over carries over whole runs, answers included. -/
theorem runAll_map {τ : Type*} {step' : τ → ι → ρ × τ} {f : σ → τ}
    (hstep : ∀ s i, step' (f s) i = ((step s i).1, f (step s i).2)) (s : σ) (calls : List ι) :
    runAll step' (f s) calls = ((runAll step s calls).1, f (runAll step s calls).2) := by
  induction calls generalizing s with
  | nil => rfl
  | cons i calls ih => simp [hstep, ih]

theorem mem_calls_of_mem_runAll {s : σ} {calls : List ι} {c : ι × ρ}
    (h : c ∈ (runAll step s calls).1) : c.1 ∈ calls := by
  induction calls generalizing s with
  | nil => simp at h
  | cons i calls ih =>
    simp only [runAll_cons, List.mem_cons] at h
    obtain rfl | h := h
    · simp
    · exact List.mem_cons_of_mem _ (ih h)

/-- A flag that one call sets and none clears is set at the end. -/
theorem runAll_flag {Good : ι → ρ → Prop} {sets : ι → ρ → Bool} {Flag : σ → Prop}
    (hstep : ∀ s i, Inv s → Good i (step s i).1 →
      Inv (step s i).2 ∧ (Flag s ∨ sets i (step s i).1 = true → Flag (step s i).2))
    {s : σ} {calls : List ι} (hs : Inv s) (hgood : ∀ c ∈ (runAll step s calls).1, Good c.1 c.2)
    (hset : Flag s ∨ ∃ c ∈ (runAll step s calls).1, sets c.1 c.2 = true) :
    Flag (runAll step s calls).2 := by
  induction calls generalizing s with
  | nil => simpa using hset
  | cons i calls ih =>
    simp only [runAll_cons, List.mem_cons, forall_eq_or_imp, exists_eq_or_imp] at hgood hset ⊢
    obtain ⟨hinv, hflag⟩ := hstep s i hs hgood.1
    apply ih hinv hgood.2
    obtain hset | hset | hset := hset
    · exact Or.inl (hflag (Or.inl hset))
    · exact Or.inl (hflag (Or.inr hset))
    · exact Or.inr hset

/-- Calls whose answers are `Good` lose nothing. -/
theorem runAll_rest {Good : ι → ρ → Prop}
    (hstep : ∀ s i, Inv s → Good i (step s i).1 →
      Inv (step s i).2 ∧ rest s = got i (step s i).1 ++ rest (step s i).2)
    {s : σ} {calls : List ι} (hs : Inv s) (hgood : ∀ c ∈ (runAll step s calls).1, Good c.1 c.2) :
    Inv (runAll step s calls).2 ∧
      rest s = (runAll step s calls).1.flatMap (fun c => got c.1 c.2) ++
        rest (runAll step s calls).2 := by
  induction calls generalizing s with
  | nil => simpa using hs
  | cons i calls ih =>
    simp only [runAll_cons, List.mem_cons, forall_eq_or_imp] at hgood
    obtain ⟨hinv, hrest⟩ := hstep s i hs hgood.1
    obtain ⟨hend, htail⟩ := ih hinv hgood.2
    constructor
    · exact hend
    · rw [runAll_cons, List.flatMap_cons, List.append_assoc, ← htail]
      exact hrest

end Reader
end Transfer
end EnclaveOS
