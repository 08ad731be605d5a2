import Mathlib.Data.List.TakeWhile

/-!
# Foundation - reading a terminated sequence through a pointer

A pointer into a sequence that ends with a terminator is what is left of the sequence, with
the terminator.  Reading takes the head; the empty list is the position behind the
terminator, where there is nothing that may be read.
-/

namespace EnclaveOS

variable {α β : Type*} {p : α → Bool} {step : β → α → β} {stop : α}

/-- `while (p(*s)) acc = step(acc, *s++)`; nothing if it reads behind the end. -/
def foldWhile (p : α → Bool) (step : β → α → β) : β → List α → Option (β × List α)
  | _, [] => none
  | acc, c :: s => if p c then foldWhile p step (step acc c) s else some (acc, c :: s)

/-- A loop over elements that are all taken, up to one that is not. -/
theorem foldWhile_append {s : List α} (hs : ∀ c ∈ s, p c = true) (hstop : p stop = false) (acc : β)
    (rest : List α) :
    foldWhile p step acc (s ++ stop :: rest) = some (s.foldl step acc, stop :: rest) := by
  induction s generalizing acc with
  | nil => simp [foldWhile, hstop]
  | cons c s ih =>
    obtain ⟨hc, hs⟩ := List.forall_mem_cons.mp hs
    rw [List.cons_append, foldWhile, if_pos hc, ih hs, List.foldl_cons]

/-- A loop that the terminator ends reads nothing behind it. -/
theorem foldWhile_terminated (hstop : p stop = false) (acc : β) (s : List α) :
    foldWhile p step acc (s ++ [stop]) =
      some ((s.takeWhile p).foldl step acc, s.dropWhile p ++ [stop]) := by
  induction s generalizing acc with
  | nil => simp [foldWhile, hstop]
  | cons c s ih =>
    rw [List.cons_append, foldWhile]
    by_cases hc : p c
    · rw [if_pos hc, ih, List.takeWhile_cons_of_pos hc, List.dropWhile_cons_of_pos hc,
        List.foldl_cons]
    · rw [if_neg hc, List.takeWhile_cons_of_neg hc, List.dropWhile_cons_of_neg hc]
      rfl

@[simp]
theorem head?_terminated (s : List α) : (s ++ [stop]).head? = some (s.headD stop) := by
  cases s <;> rfl

end EnclaveOS
