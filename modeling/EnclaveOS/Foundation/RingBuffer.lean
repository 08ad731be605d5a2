import Mathlib.Data.List.Basic
import Mathlib.Data.Nat.ModEq

/-!
# Foundation - a stream through a ring of slots

The items of a stream are put into a ring of `n` slots one after another and taken out in the
same order; item number `k` uses slot `k % n`.  One slot always stays free, so that the two
positions in the ring tell an empty ring from a full one.
-/

namespace EnclaveOS

/-- The items of `stream` from number `taken` on are in their slots. -/
structure RingHolds {α : Type*} (n : Nat) (slots : Nat → α) (stream : List α) (taken : Nat) :
    Prop where
  taken_le : taken ≤ stream.length
  room : stream.length < taken + n
  slot : ∀ k x, taken ≤ k → stream[k]? = some x → slots (k % n) = x

/-- Positions less than a round apart. -/
theorem mod_eq_mod_iff_of_lt {a b n : Nat} (hle : b ≤ a) (hlt : a < b + n) :
    a % n = b % n ↔ a = b := by
  constructor
  · intro h
    have hdvd : n ∣ a - b := (Nat.modEq_iff_dvd' hle).mp (Eq.symm h)
    have hzero : a - b = 0 := Nat.eq_zero_of_dvd_of_lt hdvd (by omega)
    omega
  · rintro rfl
    rfl

namespace RingHolds

variable {α : Type*} {n taken : Nat} {slots : Nat → α} {stream : List α} {x : α}

theorem start (hn : 0 < n) (slots : Nat → α) : RingHolds n slots [] 0 :=
  ⟨Nat.le_refl 0, by simpa using hn, by simp⟩

/-- The ring is full exactly when the next position to put into is the one to take from. -/
theorem full_iff (h : RingHolds n slots stream taken) :
    (stream.length + 1) % n = taken % n ↔ stream.length + 1 = taken + n := by
  have hle := h.taken_le
  have hlt := h.room
  constructor
  · intro heq
    by_contra hne
    have := (mod_eq_mod_iff_of_lt (by omega) (by omega)).mp heq
    omega
  · intro heq
    rw [heq, Nat.add_mod_right]

/-- An item is put into a ring that is not full. -/
theorem put (h : RingHolds n slots stream taken) (hroom : stream.length + 1 < taken + n) (x : α) :
    RingHolds n (Function.update slots (stream.length % n) x) (stream ++ [x]) taken := by
  have hle := h.taken_le
  constructor
  case taken_le =>
    rw [List.length_append]
    omega
  case room => simpa using hroom
  case slot =>
    intro k y hk hy
    rcases Nat.lt_trichotomy k stream.length with hlt | rfl | hgt
    · have hne : k % n ≠ stream.length % n := fun heq => by
        have := (mod_eq_mod_iff_of_lt hlt.le (by omega)).mp heq.symm
        omega
      rw [Function.update_of_ne hne]
      rw [List.getElem?_append_left hlt] at hy
      exact h.slot k y hk hy
    · rw [Function.update_self]
      simpa using hy
    · have hnone : (stream ++ [x])[k]? = none := by
        apply List.getElem?_eq_none
        rw [List.length_append, List.length_singleton]
        omega
      rw [hnone] at hy
      cases hy

/-- The next item is taken out of a ring that is not empty. -/
theorem take (h : RingHolds n slots stream taken) (hne : taken < stream.length) :
    stream[taken]? = some (slots (taken % n)) ∧ RingHolds n slots stream (taken + 1) := by
  constructor
  · have hget := List.getElem?_eq_getElem hne
    rw [hget, h.slot taken _ (Nat.le_refl taken) hget]
  · exact ⟨hne, by have := h.room; omega, fun k x hk => h.slot k x (by omega)⟩

end RingHolds
end EnclaveOS
