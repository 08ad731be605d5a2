import Mathlib.Data.Nat.Digits.Defs

/-!
# Foundation - numerals

The value of a row of digits, the most significant digit first, and two ways to accumulate it in
a bounded number: an accumulator that stays at the largest number once it is passed, and one
that wraps around.
-/

namespace EnclaveOS
namespace Numeral

variable {base top m n d : Nat} {digits : List Nat}

/-- The value of a row of digits. -/
def value (base : Nat) (digits : List Nat) : Nat :=
  digits.foldl (fun n d => n * base + d) 0

/-- One more digit for an accumulator that does not pass `top`. -/
def saturate (top base n d : Nat) : Nat :=
  if (top - d) / base < n then top else n * base + d

/-- One more digit for an accumulator of numbers below `m`. -/
def wrap (m base n d : Nat) : Nat :=
  (n * base + d) % m

theorem saturate_of_le (hbase : 0 < base) (hd : d ≤ top) :
    saturate top base n d = min (n * base + d) top := by
  have hfull := Nat.div_lt_iff_lt_mul (x := top - d) (y := n) hbase
  unfold saturate
  split_ifs with h
  · rw [hfull] at h
    omega
  · rw [hfull] at h
    omega

/-- A full accumulator stays full. -/
theorem saturate_top (hbase : 2 ≤ base) (htop : 0 < top) : saturate top base top d = top := by
  have hhalf : (top - d) / base ≤ top / 2 :=
    (Nat.div_le_div_left hbase (by omega)).trans (Nat.div_le_div_right (Nat.sub_le top d))
  unfold saturate
  rw [if_pos (by omega)]

theorem saturate_min (hbase : 2 ≤ base) (htop : 0 < top) (hd : d ≤ top) :
    saturate top base (min n top) d = min (n * base + d) top := by
  by_cases hn : n ≤ top
  · rw [Nat.min_eq_left hn, saturate_of_le (by omega) hd]
  · have hgrow : n ≤ n * base := Nat.le_mul_of_pos_right n (by omega)
    rw [Nat.min_eq_right (by omega), saturate_top hbase htop]
    omega

/-- The saturating accumulator over a row of digits. -/
theorem foldl_saturate (hbase : 2 ≤ base) (htop : 0 < top) (hdigits : ∀ d ∈ digits, d ≤ top)
    (n : Nat) :
    digits.foldl (saturate top base) (min n top) =
      min (digits.foldl (fun n d => n * base + d) n) top := by
  induction digits generalizing n with
  | nil => rfl
  | cons d digits ih =>
    obtain ⟨hd, hdigits⟩ := List.forall_mem_cons.mp hdigits
    rw [List.foldl_cons, List.foldl_cons, saturate_min hbase htop hd, ih hdigits]

theorem wrap_mod (m base n d : Nat) : wrap m base (n % m) d = (n * base + d) % m := by
  simp [wrap, Nat.add_mod, Nat.mul_mod]

/-- The wrapping accumulator over a row of digits. -/
theorem foldl_wrap (m base : Nat) (digits : List Nat) (n : Nat) :
    digits.foldl (wrap m base) (n % m) =
      digits.foldl (fun n d => n * base + d) n % m := by
  induction digits generalizing n with
  | nil => rfl
  | cons d digits ih => rw [List.foldl_cons, List.foldl_cons, wrap_mod, ih]

theorem value_digits (base n : Nat) : value base (Nat.digits base n).reverse = n := by
  calc value base (Nat.digits base n).reverse
      = (Nat.digits base n).foldr (fun d n => n * base + d) 0 := List.foldl_reverse
    _ = Nat.ofDigits base (Nat.digits base n) := by
        rw [Nat.ofDigits_eq_foldr]
        congr 1
        funext d n
        simp [Nat.mul_comm, Nat.add_comm]
    _ = n := Nat.ofDigits_digits base n

end Numeral
end EnclaveOS
