import Mathlib.Data.List.Basic

/-!
# ByteBitmap - bits of a byte array, and its 32-bit words

A bitmap kept as bytes, with bit `i` in byte `i / 8`, and read and written
as little-endian words too.  Both views are the same function from bit numbers to
truth values.
-/

namespace EnclaveOS

namespace ByteBitmap

variable (bytes : Nat → BitVec 8)

/-- Bit `i` of the array. -/
def bit (i : Nat) : Bool := (bytes (i / 8)).getLsbD (i % 8)

/-- The mask of bit `i` in its byte. -/
def mask (i : Nat) : BitVec 8 := 1#8 <<< (i % 8)

/-- `bytes[i / 8] |= 1 << (i % 8)`. -/
def setBit (i : Nat) : Nat → BitVec 8 :=
  Function.update bytes (i / 8) (bytes (i / 8) ||| mask i)

/-- `bytes[i / 8] &= ~(1 << (i % 8))`. -/
def clearBit (i : Nat) : Nat → BitVec 8 :=
  Function.update bytes (i / 8) (bytes (i / 8) &&& ~~~mask i)

/-- `bytes[i / 8] & (1 << (i % 8))` is not zero. -/
def testBit (i : Nat) : Bool := (bytes (i / 8) &&& mask i) != 0#8

/-- The little-endian word `w` of the array. -/
def wordAt (w : Nat) : BitVec 32 :=
  bytes (4 * w + 3) ++ bytes (4 * w + 2) ++ bytes (4 * w + 1) ++ bytes (4 * w)

/-- The array after a store of word `w`. -/
def storeWord (w : Nat) (x : BitVec 32) : Nat → BitVec 8 :=
  fun k => if k / 4 = w then x.extractLsb' (8 * (k % 4)) 8 else bytes k

variable {bytes}

theorem getLsbD_mask (i k : Nat) : (mask i).getLsbD k = decide (k = i % 8) := by
  have hi : i % 8 < 8 := Nat.mod_lt _ (by omega)
  unfold mask
  rw [← BitVec.twoPow_eq, BitVec.getLsbD_twoPow, decide_eq_true hi, Bool.true_and]
  exact decide_eq_decide.mpr eq_comm

theorem testBit_eq (i : Nat) : testBit bytes i = bit bytes i := by
  have hi : i % 8 < 8 := Nat.mod_lt _ (by omega)
  unfold testBit bit mask
  rw [← BitVec.twoPow_eq, BitVec.and_twoPow]
  cases (bytes (i / 8)).getLsbD (i % 8) with
  | false => rfl
  | true =>
    have hne : BitVec.twoPow 8 (i % 8) ≠ 0#8 := by
      intro hzero
      have hbit := congrArg (fun x => BitVec.getLsbD x (i % 8)) hzero
      simp [hi] at hbit
    simpa using hne

theorem eq_of_div_mod {i j : Nat} (hdiv : i / 8 = j / 8) (hmod : i % 8 = j % 8) : i = j := by
  omega

theorem bit_setBit (i j : Nat) :
    bit (setBit bytes i) j = if j = i then true else bit bytes j := by
  have hj : j % 8 < 8 := Nat.mod_lt _ (by omega)
  unfold bit setBit
  by_cases hdiv : j / 8 = i / 8
  · rw [hdiv, Function.update_self, BitVec.getLsbD_or, getLsbD_mask]
    by_cases hmod : j % 8 = i % 8
    · rw [if_pos (eq_of_div_mod hdiv hmod), decide_eq_true hmod, Bool.or_true]
    · rw [if_neg (by rintro rfl; exact hmod rfl), decide_eq_false hmod, Bool.or_false]
  · rw [Function.update_of_ne hdiv, if_neg (by rintro rfl; exact hdiv rfl)]

theorem bit_clearBit (i j : Nat) :
    bit (clearBit bytes i) j = if j = i then false else bit bytes j := by
  have hj : j % 8 < 8 := Nat.mod_lt _ (by omega)
  unfold bit clearBit
  by_cases hdiv : j / 8 = i / 8
  · rw [hdiv, Function.update_self, BitVec.getLsbD_and, BitVec.getLsbD_not, getLsbD_mask]
    by_cases hmod : j % 8 = i % 8
    · rw [if_pos (eq_of_div_mod hdiv hmod), decide_eq_true hmod]
      simp
    · rw [if_neg (by rintro rfl; exact hmod rfl), decide_eq_false hmod]
      simp [hj]
  · rw [Function.update_of_ne hdiv, if_neg (by rintro rfl; exact hdiv rfl)]

/-- The bits of a word are those of its four bytes. -/
theorem getLsbD_wordAt (w : Nat) {b : Nat} (hb : b < 32) :
    (wordAt bytes w).getLsbD b = bit bytes (32 * w + b) := by
  have hdiv : (32 * w + b) / 8 = 4 * w + b / 8 := by omega
  have hmod : (32 * w + b) % 8 = b % 8 := by omega
  unfold bit wordAt
  rw [hdiv, hmod, BitVec.getLsbD_append, BitVec.getLsbD_append, BitVec.getLsbD_append]
  split_ifs with h₀ h₁ h₂
  · rw [show b / 8 = 0 by omega, show b % 8 = b by omega, Nat.add_zero]
  · rw [show b / 8 = 1 by omega, show b % 8 = b - 8 by omega]
  · rw [show b / 8 = 2 by omega, show b % 8 = b - 8 - 8 by omega]
  · rw [show b / 8 = 3 by omega, show b % 8 = b - 8 - 8 - 8 by omega]

/-- A store of a word sets its 32 bits. -/
theorem bit_storeWord (w : Nat) (x : BitVec 32) (i : Nat) :
    bit (storeWord bytes w x) i = if i / 32 = w then x.getLsbD (i % 32) else bit bytes i := by
  have hdiv : i / 8 / 4 = i / 32 := by omega
  unfold bit storeWord
  rw [hdiv]
  split_ifs with hw
  · have hi : i % 8 < 8 := Nat.mod_lt _ (by omega)
    rw [BitVec.getLsbD_extractLsb', decide_eq_true hi, Bool.true_and]
    congr 1
    omega
  · rfl

/-- Setting one bit through its word. -/
theorem bit_storeWord_or (w : Nat) {b : Nat} (hb : b < 32) (i : Nat) :
    bit (storeWord bytes w (wordAt bytes w ||| 1#32 <<< b)) i =
      if i = 32 * w + b then true else bit bytes i := by
  rw [bit_storeWord]
  by_cases hw : i / 32 = w
  · have hi : i % 32 < 32 := Nat.mod_lt _ (by omega)
    have hplace : 32 * w + i % 32 = i := by omega
    rw [if_pos hw, BitVec.getLsbD_or, getLsbD_wordAt w hi, hplace, ← BitVec.twoPow_eq,
      BitVec.getLsbD_twoPow, decide_eq_true hb, Bool.true_and]
    by_cases hib : i = 32 * w + b
    · rw [if_pos hib, decide_eq_true (by omega), Bool.or_true]
    · rw [if_neg hib, decide_eq_false (by omega), Bool.or_false]
  · rw [if_neg hw, if_neg (by omega)]

/-- The first place where a word has a clear bit is the number of trailing zeros of its
complement. -/
theorem find_clear_eq_ctz (x : BitVec 32) :
    (List.range 32).find? (fun b => !x.getLsbD b) =
      if x = 0xFFFFFFFF#32 then none else some (~~~x).ctz.toNat := by
  have hcomp : ∀ b < 32, (~~~x).getLsbD b = !x.getLsbD b := by
    intro b hb
    rw [BitVec.getLsbD_not, decide_eq_true hb, Bool.true_and]
  split_ifs with hfull
  · rw [List.find?_eq_none]
    intro b hb
    have hb : b < 32 := List.mem_range.mp hb
    rw [hfull, show (0xFFFFFFFF#32 : BitVec 32) = BitVec.allOnes 32 from rfl,
      BitVec.getLsbD_allOnes, decide_eq_true hb]
    simp
  · have hne : ~~~x ≠ 0#32 := by
      intro hzero
      apply hfull
      rw [← BitVec.not_not (b := x), hzero]
      rfl
    have hlt : (~~~x).ctz.toNat < 32 := by
      have := BitVec.ctz_lt_iff_ne_zero.mpr hne
      rwa [BitVec.lt_def] at this
    rw [List.find?_eq_some_iff_append]
    refine ⟨?_, List.range (~~~x).ctz.toNat,
      List.range' ((~~~x).ctz.toNat + 1) (32 - ((~~~x).ctz.toNat + 1)), ?_, ?_⟩
    · rw [← hcomp _ hlt, BitVec.getLsbD_true_ctz_of_ne_zero hne]
    · generalize (~~~x).ctz.toNat = n at hlt
      rw [List.range_eq_range', List.range_eq_range', ← List.range'_succ]
      have h32 : n + (32 - (n + 1) + 1) = 32 := by omega
      conv_lhs => rw [← h32]
      rw [← List.range'_append_1, Nat.zero_add]
    · intro b hb
      have hb : b < (~~~x).ctz.toNat := List.mem_range.mp hb
      rw [← hcomp b (by omega), BitVec.getLsbD_false_of_lt_ctz hb]
      rfl

end ByteBitmap

end EnclaveOS
