import Mathlib.Data.BitVec
import Mathlib.Tactic.Ring

/-!
# Raster - a picture in a memory of words

The string instructions that fill and copy a run of words, loops over a machine counter, and a
picture that lies in the memory row by row.  An index is a machine word: it wraps.
-/

namespace EnclaveOS

section Loops

variable {σ : Type*} {v : Nat}

/-- `for (k = lo; k < hi; k++) s = f(k, s)`. -/
def forRange (lo hi : BitVec v) (f : BitVec v → σ → σ) (s : σ) : σ :=
  Nat.fold (hi.toNat - lo.toNat) (fun k _ acc => f (lo + BitVec.ofNat v k) acc) s

/-- What holds before the loop and is kept by each round holds after it. -/
theorem forRange_rule {lo hi : BitVec v} {f : BitVec v → σ → σ} {s : σ} (P : Nat → σ → Prop)
    (hstart : P 0 s)
    (hstep : ∀ k acc, k < hi.toNat - lo.toNat → P k acc → P (k + 1) (f (lo + BitVec.ofNat v k) acc)) :
    P (hi.toNat - lo.toNat) (forRange lo hi f s) := by
  have hrun : ∀ n, n ≤ hi.toNat - lo.toNat →
      P n (Nat.fold n (fun k _ acc => f (lo + BitVec.ofNat v k) acc) s) := by
    intro n hn
    induction n with
    | zero => simpa using hstart
    | succ n ih =>
      rw [Nat.fold_succ]
      apply hstep n _ (by omega)
      exact ih (by omega)
  exact hrun _ le_rfl

end Loops

section Runs

variable {α : Type*} {v : Nat}

/-- `rep stos`: a value is stored into a run of words. -/
def fillWords (m : BitVec v → α) (a : BitVec v) (value : α) : Nat → BitVec v → α
  | 0 => m
  | n + 1 => fillWords (Function.update m a value) (a + 1) value n

/-- `rep movs` from another memory. -/
def copyFrom (source m : BitVec v → α) (dest src : BitVec v) : Nat → BitVec v → α
  | 0 => m
  | n + 1 => copyFrom source (Function.update m dest (source src)) (dest + 1) (src + 1) n

/-- `rep movs` inside one memory, in ascending order. -/
def moveWords (m : BitVec v → α) (dest src : BitVec v) : Nat → BitVec v → α
  | 0 => m
  | n + 1 => moveWords (Function.update m dest (m src)) (dest + 1) (src + 1) n

/-- The distance to the start of a run that is one word shorter at its front. -/
theorem toNat_sub_add_one {a b : BitVec v} (h : b ≠ a) : (b - (a + 1)).toNat + 1 = (b - a).toNat := by
  have hne : b - a ≠ 0 := fun h0 => h (sub_eq_zero.mp h0)
  have hpos : (b - a).toNat ≠ 0 := fun h0 => hne (BitVec.eq_of_toNat_eq (by simpa using h0))
  have hv : v ≠ 0 := by
    rintro rfl
    exact h (Subsingleton.elim _ _)
  have hone : (1 : BitVec v).toNat = 1 := by
    have hlt : 2 ≤ 2 ^ v := Nat.le_self_pow hv 2
    simpa using Nat.mod_eq_of_lt (show 1 < 2 ^ v by omega)
  have hle : (1 : BitVec v) ≤ b - a := by
    rw [BitVec.le_def, hone]
    omega
  have hsub : b - (a + 1) = b - a - 1 := by ring
  rw [hsub, BitVec.toNat_sub_of_le hle, hone]
  omega

theorem fillWords_apply (m : BitVec v → α) (a : BitVec v) (value : α) (n : Nat) (b : BitVec v) :
    fillWords m a value n b = if (b - a).toNat < n then value else m b := by
  induction n generalizing m a with
  | zero => simp [fillWords]
  | succ n ih =>
    rw [fillWords, ih]
    by_cases hba : b = a
    · subst hba
      simp
    · have hdist := toNat_sub_add_one hba
      rw [Function.update_of_ne hba]
      simp only [← hdist, Nat.add_lt_add_iff_right]

theorem copyFrom_apply (source m : BitVec v → α) (dest src : BitVec v) (n : Nat) (b : BitVec v) :
    copyFrom source m dest src n b =
      if (b - dest).toNat < n then source (src + (b - dest)) else m b := by
  induction n generalizing m dest src with
  | zero => simp [copyFrom]
  | succ n ih =>
    rw [copyFrom, ih]
    by_cases hb : b = dest
    · subst hb
      simp
    · have hdist := toNat_sub_add_one hb
      have hsrc : src + 1 + (b - (dest + 1)) = src + (b - dest) := by ring
      rw [Function.update_of_ne hb, hsrc]
      simp only [← hdist, Nat.add_lt_add_iff_right]

/-- A run is moved down: nothing is overwritten before it is read. -/
theorem moveWords_apply {m : BitVec v → α} {dest src : BitVec v} {n : Nat}
    (h : (src - dest).toNat + n ≤ 2 ^ v) (hne : src ≠ dest) (b : BitVec v) :
    moveWords m dest src n b = if (b - dest).toNat < n then m (src + (b - dest)) else m b := by
  have hpos : (src - dest).toNat ≠ 0 := by
    intro h0
    exact hne (sub_eq_zero.mp (BitVec.eq_of_toNat_eq (by simpa using h0)))
  induction n generalizing m dest src with
  | zero => simp [moveWords]
  | succ n ih =>
    have hshift : src + 1 - (dest + 1) = src - dest := by ring
    rw [moveWords, ih (by rw [hshift]; omega) (by simpa using hne) (by rwa [hshift])]
    by_cases hb : b = dest
    · subst hb
      have hfar : ¬(b - (b + 1)).toNat < n := by
        have hsub : b - (b + 1) = BitVec.allOnes v :=
          (show b - (b + 1) = -1 by ring).trans BitVec.neg_one_eq_allOnes
        rw [hsub, BitVec.toNat_allOnes]
        omega
      rw [if_neg hfar, Function.update_self]
      simp
    · have hdist := toNat_sub_add_one hb
      have hsrc : src + 1 + (b - (dest + 1)) = src + (b - dest) := by ring
      rw [Function.update_of_ne hb, hsrc]
      simp only [← hdist, Nat.add_lt_add_iff_right]
      split
      · -- the word that was read lies beyond the one just written
        apply Function.update_of_ne
        intro heq
        have hzero : (src - dest) + (b - dest) = 0 := by
          rw [← sub_self dest]
          nth_rewrite 3 [← heq]
          ring
        have hsum := congrArg BitVec.toNat hzero
        rw [BitVec.toNat_add, Nat.mod_eq_of_lt (by omega)] at hsum
        simp only [BitVec.ofNat_eq_ofNat, BitVec.toNat_ofNat, Nat.zero_mod] at hsum
        omega
      · rfl

/-- A run that does not wrap, by plain numbers. -/
theorem toNat_sub_lt_iff {a b : BitVec v} {n : Nat} (h : a.toNat + n ≤ 2 ^ v) :
    (b - a).toNat < n ↔ a.toNat ≤ b.toNat ∧ b.toNat < a.toNat + n := by
  have ha := a.isLt
  have hb := b.isLt
  by_cases hle : a.toNat ≤ b.toNat
  · rw [BitVec.toNat_sub_of_le (BitVec.le_def.mpr hle)]
    omega
  · rw [BitVec.toNat_sub, Nat.mod_eq_of_lt (by omega)]
    omega

end Runs

section Rows

variable {v pitch height i i' j j' x w : Nat}

/-- The word of column `i` of row `j`, with `pitch` words for a row. -/
def pixelAt (v pitch i j : Nat) : BitVec v :=
  BitVec.ofNat v (j * pitch + i)

/-- Rows follow one another. -/
theorem row_lt_iff (hi : i < pitch) (n : Nat) : j * pitch + i < n * pitch ↔ j < n := by
  constructor
  · intro h
    by_contra hge
    have hmul := Nat.mul_le_mul_right pitch (Nat.le_of_not_lt hge)
    omega
  · intro h
    have hmul := Nat.mul_le_mul_right pitch (Nat.succ_le_of_lt h)
    rw [Nat.succ_mul] at hmul
    omega

theorem row_eq_iff (hi : i < pitch) (hi' : i' < pitch) :
    j * pitch + i = j' * pitch + i' ↔ i = i' ∧ j = j' := by
  constructor
  · intro h
    have hle := row_lt_iff hi (j := j) (j' + 1)
    have hge := row_lt_iff hi' (j := j') (j + 1)
    rw [Nat.succ_mul] at hle hge
    have hj : j = j' := by omega
    subst hj
    exact ⟨by omega, rfl⟩
  · rintro ⟨rfl, rfl⟩
    rfl

section Fits

variable (hfits : height * pitch ≤ 2 ^ v)

include hfits

theorem pixelAt_toNat (hi : i < pitch) (hj : j < height) :
    (pixelAt v pitch i j).toNat = j * pitch + i := by
  have hlt := (row_lt_iff hi height).mpr hj
  rw [pixelAt, BitVec.toNat_ofNat, Nat.mod_eq_of_lt (by omega)]

theorem pixelAt_inj (hi : i < pitch) (hi' : i' < pitch) (hj : j < height) (hj' : j' < height) :
    pixelAt v pitch i j = pixelAt v pitch i' j' ↔ i = i' ∧ j = j' := by
  rw [← row_eq_iff hi hi', ← pixelAt_toNat hfits hi hj, ← pixelAt_toNat hfits hi' hj',
    BitVec.toNat_inj]

/-- A run of words inside a row is a run of pixels of it. -/
theorem pixelAt_run_iff (hx : x + w ≤ pitch) (hj : j < height) (b : BitVec v) :
    (b - pixelAt v pitch x j).toNat < w ↔ ∃ i, x ≤ i ∧ i < x + w ∧ b = pixelAt v pitch i j := by
  by_cases hw : w = 0
  · subst hw
    constructor
    · omega
    · rintro ⟨i, hle, hlt, -⟩
      omega
  have hstart := pixelAt_toNat hfits (show x < pitch by omega) hj
  have hlast := (row_lt_iff (show x + w - 1 < pitch by omega) height).mpr hj
  rw [toNat_sub_lt_iff (by omega), hstart]
  constructor
  · rintro ⟨hle, hlt⟩
    refine ⟨b.toNat - j * pitch, by omega, by omega, ?_⟩
    apply BitVec.eq_of_toNat_eq
    rw [pixelAt_toNat hfits (by omega) hj]
    omega
  · rintro ⟨i, hle, hlt, rfl⟩
    rw [pixelAt_toNat hfits (by omega) hj]
    omega

end Fits

end Rows

end EnclaveOS
