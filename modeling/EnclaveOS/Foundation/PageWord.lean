import Mathlib.Tactic.Ring

/-!
# Foundation - 32-bit words as a page frame and twelve flag bits

A 32-bit paging structure entry keeps a 20-bit page frame number in its upper
bits and twelve flag bits below.  This module fixes the two projections, the
address of a frame, and the single-bit test `w & flag`, and gives the
algebra a page-table proof needs: which operations keep the frame, which keep a
flag, and which clear it.  Nothing here depends on what the flags mean.
-/

namespace EnclaveOS

/-- A 32-bit machine word. -/
abbrev Word := BitVec 32

namespace PageWord

/-- The C test `w & flag`, read as a condition. -/
def hasFlag (w flag : Word) : Bool :=
  (w &&& flag) != 0#32

/-- Number of the page frame an entry names: `w >> 12`. -/
def frameOf (w : Word) : Nat :=
  (w >>> 12).toNat

/-- Physical address stored in an entry: `w & 0xFFFFF000`. -/
def physOf (w : Word) : Word :=
  w &&& 0xFFFFF000#32

/-- The twelve low bits of an entry: `w & 0xFFF`. -/
def lowBits (w : Word) : Word :=
  w &&& 0xFFF#32

/-- Physical address of a frame. -/
def frameAddr (f : Nat) : Word :=
  BitVec.ofNat 32 (f * 4096)

/-- A word that fits in the twelve low bits. -/
def IsLow (w : Word) : Prop :=
  w.toNat < 4096

instance (w : Word) : Decidable (IsLow w) :=
  inferInstanceAs (Decidable (w.toNat < 4096))

theorem frameOf_eq_div (w : Word) : frameOf w = w.toNat / 4096 := by
  simp [frameOf, BitVec.toNat_ushiftRight, Nat.shiftRight_eq_div_pow]

theorem frameOf_lt (w : Word) : frameOf w < 1048576 := by
  have hw := w.isLt
  rw [frameOf_eq_div]
  omega

theorem frameAddr_toNat {f : Nat} (hf : f < 1048576) :
    (frameAddr f).toNat = f * 4096 := by
  simp only [frameAddr, BitVec.toNat_ofNat]
  omega

@[simp]
theorem frameOf_frameAddr {f : Nat} (hf : f < 1048576) :
    frameOf (frameAddr f) = f := by
  rw [frameOf_eq_div, frameAddr_toNat hf]
  omega

theorem frameAddr_eq_zero_iff {f : Nat} (hf : f < 1048576) :
    frameAddr f = 0#32 ↔ f = 0 := by
  rw [← BitVec.toNat_inj, frameAddr_toNat hf]
  simp

/-- Or-ing low bits into an entry keeps its frame. -/
theorem frameOf_or {a b : Word} (hb : IsLow b) : frameOf (a ||| b) = frameOf a := by
  have hzero : b.toNat >>> 12 = 0 := by
    rw [Nat.shiftRight_eq_div_pow]
    exact Nat.div_eq_of_lt hb
  simp only [frameOf, BitVec.toNat_ushiftRight, BitVec.toNat_or,
    Nat.shiftRight_or_distrib, hzero, Nat.or_zero]

private theorem and_mask_bits (w mask : Word) (i : Nat) :
    (w &&& mask).getLsbD i = (w.getLsbD i && mask.getLsbD i) :=
  BitVec.getLsbD_and

private theorem highMask_bit :
    ∀ i < 32, (0xFFFFF000#32).getLsbD i = decide (12 ≤ i) := by
  decide

private theorem lowMask_bit :
    ∀ i < 32, (0xFFF#32).getLsbD i = decide (i < 12) := by
  decide

@[simp]
theorem frameOf_physOf (w : Word) : frameOf (physOf w) = frameOf w := by
  have h : physOf w >>> 12 = w >>> 12 := by
    apply BitVec.eq_of_getLsbD_eq
    intro i hi
    simp only [BitVec.getLsbD_ushiftRight, physOf, and_mask_bits]
    by_cases hlt : 12 + i < 32
    · simp [highMask_bit _ hlt]
    · simp [BitVec.getLsbD_of_ge w (12 + i) (by omega)]
  simp only [frameOf, h]

theorem lowBits_physOf (w : Word) : lowBits (physOf w) = 0#32 := by
  unfold lowBits physOf
  rw [BitVec.and_assoc]
  exact BitVec.and_zero

/-- The masked entry is the address of the frame it names. -/
theorem physOf_eq_frameAddr (w : Word) : physOf w = frameAddr (frameOf w) := by
  have hdiv : (physOf w).toNat % 4096 = 0 := by
    have hnat := congrArg BitVec.toNat (lowBits_physOf w)
    simp only [lowBits, BitVec.toNat_and, BitVec.toNat_ofNat] at hnat
    have hmask : (4095 % 2 ^ 32 : Nat) = 2 ^ 12 - 1 := by norm_num
    rw [hmask, Nat.and_two_pow_sub_one_eq_mod] at hnat
    simpa using hnat
  rw [← BitVec.toNat_inj, frameAddr_toNat (frameOf_lt w), ← frameOf_physOf w, frameOf_eq_div]
  omega

theorem physOf_frameAddr {f : Nat} (hf : f < 1048576) :
    physOf (frameAddr f) = frameAddr f := by
  rw [physOf_eq_frameAddr, frameOf_frameAddr hf]

theorem lowBits_of_isLow {w : Word} (h : IsLow w) : lowBits w = w := by
  apply BitVec.eq_of_toNat_eq
  have hmod : w.toNat &&& 4095 = w.toNat % 4096 := Nat.and_two_pow_sub_one_eq_mod w.toNat 12
  rw [lowBits, BitVec.toNat_and]
  exact hmod.trans (Nat.mod_eq_of_lt h)

/-- The low bits of an entry are its flags. -/
theorem lowBits_physOf_or (w : Word) {flags : Word} (h : IsLow flags) :
    lowBits (physOf w ||| flags) = flags := by
  have hphys := lowBits_physOf w
  have hflags := lowBits_of_isLow h
  unfold lowBits at *
  rw [BitVec.and_or_distrib_right, hphys, hflags, BitVec.zero_or]

theorem isLow_lowBits (w : Word) : IsLow (lowBits w) := by
  have h := Nat.and_le_right (n := w.toNat) (m := 4095)
  simp only [IsLow, lowBits, BitVec.toNat_and, BitVec.toNat_ofNat]
  exact lt_of_le_of_lt h (by norm_num)

theorem isLow_or {a b : Word} (ha : IsLow a) (hb : IsLow b) : IsLow (a ||| b) := by
  have h : a.toNat ||| b.toNat < 2 ^ 12 := Nat.or_lt_two_pow (n := 12) ha hb
  simpa [IsLow, BitVec.toNat_or] using h

theorem isLow_and_left {a : Word} (b : Word) (ha : IsLow a) : IsLow (a &&& b) := by
  have h := Nat.and_le_left (n := a.toNat) (m := b.toNat)
  simp only [IsLow, BitVec.toNat_and]
  exact lt_of_le_of_lt h ha

/-- A nonzero word has a set bit. -/
private theorem ne_zero_iff_bit (w : Word) : w ≠ 0#32 ↔ ∃ i, w.getLsbD i = true := by
  constructor
  · intro hw
    by_contra hnone
    apply hw
    apply BitVec.eq_of_getLsbD_eq
    intro i _
    have hi : ¬ w.getLsbD i = true := fun h => hnone ⟨i, h⟩
    simpa using hi
  · rintro ⟨i, hi⟩ rfl
    simp at hi

/-- The flag test holds exactly when the two words share a bit. -/
theorem hasFlag_iff_bit (w flag : Word) :
    hasFlag w flag = true ↔ ∃ i, w.getLsbD i = true ∧ flag.getLsbD i = true := by
  simp only [hasFlag, bne_iff_ne, ne_eq]
  rw [← ne_eq, ne_zero_iff_bit]
  simp

@[simp]
theorem hasFlag_zero (flag : Word) : hasFlag 0#32 flag = false := by
  simp [hasFlag]

theorem hasFlag_or (a b flag : Word) :
    hasFlag (a ||| b) flag = (hasFlag a flag || hasFlag b flag) := by
  rw [Bool.eq_iff_iff, Bool.or_eq_true]
  simp only [hasFlag_iff_bit, BitVec.getLsbD_or, Bool.or_eq_true]
  constructor
  · rintro ⟨i, hi | hi, hflag⟩
    · exact Or.inl ⟨i, hi, hflag⟩
    · exact Or.inr ⟨i, hi, hflag⟩
  · rintro (⟨i, hi, hflag⟩ | ⟨i, hi, hflag⟩)
    · exact ⟨i, Or.inl hi, hflag⟩
    · exact ⟨i, Or.inr hi, hflag⟩

/-- A low flag is tested on the low bits alone. -/
theorem hasFlag_lowBits (w : Word) {flag : Word} (hflag : IsLow flag) :
    hasFlag (lowBits w) flag = hasFlag w flag := by
  rw [Bool.eq_iff_iff]
  simp only [hasFlag_iff_bit, lowBits, and_mask_bits, Bool.and_eq_true]
  constructor
  · rintro ⟨i, ⟨hi, _⟩, hf⟩
    exact ⟨i, hi, hf⟩
  · rintro ⟨i, hi, hf⟩
    have hi12 : i < 12 := by
      by_contra hge
      have : flag.getLsbD i = false := by
        rw [BitVec.getLsbD, Nat.testBit_lt_two_pow]
        exact lt_of_lt_of_le hflag (Nat.pow_le_pow_right (n := 2) (by norm_num) (Nat.not_lt.mp hge))
      rw [this] at hf
      cases hf
    exact ⟨i, ⟨hi, by rw [lowMask_bit i (by omega)]; simpa using hi12⟩, hf⟩

theorem hasFlag_physOf (w : Word) {flag : Word} (hflag : IsLow flag) :
    hasFlag (physOf w) flag = false := by
  rw [← hasFlag_lowBits _ hflag, lowBits_physOf, hasFlag_zero]

theorem hasFlag_frameAddr {f : Nat} (hf : f < 1048576) {flag : Word} (hflag : IsLow flag) :
    hasFlag (frameAddr f) flag = false := by
  rw [← physOf_frameAddr hf]
  exact hasFlag_physOf _ hflag

theorem hasFlag_and_of_subset (w : Word) {mask flag : Word} (h : mask &&& flag = flag) :
    hasFlag (w &&& mask) flag = hasFlag w flag := by
  simp only [hasFlag, BitVec.and_assoc, h]

theorem hasFlag_and_of_disjoint (w : Word) {mask flag : Word} (h : mask &&& flag = 0#32) :
    hasFlag (w &&& mask) flag = false := by
  simp [hasFlag, BitVec.and_assoc, h]

/-- Masking a flag away removes it. -/
@[simp]
theorem hasFlag_and_not_self (w flag : Word) : hasFlag (w &&& ~~~flag) flag = false := by
  rw [← Bool.not_eq_true, hasFlag_iff_bit]
  rintro ⟨i, hi, hf⟩
  rw [and_mask_bits, BitVec.getLsbD_not] at hi
  simp [hf] at hi

/-- Masking a flag away keeps every flag disjoint from it. -/
theorem hasFlag_and_not_of_disjoint (w : Word) {mask flag : Word} (h : flag &&& mask = 0#32) :
    hasFlag (w &&& ~~~mask) flag = hasFlag w flag := by
  have hword : (w &&& ~~~mask) &&& flag = w &&& flag := by
    apply BitVec.eq_of_getLsbD_eq
    intro i hi
    have hbit := congrArg (fun x => x.getLsbD i) h
    simp only [and_mask_bits, BitVec.getLsbD_zero] at hbit
    simp only [and_mask_bits, BitVec.getLsbD_not, hi, decide_true, Bool.true_and]
    cases hm : mask.getLsbD i <;> cases hf : flag.getLsbD i <;> simp_all
  simp only [hasFlag, hword]

end PageWord
end EnclaveOS
