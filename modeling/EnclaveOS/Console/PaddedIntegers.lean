import EnclaveOS.Console.KernelPrintf
import EnclaveOS.User.Decimal
import Mathlib.Data.Nat.Digits.Lemmas

/-!
# PaddedIntegers - the d conversion with a width

The conversion `%d` with the flags `0` and `-` and a width, in `k_vsprintf` of
the kernel and in `vsnprintf` of the user library, beside the text that C99 asks for.
-/

namespace EnclaveOS

open PageWord

def intSign (value : Word) : List (BitVec 8) := if value.toInt < 0 then [ascii '-'] else []

def intDigits (value : Word) : List (BitVec 8) := digitText 10 value.toInt.natAbs

/-- The text that C99 asks for. -/
def paddedInt (value : Word) (width : Nat) (padZero leftAlign : Bool) : List (BitVec 8) :=
  let pad := width - ((intSign value).length + (intDigits value).length)
  if leftAlign then intSign value ++ (intDigits value ++ List.replicate pad (ascii ' '))
  else if padZero then intSign value ++ (List.replicate pad (ascii '0') ++ intDigits value)
  else List.replicate pad (ascii ' ') ++ (intSign value ++ intDigits value)

/-- A width in a format; there are no digits without a width. -/
def widthText (width : Nat) : List (BitVec 8) := if width = 0 then [] else digitText 10 width

/-- `%`, the flags, the width and `d`. -/
def paddedFormat (flags : List (BitVec 8)) (width : Nat) : List (BitVec 8) :=
  ascii '%' :: (flags ++ (widthText width ++ [ascii 'd']))

/-- The flag `0` is there. -/
def hasZero (flags : List (BitVec 8)) : Bool := flags.contains (ascii '0')

/-- The flag `-` is there. -/
def hasMinus (flags : List (BitVec 8)) : Bool := flags.contains (ascii '-')

theorem paddedInt_length (value : Word) (width : Nat) (padZero leftAlign : Bool) :
    (paddedInt value width padZero leftAlign).length =
      max width ((intSign value).length + (intDigits value).length) := by
  cases leftAlign <;> cases padZero <;>
    simp only [paddedInt, List.length_append, List.length_replicate, if_true, Bool.false_eq_true,
      if_false] <;> omega

theorem digitText_ne_nil (n : Nat) : digitText 10 n ≠ [] := by
  unfold digitText
  split_ifs with hn
  · simp
  · simpa [Nat.digits_eq_nil_iff_eq_zero] using hn

/-- The first digit of a number that is not zero. -/
theorem digitText_head {n : Nat} (hn : n ≠ 0) :
    ∃ c rest, digitText 10 n = c :: rest ∧ c ≠ ascii '0' ∧ isDigit c = true := by
  have hne : Nat.digits 10 n ≠ [] := Nat.digits_ne_nil_iff_ne_zero.mpr hn
  have hlast := Nat.getLast_digit_ne_zero 10 hn
  have hlt := Nat.digits_lt_base (by decide : 1 < 10) (List.getLast_mem hne)
  have hsplit := List.dropLast_append_getLast hne
  obtain ⟨hdigit, hvalue⟩ := decimalDigit_digitChar hlt
  refine ⟨digitChar ((Nat.digits 10 n).getLast hne),
    ((Nat.digits 10 n).dropLast.map digitChar).reverse, ?_, ?_, hdigit⟩
  · rw [digitText, if_neg hn]
    conv_lhs => rw [← hsplit]
    simp
  · intro hzero
    rw [hzero] at hvalue
    exact hlast hvalue.symm

theorem digitText_length_le {n : Nat} (hn : n < 4294967296) : (digitText 10 n).length ≤ 10 := by
  unfold digitText
  split_ifs
  · simp
  · rw [List.length_reverse, List.length_map]
    exact (Nat.digits_length_le_iff (by decide) n).mpr (by omega)

/-- One digit of a width in the kernel, with the numbers as natural numbers. -/
theorem addWidthDigit_toNat {width : Word} (hwidth : width.toNat ≤ 2147483647) {c : BitVec 8}
    (hc : isDigit c = true) :
    (addWidthDigit width c).toNat =
      Numeral.saturate 2147483647 10 width.toNat (decimalDigit c) := by
  have hdigit : (digitOf c).toNat = decimalDigit c := toNat_digit hc
  have hle := decimalDigit_le hc
  have hwidth' : width.toInt = width.toNat := BitVec.toInt_eq_toNat_of_lt (by omega)
  have hdigit' : (digitOf c).toInt = decimalDigit c := by
    rw [BitVec.toInt_eq_toNat_of_lt (by omega), hdigit]
  unfold addWidthDigit Numeral.saturate
  rw [hwidth', hdigit']
  by_cases hfull : (2147483647 - decimalDigit c) / 10 < width.toNat
  · rw [if_pos hfull, if_pos (by omega)]
    rfl
  · rw [if_neg hfull, if_neg (by omega), BitVec.toNat_add, BitVec.toNat_mul, hdigit]
    change (width.toNat * 10 % 4294967296 + decimalDigit c) % 4294967296 = _
    omega

theorem foldl_addWidthDigit_toNat {digits : List (BitVec 8)}
    (hdigits : ∀ c ∈ digits, isDigit c = true) {width : Word} (hwidth : width.toNat ≤ 2147483647) :
    (digits.foldl addWidthDigit width).toNat =
      (digits.map decimalDigit).foldl (Numeral.saturate 2147483647 10) width.toNat := by
  induction digits generalizing width with
  | nil => rfl
  | cons c digits ih =>
    obtain ⟨hc, hdigits⟩ := List.forall_mem_cons.mp hdigits
    have hstep := addWidthDigit_toNat hwidth hc
    have hnext : (addWidthDigit width c).toNat ≤ 2147483647 := by
      have hle := decimalDigit_le hc
      rw [hstep, Numeral.saturate_of_le (by decide) (by omega)]
      omega
    rw [List.foldl_cons, List.map_cons, List.foldl_cons, ih hdigits hnext, hstep]

/-- The width of the user library wraps around. -/
theorem foldl_width_toNat {digits : List (BitVec 8)} (hdigits : ∀ c ∈ digits, isDigit c = true)
    (width : Word) :
    (digits.foldl (fun width c => width * 10 + (c - ascii '0').setWidth 32) width).toNat =
      (digits.map decimalDigit).foldl (Numeral.wrap 4294967296 10) width.toNat := by
  induction digits generalizing width with
  | nil => rfl
  | cons c digits ih =>
    obtain ⟨hc, hdigits⟩ := List.forall_mem_cons.mp hdigits
    have hstep : (width * 10 + (c - ascii '0').setWidth 32).toNat =
        Numeral.wrap 4294967296 10 width.toNat (decimalDigit c) := by
      rw [BitVec.toNat_add, BitVec.toNat_mul, toNat_digit hc, Numeral.wrap]
      change (width.toNat * 10 % 4294967296 + decimalDigit c) % 4294967296 = _
      omega
    rw [List.foldl_cons, List.map_cons, List.foldl_cons, ih hdigits, hstep]

theorem widthText_isDigit (width : Nat) : ∀ c ∈ widthText width, isDigit c = true := by
  unfold widthText
  split_ifs
  · simp
  · exact (decimalValue_digitText width).1

theorem decimalValue_widthText (width : Nat) : decimalValue (widthText width) = width := by
  unfold widthText
  split_ifs with hwidth
  · rw [hwidth]
    rfl
  · exact (decimalValue_digitText width).2

/-- Both formatters read the width that is written. -/
theorem foldl_widthText {width : Nat} (hwidth : width < 2147483648) :
    (widthText width).foldl addWidthDigit 0 = BitVec.ofNat 32 width ∧
      widthOf (widthText width) = BitVec.ofNat 32 width := by
  have hdigits := widthText_isDigit width
  have hvalue : ((widthText width).map decimalDigit).foldl (fun n d => n * 10 + d) 0 = width :=
    decimalValue_widthText width
  have hsmall : ∀ d ∈ (widthText width).map decimalDigit, d ≤ 2147483647 := by
    intro d hd
    obtain ⟨c, hc, rfl⟩ := List.mem_map.mp hd
    have := decimalDigit_le (hdigits c hc)
    omega
  have hsaturate := Numeral.foldl_saturate (by decide : 2 ≤ 10) (by decide) hsmall 0
  have hwrap := Numeral.foldl_wrap 4294967296 10 ((widthText width).map decimalDigit) 0
  rw [hvalue] at hsaturate hwrap
  constructor
  · apply BitVec.eq_of_toNat_eq
    rw [foldl_addWidthDigit_toNat hdigits (by decide), BitVec.toNat_ofNat]
    refine hsaturate.trans ?_
    omega
  · apply BitVec.eq_of_toNat_eq
    rw [widthOf, foldl_width_toNat hdigits, BitVec.toNat_ofNat]
    exact hwrap

/-- Behind the flags there is no flag. -/
theorem widthText_head (width : Nat) :
    ∃ c rest, widthText width ++ [ascii 'd'] = c :: rest ∧ isKFlag c = false ∧
      isFlag c = false ∧ c ≠ ascii '*' := by
  by_cases hwidth : width = 0
  · subst hwidth
    exact ⟨ascii 'd', [], rfl, by decide⟩
  · obtain ⟨c, rest, htext, hzero, hdigit⟩ := digitText_head hwidth
    have hother : ∀ k : Char, k.toNat < 48 → c ≠ ascii k := by
      rintro k hk rfl
      have hrange := (isDigit_iff _).mp hdigit
      simp only [ascii, BitVec.toNat_ofNat] at hrange
      omega
    refine ⟨c, rest ++ [ascii 'd'], by simp [widthText, hwidth, htext], ?_, ?_,
      hother _ (by decide)⟩
    · simp [isKFlag, hzero, hother '-' (by decide), hother '+' (by decide), hother ' ' (by decide),
        hother '#' (by decide)]
    · simp [isFlag, hzero, hother '-' (by decide)]

/-- A loop over the flags or the digits stops at the first character that is neither. -/
theorem span_append {p : BitVec 8 → Bool} {front : List (BitVec 8)}
    (hfront : ∀ c ∈ front, p c = true) {c : BitVec 8} (hc : p c = false) (rest : List (BitVec 8)) :
    (front ++ c :: rest).takeWhile p = front ∧ (front ++ c :: rest).dropWhile p = c :: rest := by
  constructor
  · rw [List.takeWhile_append_of_pos hfront]
    simp [hc]
  · rw [List.dropWhile_append_of_pos hfront]
    simp [hc]

section Reading

variable {flags : List (BitVec 8)} {width : Nat}

theorem isFlag_iff (c : BitVec 8) : isFlag c = true ↔ c = ascii '0' ∨ c = ascii '-' := by
  simp [isFlag]

theorem foldl_setKFlag (hflags : ∀ c ∈ flags, isFlag c = true) (set : KFlags) :
    flags.foldl setKFlag set =
      { set with leftAlign := set.leftAlign || hasMinus flags,
                 padZero := set.padZero || hasZero flags } := by
  induction flags generalizing set with
  | nil => simp [hasMinus, hasZero]
  | cons c flags ih =>
    obtain ⟨hc, hflags⟩ := List.forall_mem_cons.mp hflags
    rw [List.foldl_cons, ih hflags]
    cases (isFlag_iff c).mp hc with
    | inl hzero =>
      subst hzero
      simp [setKFlag, hasMinus, hasZero, ascii]
    | inr hminus =>
      subst hminus
      simp [setKFlag, hasMinus, hasZero, ascii]

/-- The kernel reads the directive. -/
theorem kDirectiveOf_padded (hflags : ∀ c ∈ flags, isFlag c = true) (hwidth : width < 2147483648)
    (args : VaList) :
    kBehind (flags ++ (widthText width ++ [ascii 'd'])) = [ascii 'd'] ∧
      kDirectiveOf (flags ++ (widthText width ++ [ascii 'd'])) args =
        (⟨⟨hasMinus flags, false, false, hasZero flags, false⟩, BitVec.ofNat 32 width, -1⟩,
          args) := by
  obtain ⟨c, rest, htext, hkflag, hflag, hstar⟩ := widthText_head width
  have hall : ∀ c ∈ flags, isKFlag c = true := by
    intro c hc
    cases (isFlag_iff c).mp (hflags c hc) with
    | inl hzero => rw [hzero]; rfl
    | inr hminus => rw [hminus]; rfl
  obtain ⟨htake, hdrop⟩ := span_append hall hkflag rest
  have hconversion : isDigit (ascii 'd') = false := by decide
  obtain ⟨htake', hdrop'⟩ := span_append (widthText_isDigit width) hconversion []
  have hnostar : ¬(c :: rest).head? = some (ascii '*') := by simpa using hstar
  have hskip : kSkipWidth (c :: rest) = [ascii 'd'] := by
    rw [kSkipWidth, if_neg hnostar, ← htext, hdrop']
  have hnopoint : ¬[ascii 'd'].head? = some (ascii '.') := by decide
  constructor
  · rw [kBehind, htext, hdrop, hskip, kSkipPrecision, if_neg hnopoint]
    decide
  · have hprecision : kPrecisionOf [ascii 'd'] args = (-1, args) := if_neg hnopoint
    have hkwidth : kWidthOf (flags ++ c :: rest) args =
        (⟨hasMinus flags, false, false, hasZero flags, false⟩, BitVec.ofNat 32 width, args) := by
      unfold kWidthOf
      simp only [htake, hdrop, if_neg hnostar, foldl_setKFlag hflags, Bool.false_or]
      rw [← htext, htake', (foldl_widthText hwidth).1]
    simp only [kDirectiveOf, htext, hkwidth, hdrop, hskip, hprecision]

/-- The user library reads the directive. -/
theorem parseDirective_padded (hflags : ∀ c ∈ flags, isFlag c = true)
    (hwidth : width < 2147483648) :
    parseDirective (flags ++ (widthText width ++ [ascii 'd'])) =
      some (⟨hasZero flags, hasMinus flags, BitVec.ofNat 32 width, ascii 'd'⟩, []) := by
  obtain ⟨c, rest, htext, hkflag, hflag, hstar⟩ := widthText_head width
  obtain ⟨htake, hdrop⟩ := span_append hflags hflag rest
  have hconversion : isDigit (ascii 'd') = false := by decide
  obtain ⟨htake', hdrop'⟩ := span_append (widthText_isDigit width) hconversion []
  have hbehind : skipLength (skipPrecision [ascii 'd']) = [ascii 'd'] := by decide
  unfold parseDirective
  simp only [htext, htake, hdrop]
  rw [← htext, htake', hdrop', hbehind, (foldl_widthText hwidth).2]
  rfl

end Reading

/-- What the kernel prints: the padding zeros stand before the sign. -/
def kernelInt (value : Word) (width : Nat) (padZero leftAlign : Bool) : List (BitVec 8) :=
  let pad := width - ((intSign value).length + (intDigits value).length)
  if leftAlign then intSign value ++ (intDigits value ++ List.replicate pad (ascii ' '))
  else List.replicate pad (padChar padZero) ++ (intSign value ++ intDigits value)

/-- What the user library prints: the sign is not counted, and the flag for the left side is not
used. -/
def userInt (value : Word) (width : Nat) (padZero : Bool) : List (BitVec 8) :=
  intSign value ++ (List.replicate (width - (intDigits value).length) (padChar padZero) ++
    intDigits value)

/-- `uval`, whatever the sign is. -/
theorem toNat_magnitude (value : Word) :
    (if value.toInt < 0 then 0 - value else value).toNat = value.toInt.natAbs := by
  have hlt := value.isLt
  have hint := BitVec.toInt_eq_toNat_cond value
  change value.toInt =
    if 2 * value.toNat < 4294967296 then (value.toNat : Int) else value.toNat - 4294967296 at hint
  split_ifs with hneg
  · rw [toNat_neg]
    split_ifs at hint <;> omega
  · split_ifs at hint <;> omega

theorem intDigits_length_le (value : Word) : (intDigits value).length ≤ 10 := by
  apply digitText_length_le
  have hlow := value.le_toInt
  have hhigh := value.toInt_lt
  omega

/-- `width - len`, where the width is an `int`. -/
theorem toNat_pad {width len : Nat} (hwidth : width < 2147483648) (hlen : len < 2147483648) :
    (BitVec.ofNat 32 width - BitVec.ofNat 32 len).toInt.toNat = width - len := by
  have hsub : (BitVec.ofNat 32 width - BitVec.ofNat 32 len).toNat =
      (4294967296 - len + width) % 4294967296 := by
    rw [BitVec.toNat_sub, BitVec.toNat_ofNat, BitVec.toNat_ofNat,
      Nat.mod_eq_of_lt (by omega : len < 2 ^ 32), Nat.mod_eq_of_lt (by omega : width < 2 ^ 32)]
  have hint := BitVec.toInt_eq_toNat_cond (BitVec.ofNat 32 width - BitVec.ofNat 32 len)
  rw [hsub] at hint
  split_ifs at hint <;> omega

/-- The sign and the digits of the kernel. -/
theorem kIntText_eq {width : Nat} (hwidth : width < 2147483648) (padZero leftAlign : Bool)
    (value : Word) :
    kIntText ⟨⟨leftAlign, false, false, padZero, false⟩, BitVec.ofNat 32 width, -1⟩ value =
      kernelInt value width padZero leftAlign := by
  have hsign : kSign (isNegative value true) false false = intSign value := by
    by_cases hneg : value.toInt < 0 <;> simp [kSign, isNegative, intSign, hneg]
  have hdigits : digitText 10 (kMagnitude value true).toNat = intDigits value := by
    rw [intDigits, ← toNat_magnitude]
    by_cases hneg : value.toInt < 0 <;> simp [kMagnitude, isNegative, hneg]
  have hlength := intDigits_length_le value
  have hsign_length : (intSign value).length ≤ 1 := by
    unfold intSign
    split_ifs <;> simp
  have hnum : kNumDigits (intDigits value) (-1) = BitVec.ofNat 32 (intDigits value).length := by
    have hminus : (-1 : Word).toInt = -1 := by decide
    rw [kNumDigits, if_neg (by omega)]
  have hpad : kPad (intSign value) (intDigits value) (BitVec.ofNat 32 width) (-1) =
      BitVec.ofNat 32 width -
        BitVec.ofNat 32 ((intSign value).length + (intDigits value).length) := by
    rw [kPad, hnum, Nat.add_comm, BitVec.ofNat_add]
  have hzeros : fill (BitVec.ofNat 32 (intDigits value).length -
      BitVec.ofNat 32 (intDigits value).length) (ascii '0') = [] := by
    rw [BitVec.sub_self]
    rfl
  have hchar : kPadChar (-1) padZero = padChar padZero := by
    cases padZero <;> rfl
  unfold kIntText kFieldText kernelInt
  simp only [hsign, hdigits, hnum, hzeros, hpad, hchar, List.nil_append]
  simp only [fill, toNat_pad hwidth (by omega : (intSign value).length + (intDigits value).length <
    2147483648), List.append_assoc]

/-- The sign and the digits of the user library. -/
theorem putInt_eq {width : Nat} (hwidth : width < 2147483648) (limit : Nat) (padZero : Bool)
    (value : Word) :
    putInt limit [] value 10 (BitVec.ofNat 32 width) padZero true =
      emit limit [] (userInt value width padZero) := by
  have hdigits : digitText 10 (if value.toInt < 0 then 0 - value else value).toNat =
      intDigits value := by
    rw [intDigits, toNat_magnitude]
  have hlength := intDigits_length_le value
  have hpad : padding (BitVec.ofNat 32 width) (intDigits value).length (padChar padZero) =
      List.replicate (width - (intDigits value).length) (padChar padZero) := by
    rw [padding, toNat_pad hwidth (by omega)]
  unfold putInt userInt intSign
  by_cases hneg : value.toInt < 0
  · rw [if_pos hneg] at hdigits
    simp only [hneg, putUint, hdigits, hpad, emit_emit, if_true, and_self, List.append_assoc]
  · rw [if_neg hneg] at hdigits
    simp only [hneg, putUint, hdigits, hpad, emit_emit, if_false, and_false, List.nil_append]

section Writing

variable {flags : List (BitVec 8)} {width : Nat}

theorem paddedFormat_noNul (hflags : ∀ c ∈ flags, isFlag c = true) :
    0#8 ∉ paddedFormat flags width := by
  intro hmem
  simp only [paddedFormat, List.mem_cons, List.mem_append, List.not_mem_nil, or_false] at hmem
  rcases hmem with hpercent | hflag | hdigit | hd
  · exact absurd hpercent (by decide)
  · exact absurd (hflags _ hflag) (by decide)
  · exact absurd (widthText_isDigit width _ hdigit) (by decide)
  · exact absurd hd (by decide)

/-- What the kernel stores for `%d` with flags and a width. -/
theorem kVsprintfAt_padded (hflags : ∀ c ∈ flags, isFlag c = true) (hwidth : width < 2147483648)
    {rounds : Nat} (hrounds : (paddedFormat flags width).length < rounds) (args : VaList) :
    kVsprintfAt rounds (paddedFormat flags width ++ [0#8]) args =
      some ⟨emit 1023 [] (kernelInt (args 0).value width (hasZero flags) (hasMinus flags)) ++ [0],
        int32 (emit 1023 [] (kernelInt (args 0).value width (hasZero flags)
          (hasMinus flags))).length⟩ := by
  obtain ⟨hbehind, hdirective⟩ := kDirectiveOf_padded hflags hwidth args
  have hinside : endsInside (paddedFormat flags width) = false := by
    rw [paddedFormat, endsInside_conversion hbehind]
    simp [endsInside]
  have htext : kText (paddedFormat flags width) args =
      kernelInt (args 0).value width (hasZero flags) (hasMinus flags) := by
    rw [paddedFormat, kText_conversion hbehind, hdirective, kConvertText, if_pos (Or.inl rfl),
      kIntText_eq hwidth]
    simp [kText]
  have hloop : kFormatAt 1023 rounds (paddedFormat flags width ++ [0#8]) args [] = _ :=
    kFormatAt_terminated (paddedFormat_noNul hflags) hrounds (by simp)
  rw [kVsprintfAt, hloop, hinside, htext, if_neg (by simp)]
  rfl

/-- What the user library stores for `%d` with flags and a width. -/
theorem vsnprintfAt_padded (hflags : ∀ c ∈ flags, isFlag c = true) (hwidth : width < 2147483648)
    {size : Nat} (hsize : 1 < size) (args : VaList) :
    vsnprintfAt size (paddedFormat flags width ++ [0#8]) args =
      some ⟨emit (size - 1) [] (userInt (args 0).value width (hasZero flags)) ++ [0],
        int32 (emit (size - 1) [] (userInt (args 0).value width (hasZero flags))).length⟩ := by
  have hloop : formatLoop (size - 1) (paddedFormat flags width).length (paddedFormat flags width)
      args [] = emit (size - 1) [] (userInt (args 0).value width (hasZero flags)) := by
    have hparse := parseDirective_padded hflags hwidth
    have hroom : ¬size - 1 ≤ ([] : List (BitVec 8)).length := by
      simp only [List.length_nil]
      omega
    have hconvert : convert (size - 1) ⟨hasZero flags, hasMinus flags, BitVec.ofNat 32 width,
        ascii 'd'⟩ args [] =
        (emit (size - 1) [] (userInt (args 0).value width (hasZero flags)), args.next) := by
      rw [convert, if_pos (Or.inl rfl), putInt_eq hwidth]
    have hend (rounds : Nat) (args : VaList) (out : List (BitVec 8)) :
        formatLoop (size - 1) rounds [] args out = out := by
      cases rounds <;> rfl
    rw [paddedFormat, List.length_cons, formatLoop, if_neg hroom, if_neg (by simp), hparse]
    simp only [hconvert, hend]
  rw [vsnprintfAt_eq (by omega) (paddedFormat_noNul hflags), hloop]
  rfl

end Writing

section Deciding

variable {value : Word} {width : Nat} {padZero leftAlign : Bool}

/-- The kernel pads no negative number with zeros. -/
def KernelPadsRight (value : Word) (width : Nat) (padZero leftAlign : Bool) : Prop :=
  value.toInt < 0 → padZero = true →
    leftAlign = true ∨ width ≤ (intSign value).length + (intDigits value).length

/-- The user library pads numbers that are not negative, and only on the left. -/
def UserPadsRight (value : Word) (width : Nat) (leftAlign : Bool) : Prop :=
  width ≤ (intDigits value).length ∨ 0 ≤ value.toInt ∧ leftAlign = false

theorem intSign_of_neg (hneg : value.toInt < 0) : intSign value = [ascii '-'] := if_pos hneg

theorem intSign_of_nonneg (hvalue : 0 ≤ value.toInt) : intSign value = [] :=
  if_neg (not_lt.mpr hvalue)

theorem kernelInt_eq_iff :
    kernelInt value width padZero leftAlign = paddedInt value width padZero leftAlign ↔
      KernelPadsRight value width padZero leftAlign := by
  unfold kernelInt paddedInt KernelPadsRight
  cases leftAlign with
  | true => simp
  | false =>
    cases padZero with
    | false => simp [padChar]
    | true =>
      by_cases hneg : value.toInt < 0
      · rw [intSign_of_neg hneg]
        generalize intDigits value = digits
        simp only [padChar, List.length_singleton, hneg, Bool.false_eq_true, if_false, if_true,
          false_or, true_implies]
        cases hpad : width - (1 + digits.length) with
        | zero =>
          have hle : width ≤ 1 + digits.length := by omega
          simp [hle]
        | succ pad =>
          have hgt : ¬width ≤ 1 + digits.length := by omega
          simp [List.replicate_succ, hgt, ascii]
      · rw [intSign_of_nonneg (not_lt.mp hneg)]
        simp [padChar, hneg]

/-- The characters of the digits are no spaces. -/
theorem intDigits_cons (hvalue : value.toInt ≠ 0) :
    ∃ c rest, intDigits value = c :: rest ∧ c ≠ ascii '0' ∧ c ≠ ascii ' ' := by
  obtain ⟨c, rest, htext, hzero, hdigit⟩ := digitText_head (Int.natAbs_ne_zero.mpr hvalue)
  refine ⟨c, rest, htext, hzero, ?_⟩
  rintro rfl
  exact absurd hdigit (by decide)

theorem intDigits_concat (value : Word) :
    ∃ front c, intDigits value = front ++ [c] ∧ c ≠ ascii ' ' := by
  have hne : intDigits value ≠ [] := digitText_ne_nil _
  refine ⟨(intDigits value).dropLast, (intDigits value).getLast hne,
    (List.dropLast_append_getLast hne).symm, ?_⟩
  intro hspace
  have hdigit := (decimalValue_digitText _).1 _ (List.getLast_mem hne)
  rw [hspace] at hdigit
  exact absurd hdigit (by decide)

/-- A number that is not negative, on the left: the padding of the user library is on the wrong
side. -/
theorem userInt_left_ne (hvalue : 0 ≤ value.toInt) (hwide : (intDigits value).length < width) :
    ¬paddedInt value width padZero true <+: userInt value width padZero := by
  intro hfront
  obtain ⟨front, c, hdigits, hspace⟩ := intDigits_concat value
  obtain ⟨pad, hpad⟩ : ∃ pad, width - (intDigits value).length = pad + 1 :=
    ⟨width - (intDigits value).length - 1, by omega⟩
  have heq := hfront.eq_of_length (by
    rw [paddedInt_length, userInt]
    simp only [intSign_of_nonneg hvalue, List.length_append, List.length_replicate,
      List.length_nil]
    omega)
  simp only [paddedInt, userInt, intSign_of_nonneg hvalue, List.length_nil, Nat.zero_add, hpad,
    if_true, List.nil_append, List.replicate_succ'] at heq
  rw [hdigits, ← List.append_assoc, ← List.append_assoc] at heq
  exact hspace (List.singleton_inj.mp (List.append_inj_right' heq rfl)).symm

/-- A negative number: the user library pads behind the sign, and one character too many. -/
theorem userInt_negative_ne (hneg : value.toInt < 0) (hwide : (intDigits value).length < width) :
    ¬paddedInt value width padZero leftAlign <+: userInt value width padZero := by
  obtain ⟨c, rest, hdigits, hzero, hspace⟩ := intDigits_cons hneg.ne
  obtain ⟨pad, hpad⟩ : ∃ pad, width - (intDigits value).length = pad + 1 :=
    ⟨width - (intDigits value).length - 1, by omega⟩
  have hless : width - (1 + (intDigits value).length) = pad := by omega
  rw [hdigits] at hpad hless
  intro hfront
  simp only [paddedInt, userInt, intSign_of_neg hneg, List.length_singleton, hpad, hless, hdigits,
    List.replicate_succ, List.cons_append, List.nil_append] at hfront
  cases leftAlign with
  | true =>
    simp only [if_true, List.cons_prefix_cons] at hfront
    cases padZero with
    | true => exact hzero hfront.2.1
    | false => exact hspace hfront.2.1
  | false =>
    cases padZero with
    | true =>
      simp only [padChar, Bool.false_eq_true, if_true, if_false, List.cons_prefix_cons] at hfront
      have hshift : ascii '0' :: (List.replicate pad (ascii '0') ++ c :: rest) =
          List.replicate pad (ascii '0') ++ ascii '0' :: c :: rest := by
        rw [← List.cons_append, ← List.replicate_succ, List.replicate_succ', List.append_assoc]
        rfl
      rw [hshift, List.prefix_append_right_inj] at hfront
      exact hzero (List.cons_prefix_cons.mp hfront.2).1
    | false =>
      cases pad with
      | zero =>
        simp only [padChar, Bool.false_eq_true, if_false, List.replicate_zero, List.nil_append,
          List.cons_prefix_cons] at hfront
        exact hspace hfront.2.1
      | succ pad =>
        simp only [Bool.false_eq_true, if_false, List.replicate_succ, List.cons_append,
          List.cons_prefix_cons] at hfront
        exact absurd hfront.1 (by decide)

theorem UserPadsRight.of_prefix
    (hfront : paddedInt value width padZero leftAlign <+: userInt value width padZero) :
    UserPadsRight value width leftAlign := by
  by_contra hwrong
  unfold UserPadsRight at hwrong
  have hwide : (intDigits value).length < width := by omega
  by_cases hneg : value.toInt < 0
  · exact userInt_negative_ne hneg hwide hfront
  · cases leftAlign with
    | true => exact userInt_left_ne (not_lt.mp hneg) hwide hfront
    | false => exact hwrong (Or.inr ⟨not_lt.mp hneg, rfl⟩)

theorem UserPadsRight.eq (hright : UserPadsRight value width leftAlign) :
    paddedInt value width padZero leftAlign = userInt value width padZero := by
  unfold paddedInt userInt
  cases hright with
  | inl hnarrow =>
    have hnone : width - ((intSign value).length + (intDigits value).length) = 0 := by omega
    have hnone' : width - (intDigits value).length = 0 := by omega
    rw [hnone, hnone']
    simp
  | inr hright =>
    obtain ⟨hvalue, hleft⟩ := hright
    rw [intSign_of_nonneg hvalue, hleft]
    cases padZero <;> simp [padChar]

end Deciding

/-- A text that the buffer holds is stored if and only if it is printed, when nothing else that is
printed starts with it. -/
theorem emit_nil_eq_iff {limit : Nat} {text printed : List (BitVec 8)} (htext : text.length ≤ limit)
    (hprinted : text <+: printed → text = printed) :
    emit limit [] printed = text ↔ text = printed := by
  rw [emit, List.nil_append, List.length_nil, Nat.sub_zero]
  constructor
  · intro htake
    apply hprinted
    rw [← htake]
    exact List.take_prefix limit printed
  · intro heq
    rw [← heq, List.take_of_length_le htext]

/-- `%d` with flags and a width, for every `int`, in a buffer that holds the text of
C99: the kernel stores this text unless it pads a negative number with zeros on the left, and the
user library unless it pads a negative number, or any number on the right. -/
theorem padded_integers_iff (flags : List (BitVec 8)) (width : Nat) (args : VaList)
    (hflags : ∀ c ∈ flags, isFlag c = true) (hwidth : width < 2147483648) :
    ((paddedInt (args 0).value width (hasZero flags) (hasMinus flags)).length ≤ 1023 →
      ∀ rounds, (paddedFormat flags width).length < rounds →
        ((kVsprintfAt rounds (paddedFormat flags width ++ [0#8]) args).map Printed.stored =
            some (paddedInt (args 0).value width (hasZero flags) (hasMinus flags) ++ [0#8]) ↔
          KernelPadsRight (args 0).value width (hasZero flags) (hasMinus flags))) ∧
    ∀ size, (paddedInt (args 0).value width (hasZero flags) (hasMinus flags)).length < size →
      ((vsnprintfAt size (paddedFormat flags width ++ [0#8]) args).map Printed.stored =
          some (paddedInt (args 0).value width (hasZero flags) (hasMinus flags) ++ [0#8]) ↔
        UserPadsRight (args 0).value width (hasMinus flags)) := by
  have hstored : ∀ text text' : List (BitVec 8),
      some (text ++ [0#8]) = some (text' ++ [0#8]) ↔ text = text' := by
    intro text text'
    rw [Option.some_inj, List.append_left_inj]
  constructor
  · intro hfits rounds hrounds
    have hlength : (kernelInt (args 0).value width (hasZero flags) (hasMinus flags)).length =
        (paddedInt (args 0).value width (hasZero flags) (hasMinus flags)).length := by
      rw [paddedInt_length]
      unfold kernelInt
      cases hasMinus flags <;>
        simp only [List.length_append, List.length_replicate, if_true, Bool.false_eq_true,
          if_false] <;> omega
    rw [kVsprintfAt_padded hflags hwidth hrounds, Option.map_some]
    refine (hstored _ _).trans ?_
    rw [emit_nil_eq_iff hfits fun h => h.eq_of_length hlength.symm, eq_comm, kernelInt_eq_iff]
  · intro size hfits
    have hlimit : (paddedInt (args 0).value width (hasZero flags) (hasMinus flags)).length ≤
        size - 1 := by
      omega
    have hsize : 1 < size := by
      have hpos := List.length_pos_iff.mpr (digitText_ne_nil (args 0).value.toInt.natAbs)
      rw [paddedInt_length, intDigits] at hfits
      omega
    rw [vsnprintfAt_padded hflags hwidth hsize, Option.map_some]
    refine (hstored _ _).trans ?_
    rw [emit_nil_eq_iff hlimit fun h => (UserPadsRight.of_prefix h).eq]
    constructor
    · intro heq
      apply UserPadsRight.of_prefix
      rw [heq]
    · exact UserPadsRight.eq

theorem padded_integers_five :
    ((kVsprintfAt 9 (paddedFormat [ascii '0'] 5 ++ [0#8]) (constArgs 42)).map Printed.stored =
        some (paddedInt 42 5 true false ++ [0#8]) ↔ KernelPadsRight 42 5 true false) ∧
      ((vsnprintfAt 64 (paddedFormat [ascii '0'] 5 ++ [0#8]) (constArgs 42)).map Printed.stored =
        some (paddedInt 42 5 true false ++ [0#8]) ↔ UserPadsRight 42 5 false) := by
  have hboth := padded_integers_iff [ascii '0'] 5 (constArgs 42) (by decide) (by omega)
  exact ⟨hboth.1 (by decide +kernel) 9 (by decide +kernel), hboth.2 64 (by decide +kernel)⟩

/-- `%05d` and -42: the kernel stores `00-42`, the user library `-00042`. -/
theorem padded_integers_minus :
    (kVsprintfAt 9 (paddedFormat [ascii '0'] 5 ++ [0#8]) (constArgs (-42))).map Printed.stored ≠
        some (paddedInt (-42) 5 true false ++ [0#8]) ∧
      (vsnprintfAt 64 (paddedFormat [ascii '0'] 5 ++ [0#8]) (constArgs (-42))).map
          Printed.stored ≠ some (paddedInt (-42) 5 true false ++ [0#8]) := by
  constructor
  · decide +kernel
  · decide +kernel

end EnclaveOS
