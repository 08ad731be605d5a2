import EnclaveOS.Foundation.Numeral
import EnclaveOS.Foundation.Terminated
import EnclaveOS.User.Printf

/-!
# Decimal - integers as decimal text

`itoa` and `atoi` of `user_libc.c` with their twins `k_itoa` and
`k_atoi` of `klib.c`.  A number is accumulated as an `unsigned int` that stays at
its largest value, and clamped at the end.
-/

namespace EnclaveOS

open PageWord

/-- What `itoa` stores, for a base from 2 on. -/
def intToText (value : Word) (base : Nat) : List (BitVec 8) :=
  if value = 0 then [ascii '0', 0]
  else if value.toInt < 0 ∧ base = 10 then
    ascii '-' :: digitText base (0 - value).toNat ++ [0]
  else digitText base value.toNat ++ [0]

/-- `itoa` of the user library. -/
def itoa (value : Word) (base : Nat) : List (BitVec 8) := intToText value base

/-- `k_itoa` of the kernel. -/
def kItoa (value : Word) (base : Nat) : List (BitVec 8) := intToText value base

def isSpace (c : BitVec 8) : Bool := c == ascii ' '

/-- `while (*str == ' ') str++`. -/
def skipSpaces (str : List (BitVec 8)) : Option (List (BitVec 8)) :=
  (foldWhile isSpace (fun _ _ => ()) () str).map Prod.snd

/-- `negative`, and what is behind the sign. -/
def readSign (str : List (BitVec 8)) : Option (Bool × List (BitVec 8)) := do
  let c ← str.head?
  if c = ascii '-' then some (true, str.tail)
  else if c = ascii '+' then some (false, str.tail)
  else some (false, str)

/-- One digit for `uresult`. -/
def addDecimal (uresult : Word) (c : BitVec 8) : Word :=
  let digit := (c - ascii '0').setWidth 32
  if (0xFFFFFFFF - digit) / 10 < uresult then 0xFFFFFFFF else uresult * 10 + digit

/-- The `int` for a sign and a magnitude. -/
def clampWord (negative : Bool) (uresult : Word) : Word :=
  if negative then if uresult ≤ 0x80000000 then 0 - uresult else 0x80000000
  else if uresult ≤ 0x7FFFFFFF then uresult else 0x7FFFFFFF

/-- `atoi` behind the test for `NULL`. -/
def textToInt (str : List (BitVec 8)) : Option Word := do
  let str ← skipSpaces str
  let (negative, str) ← readSign str
  let (uresult, _) ← foldWhile isDigit addDecimal 0 str
  some (clampWord negative uresult)

/-- `atoi` of the user library; `none` is `NULL`. -/
def atoi : Option (List (BitVec 8)) → Option Word
  | none => some 0
  | some str => textToInt str

/-- `k_atoi` of the kernel. -/
def kAtoi : Option (List (BitVec 8)) → Option Word
  | none => some 0
  | some str => textToInt str

/-- The value of a digit. -/
def decimalDigit (c : BitVec 8) : Nat := c.toNat - 48

/-- The value of a row of digits. -/
def decimalValue (digits : List (BitVec 8)) : Nat := Numeral.value 10 (digits.map decimalDigit)

/-- The sign of a number; `some true` is the minus sign. -/
def signText : Option Bool → List (BitVec 8)
  | none => []
  | some true => [ascii '-']
  | some false => [ascii '+']

def signed (negative : Bool) (n : Nat) : Int := if negative then -n else n

/-- The nearest integer that an `int` holds. -/
def clampInt (n : Int) : Int := max (-2147483648) (min n 2147483647)

theorem isDigit_iff (c : BitVec 8) : isDigit c = true ↔ 48 ≤ c.toNat ∧ c.toNat ≤ 57 := by
  simp [isDigit, ascii, BitVec.le_def]

theorem skipSpaces_append {c : BitVec 8} (hc : c ≠ ascii ' ') (spaces : Nat)
    (rest : List (BitVec 8)) :
    skipSpaces (List.replicate spaces (ascii ' ') ++ c :: rest) = some (c :: rest) := by
  have hall : ∀ c ∈ List.replicate spaces (ascii ' '), isSpace c = true := by
    intro c hc
    rw [List.eq_of_mem_replicate hc]
    rfl
  rw [skipSpaces, foldWhile_append hall (by simpa [isSpace] using hc)]
  rfl

theorem toNat_neg (w : Word) : (0 - w).toNat = (4294967296 - w.toNat) % 4294967296 := by
  have hsub : 0 - w = -w := BitVec.zero_sub w
  rw [hsub, BitVec.toNat_neg]

theorem decimalDigit_le {c : BitVec 8} (hc : isDigit c = true) : decimalDigit c ≤ 9 := by
  have hrange := (isDigit_iff c).mp hc
  unfold decimalDigit
  omega

/-- `*str - '0'`. -/
theorem toNat_digit {c : BitVec 8} (hc : isDigit c = true) :
    ((c - ascii '0').setWidth 32 : Word).toNat = decimalDigit c := by
  obtain ⟨hlow, hhigh⟩ := (isDigit_iff c).mp hc
  have hsub : (c - ascii '0').toNat = c.toNat - 48 := BitVec.toNat_sub_of_le hlow
  rw [BitVec.toNat_setWidth, hsub, decimalDigit]
  omega

/-- One digit, with the numbers as natural numbers. -/
theorem addDecimal_toNat (uresult : Word) {c : BitVec 8} (hc : isDigit c = true) :
    (addDecimal uresult c).toNat =
      Numeral.saturate 4294967295 10 uresult.toNat (decimalDigit c) := by
  have hdigit := toNat_digit hc
  have hle := decimalDigit_le hc
  have hbound : ((0xFFFFFFFF - (c - ascii '0').setWidth 32) / 10 : Word).toNat =
      (4294967295 - decimalDigit c) / 10 := by
    have hsmall : (c - ascii '0').setWidth 32 ≤ (0xFFFFFFFF : Word) := by
      rw [BitVec.le_def, hdigit]
      exact hle.trans (by decide)
    rw [BitVec.toNat_udiv, BitVec.toNat_sub_of_le hsmall, hdigit]
    rfl
  have hfull : (0xFFFFFFFF - (c - ascii '0').setWidth 32) / 10 < uresult ↔
      (4294967295 - decimalDigit c) / 10 < uresult.toNat := by
    rw [BitVec.lt_def, hbound]
  unfold addDecimal Numeral.saturate
  dsimp only
  by_cases h : (4294967295 - decimalDigit c) / 10 < uresult.toNat
  · rw [if_pos h, if_pos (hfull.mpr h)]
    rfl
  · rw [if_neg h, if_neg (mt hfull.mp h), BitVec.toNat_add, BitVec.toNat_mul, hdigit]
    change (uresult.toNat * 10 % 4294967296 + decimalDigit c) % 4294967296 = _
    omega

theorem foldl_addDecimal_toNat {digits : List (BitVec 8)} (hdigits : ∀ c ∈ digits, isDigit c = true)
    (uresult : Word) :
    (digits.foldl addDecimal uresult).toNat =
      (digits.map decimalDigit).foldl (Numeral.saturate 4294967295 10) uresult.toNat := by
  induction digits generalizing uresult with
  | nil => rfl
  | cons c digits ih =>
    obtain ⟨hc, hdigits⟩ := List.forall_mem_cons.mp hdigits
    rw [List.foldl_cons, List.map_cons, List.foldl_cons, ih hdigits, addDecimal_toNat _ hc]

/-- The magnitude of a row of digits, as far as an `unsigned int` holds it. -/
theorem foldl_addDecimal {digits : List (BitVec 8)} (hdigits : ∀ c ∈ digits, isDigit c = true) :
    (digits.foldl addDecimal 0).toNat = min (decimalValue digits) 4294967295 := by
  have hsmall : ∀ d ∈ digits.map decimalDigit, d ≤ 4294967295 := by
    intro d hd
    obtain ⟨c, -, rfl⟩ := List.mem_map.mp hd
    unfold decimalDigit
    omega
  rw [foldl_addDecimal_toNat hdigits]
  exact Numeral.foldl_saturate (by decide) (by decide) hsmall 0

theorem clampWord_toInt (negative : Bool) (uresult : Word) :
    (clampWord negative uresult).toInt = clampInt (signed negative uresult.toNat) := by
  have hlt := uresult.isLt
  cases negative with
  | false =>
    simp only [clampWord, signed, clampInt, Bool.false_eq_true, if_false]
    split_ifs with hle
    · have hle' : uresult.toNat ≤ 2147483647 := hle
      rw [BitVec.toInt_eq_toNat_of_lt (by omega)]
      omega
    · have hgt : ¬uresult.toNat ≤ 2147483647 := hle
      have htop : (0x7FFFFFFF : Word).toInt = 2147483647 := by decide
      omega
  | true =>
    simp only [clampWord, signed, clampInt, if_true]
    split_ifs with hle
    · have hle' : uresult.toNat ≤ 2147483648 := hle
      have hneg := toNat_neg uresult
      rw [BitVec.toInt_eq_toNat_cond]
      change (if 2 * (0 - uresult).toNat < 4294967296 then ((0 - uresult).toNat : Int)
        else (0 - uresult).toNat - 4294967296) = _
      rw [hneg]
      split_ifs <;> omega
    · have hgt : ¬uresult.toNat ≤ 2147483648 := hle
      have hbottom : (0x80000000 : Word).toInt = -2147483648 := by decide
      omega

/-- A number that no `unsigned int` holds is clamped as its magnitude is. -/
theorem clampInt_min (negative : Bool) (n : Nat) :
    clampInt (signed negative (min n 4294967295)) = clampInt (signed negative n) := by
  cases negative <;> simp only [clampInt, signed, Bool.false_eq_true, if_false, if_true] <;> omega

/-- The integer that a text stands for. -/
theorem textToInt_eq (spaces : Nat) (sign : Option Bool) {digits : List (BitVec 8)} {c : BitVec 8}
    (rest : List (BitVec 8)) (hdigits : ∀ c ∈ digits, isDigit c = true) (hc : isDigit c = false)
    (hlongest : digits = [] → sign = none → c ∉ [ascii ' ', ascii '-', ascii '+']) :
    ∃ v : Word, textToInt (List.replicate spaces (ascii ' ') ++ (signText sign ++
        (digits ++ c :: rest))) = some v ∧
      v.toInt = clampInt (signed (sign == some true) (decimalValue digits)) := by
  have hnumber := foldl_addDecimal hdigits
  have hread : foldWhile isDigit addDecimal 0 (digits ++ c :: rest) = _ :=
    foldWhile_append hdigits hc (0 : Word) rest
  refine ⟨clampWord (sign == some true) (digits.foldl addDecimal 0), ?_, ?_⟩
  · -- the character at which the spaces end
    obtain ⟨first, tail, hfirst, hspace, hsign⟩ : ∃ first tail,
        signText sign ++ (digits ++ c :: rest) = first :: tail ∧ first ≠ ascii ' ' ∧
        readSign (first :: tail) = some (sign == some true, digits ++ c :: rest) := by
      match sign with
      | some true => exact ⟨_, _, rfl, by decide, rfl⟩
      | some false => exact ⟨_, _, rfl, by decide, rfl⟩
      | none =>
        cases digits with
        | nil =>
          have hnot := hlongest rfl rfl
          simp only [List.mem_cons, List.not_mem_nil, or_false, not_or] at hnot
          exact ⟨c, rest, rfl, hnot.1, by simp [readSign, hnot]⟩
        | cons d digits =>
          have hd := (isDigit_iff d).mp (hdigits d List.mem_cons_self)
          have hother : ∀ k : Char, k.toNat < 48 → d ≠ ascii k := by
            rintro k hk rfl
            simp only [ascii, BitVec.toNat_ofNat] at hd
            omega
          refine ⟨d, digits ++ c :: rest, rfl, hother ' ' (by decide), ?_⟩
          simp [readSign, hother '-' (by decide), hother '+' (by decide)]
    rw [hfirst, textToInt, skipSpaces_append hspace]
    simp only [Option.bind_eq_bind, Option.bind_some, hsign, hread]
  · rw [clampWord_toInt, hnumber, clampInt_min]

theorem decimalDigit_digitChar {d : Nat} (hd : d < 10) :
    isDigit (digitChar d) = true ∧ decimalDigit (digitChar d) = d := by
  have hnat : (digitChar d).toNat = d + 48 := by
    rw [digitChar, if_pos hd, BitVec.toNat_ofNat]
    omega
  rw [isDigit_iff, decimalDigit, hnat]
  omega

/-- The digits of a number, read again. -/
theorem decimalValue_digitText (n : Nat) :
    (∀ c ∈ digitText 10 n, isDigit c = true) ∧ decimalValue (digitText 10 n) = n := by
  unfold digitText
  split_ifs with hn
  · subst hn
    decide
  · have hlt : ∀ d ∈ (Nat.digits 10 n).reverse, d < 10 := fun d hd =>
      Nat.digits_lt_base (by decide) (List.mem_reverse.mp hd)
    rw [← List.map_reverse]
    constructor
    · intro c hc
      obtain ⟨d, hd, rfl⟩ := List.mem_map.mp hc
      exact (decimalDigit_digitChar (hlt d hd)).1
    · have hsame : (Nat.digits 10 n).reverse.map (decimalDigit ∘ digitChar) =
          (Nat.digits 10 n).reverse := by
        conv_rhs => rw [← List.map_id (Nat.digits 10 n).reverse]
        exact List.map_congr_left fun d hd => (decimalDigit_digitChar (hlt d hd)).2
      rw [decimalValue, List.map_map, hsame, Numeral.value_digits]

/-- What `itoa` stores for base 10: an optional minus sign and the digits. -/
theorem intToText_decimal (value : Word) : ∃ n : Nat,
    intToText value 10 =
      signText (if value.toInt < 0 then some true else none) ++ (digitText 10 n ++ [0]) ∧
      signed (value.toInt < 0) n = value.toInt := by
  have hlt := value.isLt
  unfold intToText
  by_cases hzero : value = 0
  · subst hzero
    exact ⟨0, by decide, by decide⟩
  · rw [if_neg hzero]
    by_cases hneg : value.toInt < 0
    · have hbig : 2147483648 ≤ value.toNat := by
        by_contra hsmall
        rw [BitVec.toInt_eq_toNat_of_lt (by omega)] at hneg
        omega
      have hmagnitude : (0 - value).toNat = 4294967296 - value.toNat := by
        rw [toNat_neg]
        omega
      have hint : value.toInt = (value.toNat : Int) - 4294967296 := by
        rw [BitVec.toInt_eq_toNat_cond, if_neg (by omega)]
        rfl
      refine ⟨(0 - value).toNat, by simp [hneg, signText], ?_⟩
      rw [signed, if_pos (decide_eq_true hneg), hmagnitude, hint]
      omega
    · have hint : value.toInt = value.toNat := by
        rw [BitVec.toInt_eq_toNat_cond] at hneg ⊢
        split_ifs with hsmall
        · rfl
        · rw [if_neg hsmall] at hneg
          omega
      exact ⟨value.toNat, by simp [hneg, signText], by simp [signed, hint]⟩

theorem textToInt_intToText (value : Word) (more : List (BitVec 8)) :
    textToInt (intToText value 10 ++ more) = some value := by
  obtain ⟨n, htext, hvalue⟩ := intToText_decimal value
  obtain ⟨hdigits, hn⟩ := decimalValue_digitText n
  obtain ⟨v, hv, hint⟩ := textToInt_eq 0 (if value.toInt < 0 then some true else none) more
    hdigits (rfl : isDigit 0 = false) (fun _ _ => by decide)
  have hclamp : clampInt value.toInt = value.toInt := by
    have hlow := value.le_toInt
    have hhigh := value.toInt_lt
    unfold clampInt
    omega
  have hsign : ((if value.toInt < 0 then some true else none) == some true) =
      decide (value.toInt < 0) := by
    by_cases hneg : value.toInt < 0 <;> simp [hneg]
  rw [hn, hsign, hvalue, hclamp] at hint
  obtain rfl := BitVec.toInt_inj.mp hint
  rw [htext]
  simpa using hv

/-- Every `int` that is written is read back, and a text that stands for an integer is read as
the nearest `int`; in the kernel and in the user library. -/
theorem decimal_round_trip :
    (∀ (v : Word) (more : List (BitVec 8)),
      kAtoi (some (kItoa v 10 ++ more)) = some v ∧ atoi (some (itoa v 10 ++ more)) = some v) ∧
    ∀ (spaces : Nat) (sign : Option Bool) (digits : List (BitVec 8)) (c : BitVec 8)
      (rest : List (BitVec 8)), (∀ c ∈ digits, isDigit c = true) → isDigit c = false →
      (digits = [] → sign = none → c ∉ [ascii ' ', ascii '-', ascii '+']) →
      ∃ v : Word, v.toInt = clampInt (signed (sign == some true) (decimalValue digits)) ∧
        kAtoi (some (List.replicate spaces (ascii ' ') ++ (signText sign ++
          (digits ++ c :: rest)))) = some v ∧
        atoi (some (List.replicate spaces (ascii ' ') ++ (signText sign ++
          (digits ++ c :: rest)))) = some v := by
  constructor
  · intro v more
    exact ⟨textToInt_intToText v more, textToInt_intToText v more⟩
  · intro spaces sign digits c rest hdigits hc hlongest
    obtain ⟨v, hread, hvalue⟩ := textToInt_eq spaces sign rest hdigits hc hlongest
    exact ⟨v, hvalue, hread, hread⟩

/-- A space, a minus sign and more digits than an `int` holds. -/
theorem decimal_round_trip_small : ∃ v : Word, v.toInt = -2147483648 ∧
    kAtoi (some ([ascii ' ', ascii '-'] ++ List.replicate 12 (ascii '9') ++ [0])) = some v ∧
    atoi (some ([ascii ' ', ascii '-'] ++ List.replicate 12 (ascii '9') ++ [0])) = some v := by
  obtain ⟨v, hvalue, hkernel, huser⟩ := decimal_round_trip.2 1 (some true)
    (List.replicate 12 (ascii '9')) 0 [] (by decide) rfl (fun _ => by decide)
  exact ⟨v, hvalue.trans (by decide), hkernel, huser⟩

end EnclaveOS
