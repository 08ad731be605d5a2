import EnclaveOS.User.Decimal

/-!
# Strtol - integers of every base

`strtoul`, `strtol`, `strtoull` and `strtoll` of `user_libc.c`, with
every read of the string, beside the grammar of the C library: spaces, a sign, a prefix that the
base allows, and the longest row of digits.
-/

namespace EnclaveOS

open PageWord

/-- `unsigned long long`. -/
abbrev LongWord := BitVec 64

/-- The value of a letter or a decimal digit. -/
def digitValue (c : BitVec 8) : Option Nat :=
  if ascii '0' ≤ c ∧ c ≤ ascii '9' then some (c - ascii '0').toNat
  else if ascii 'a' ≤ c ∧ c ≤ ascii 'z' then some ((c - ascii 'a').toNat + 10)
  else if ascii 'A' ≤ c ∧ c ≤ ascii 'Z' then some ((c - ascii 'A').toNat + 10)
  else none

/-- A character that the loop over the digits takes. -/
def isDigitOf (base : Nat) (c : BitVec 8) : Bool := (digitValue c).any (· < base)

/-- `digit`. -/
def digitNat (c : BitVec 8) : Nat := (digitValue c).getD 0

def isX (c : BitVec 8) : Bool := c == ascii 'x' || c == ascii 'X'

/-- The base and what is behind its prefix. -/
def readBase (base : Nat) (str : List (BitVec 8)) : Option (Nat × List (BitVec 8)) := do
  if base = 0 ∨ base = 16 then
    let c ← str.head?
    if c = ascii '0' then
      let c' ← str.tail.head?
      if isX c' then some (16, str.tail.tail)
      else some (if base = 0 then 8 else base, str)
    else some (if base = 0 then 10 else base, str)
  else some (base, str)

/-- `result * base + digit` in an `unsigned long`. -/
def addDigit (base : Nat) (result : Word) (c : BitVec 8) : Word :=
  result * BitVec.ofNat 32 base + BitVec.ofNat 32 (digitNat c)

/-- `strtoul`: the value, and the string from `*endptr` on. -/
def strtoul (str : List (BitVec 8)) (base : Nat) : Option (Word × List (BitVec 8)) := do
  let str ← skipSpaces str
  let (base, str) ← readBase base str
  foldWhile (isDigitOf base) (addDigit base) 0 str

/-- `strtol`. -/
def strtol (str : List (BitVec 8)) (base : Nat) : Option (Word × List (BitVec 8)) := do
  let str ← skipSpaces str
  let (negative, str) ← readSign str
  let (val, rest) ← strtoul str base
  some (clampWord negative val, rest)

/-- `result` of `strtoull`, and whether `errno` is `ERANGE`. -/
structure LongResult where
  result : LongWord
  erange : Bool

/-- One digit, with the overflow check. -/
def addLongDigit (base : Nat) (acc : LongResult) (c : BitVec 8) : LongResult :=
  let digit := BitVec.ofNat 64 (digitNat c)
  if (0xFFFFFFFFFFFFFFFF - digit) / BitVec.ofNat 64 base < acc.result then
    ⟨0xFFFFFFFFFFFFFFFF, true⟩
  else { acc with result := acc.result * BitVec.ofNat 64 base + digit }

/-- `if (*str == '+') str++`. -/
def skipPlus (str : List (BitVec 8)) : Option (List (BitVec 8)) := do
  if (← str.head?) = ascii '+' then some str.tail else some str

/-- `strtoull`. -/
def strtoull (str : List (BitVec 8)) (base : Nat) : Option (LongResult × List (BitVec 8)) := do
  let str ← skipSpaces str
  let str ← skipPlus str
  let (base, str) ← readBase base str
  foldWhile (isDigitOf base) (addLongDigit base) ⟨0, false⟩ str

/-- The `long long` for a sign and a magnitude. -/
def clampLong (negative : Bool) (val : LongResult) : LongResult :=
  if negative then
    if val.result ≤ 0x8000000000000000 then { val with result := 0 - val.result }
    else ⟨0x8000000000000000, true⟩
  else if val.result ≤ 0x7FFFFFFFFFFFFFFF then val
  else ⟨0x7FFFFFFFFFFFFFFF, true⟩

/-- `strtoll`. -/
def strtoll (str : List (BitVec 8)) (base : Nat) : Option (LongResult × List (BitVec 8)) := do
  let str ← skipSpaces str
  let (negative, str) ← readSign str
  let (val, rest) ← strtoull str base
  some (clampLong negative val, rest)

/-- A sign at the front: whether it is the minus sign, and what is behind it. -/
def splitSign (s : List (BitVec 8)) : Bool × List (BitVec 8) :=
  if s.head? = some (ascii '-') then (true, s.tail)
  else if s.head? = some (ascii '+') then (false, s.tail)
  else (false, s)

/-- The prefix of a hexadecimal number, which a base allows. -/
def hexPrefix (base : Nat) (s : List (BitVec 8)) : Bool :=
  (base == 0 || base == 16) && s.head? == some (ascii '0') && s.tail.head?.any isX

/-- The prefix of a hexadecimal number, and no hexadecimal digit behind it. -/
def bareHex (base : Nat) (s : List (BitVec 8)) : Bool :=
  hexPrefix base s && !s.tail.tail.head?.any (isDigitOf 16)

/-- The base of a number without such a prefix. -/
def plainBase (base : Nat) (s : List (BitVec 8)) : Nat :=
  if base = 0 then if s.head? = some (ascii '0') then 8 else 10 else base

/-- The number that starts a string. -/
structure Subject where
  negative : Bool
  base : Nat
  digits : List (BitVec 8)
  rest : List (BitVec 8)

/-- The digits of a base at the front. -/
def subjectIn (negative : Bool) (base : Nat) (s : List (BitVec 8)) : Subject :=
  ⟨negative, base, s.takeWhile (isDigitOf base), s.dropWhile (isDigitOf base)⟩

/-- The number behind the spaces and the sign. -/
def subjectBehind (base : Nat) (negative : Bool) (s : List (BitVec 8)) : Subject :=
  if hexPrefix base s ∧ ¬bareHex base s then subjectIn negative 16 s.tail.tail
  else subjectIn negative (plainBase base s) s

/-- The number that the C library recognises. -/
def subject (base : Nat) (chars : List (BitVec 8)) : Subject :=
  let sign := splitSign (chars.dropWhile isSpace)
  subjectBehind base sign.1 sign.2

/-- The magnitude. -/
def Subject.magnitude (s : Subject) : Nat := Numeral.value s.base (s.digits.map digitNat)

/-- The value in the range of the result, and the rest; without digits this is the string. -/
def expected (clamp : Int → Int) (base : Nat) (chars : List (BitVec 8)) :
    Int × List (BitVec 8) :=
  let s := subject base chars
  if s.digits = [] then (0, chars) else (clamp (signed s.negative s.magnitude), s.rest)

/-- The nearest `unsigned long`. -/
def clampUnsigned (n : Int) : Int := max 0 (min n 4294967295)

/-- The nearest `long long`. -/
def clampLongInt (n : Int) : Int := max (-9223372036854775808) (min n 9223372036854775807)

/-- The nearest `unsigned long long`. -/
def clampUnsignedLong (n : Int) : Int := max 0 (min n 18446744073709551615)

/-- What is behind the spaces and the sign. -/
def behindSign (chars : List (BitVec 8)) : List (BitVec 8) :=
  (splitSign (chars.dropWhile isSpace)).2

def behindPlus (s : List (BitVec 8)) : List (BitVec 8) :=
  if s.head? = some (ascii '+') then s.tail else s

/-- The base and the digits as the functions read them. -/
def codeBase (base : Nat) (s : List (BitVec 8)) : Nat × List (BitVec 8) :=
  if hexPrefix base s then (16, s.tail.tail) else (plainBase base s, s)

/-- The number as the functions read it, behind all that they skip. -/
def codeSubject (base : Nat) (s : List (BitVec 8)) : Subject :=
  subjectIn false (codeBase base s).1 (codeBase base s).2

section Reading

variable {base : Nat} {s chars : List (BitVec 8)}

theorem isDigitOf_nul (base : Nat) : isDigitOf base 0#8 = false := rfl

theorem skipSpaces_terminated (s : List (BitVec 8)) :
    skipSpaces (s ++ [0#8]) = some (s.dropWhile isSpace ++ [0#8]) := by
  have hstop : isSpace 0#8 = false := rfl
  rw [skipSpaces, foldWhile_terminated hstop]
  rfl

theorem readSign_terminated (s : List (BitVec 8)) :
    readSign (s ++ [0#8]) = some ((splitSign s).1, (splitSign s).2 ++ [0#8]) := by
  cases s with
  | nil => rfl
  | cons c s =>
    by_cases hminus : c = ascii '-'
    · simp [readSign, splitSign, hminus]
    · by_cases hplus : c = ascii '+'
      · simp [readSign, splitSign, hplus, ascii]
      · simp [readSign, splitSign, hminus, hplus]

theorem skipPlus_terminated (s : List (BitVec 8)) :
    skipPlus (s ++ [0#8]) = some (behindPlus s ++ [0#8]) := by
  cases s with
  | nil => rfl
  | cons c s => by_cases hplus : c = ascii '+' <;> simp [skipPlus, behindPlus, hplus]

theorem readBase_terminated (base : Nat) (s : List (BitVec 8)) :
    readBase base (s ++ [0#8]) = some ((codeBase base s).1, (codeBase base s).2 ++ [0#8]) := by
  have hnul : isX 0#8 = false := rfl
  unfold readBase codeBase hexPrefix plainBase
  by_cases hbase : base = 0 ∨ base = 16
  · rw [if_pos hbase]
    cases s with
    | nil => cases hbase with
      | inl hzero => subst hzero; rfl
      | inr hsixteen => subst hsixteen; rfl
    | cons c s =>
      by_cases hc : c = ascii '0'
      · cases s with
        | nil => simp [hc, hnul]
        | cons c' s =>
          by_cases hx : isX c' = true
          · simp [hc, hx, hbase]
          · simp [hc, hx]
      · simp [hc]
  · have hother := not_or.mp hbase
    rw [if_neg hbase]
    simp [hother.1, hother.2]

theorem subject_negative (base : Nat) (chars : List (BitVec 8)) :
    (subject base chars).negative = (splitSign (chars.dropWhile isSpace)).1 := by
  unfold subject subjectBehind subjectIn
  dsimp only
  split_ifs <;> rfl

/-- `strtoul` reads its string to the NUL at most. -/
theorem strtoul_terminated (base : Nat) (s : List (BitVec 8)) :
    strtoul (s ++ [0#8]) base =
      some ((codeSubject base (s.dropWhile isSpace)).digits.foldl
          (addDigit (codeSubject base (s.dropWhile isSpace)).base) 0,
        (codeSubject base (s.dropWhile isSpace)).rest ++ [0#8]) := by
  simp only [strtoul, skipSpaces_terminated, readBase_terminated, Option.bind_eq_bind,
    Option.bind_some, foldWhile_terminated (isDigitOf_nul _)]
  rfl

/-- `strtoull` reads its string to the NUL at most. -/
theorem strtoull_terminated (base : Nat) (s : List (BitVec 8)) :
    strtoull (s ++ [0#8]) base =
      some ((codeSubject base (behindPlus (s.dropWhile isSpace))).digits.foldl
          (addLongDigit (codeSubject base (behindPlus (s.dropWhile isSpace))).base) ⟨0, false⟩,
        (codeSubject base (behindPlus (s.dropWhile isSpace))).rest ++ [0#8]) := by
  simp only [strtoull, skipSpaces_terminated, skipPlus_terminated, readBase_terminated,
    Option.bind_eq_bind, Option.bind_some, foldWhile_terminated (isDigitOf_nul _)]
  rfl

theorem strtol_terminated (base : Nat) (s : List (BitVec 8)) :
    strtol (s ++ [0#8]) base =
      (strtoul (behindSign s ++ [0#8]) base).map fun found =>
        (clampWord (subject base s).negative found.1, found.2) := by
  simp only [strtol, skipSpaces_terminated, readSign_terminated, Option.bind_eq_bind,
    Option.bind_some, subject_negative]
  rw [← behindSign]
  cases strtoul (behindSign s ++ [0#8]) base <;> rfl

theorem strtoll_terminated (base : Nat) (s : List (BitVec 8)) :
    strtoll (s ++ [0#8]) base =
      (strtoull (behindSign s ++ [0#8]) base).map fun found =>
        (clampLong (subject base s).negative found.1, found.2) := by
  simp only [strtoll, skipSpaces_terminated, readSign_terminated, Option.bind_eq_bind,
    Option.bind_some, subject_negative]
  rw [← behindSign]
  cases strtoull (behindSign s ++ [0#8]) base <;> rfl

end Reading

section Values

variable {base : Nat} {digits : List (BitVec 8)}

theorem addDigit_toNat (hbase : base < 4294967296) (result : Word) {c : BitVec 8}
    (hc : digitNat c < 4294967296) :
    (addDigit base result c).toNat =
      Numeral.wrap 4294967296 base result.toNat (digitNat c) := by
  rw [addDigit, BitVec.toNat_add, BitVec.toNat_mul, BitVec.toNat_ofNat, BitVec.toNat_ofNat,
    Numeral.wrap, Nat.mod_eq_of_lt hbase, Nat.mod_eq_of_lt hc, Nat.mod_add_mod]

theorem digitNat_lt (c : BitVec 8) : digitNat c < 266 := by
  unfold digitNat digitValue
  split_ifs <;> simp only [Option.getD_some, Option.getD_none] <;> omega

/-- The value of `strtoul` wraps around. -/
theorem foldl_addDigit (hbase : base < 4294967296) (digits : List (BitVec 8)) :
    (digits.foldl (addDigit base) 0).toNat =
      Numeral.value base (digits.map digitNat) % 4294967296 := by
  have hwords : ∀ result : Word, (digits.foldl (addDigit base) result).toNat =
      (digits.map digitNat).foldl (Numeral.wrap 4294967296 base) result.toNat := by
    induction digits with
    | nil => exact fun _ => rfl
    | cons c digits ih =>
      intro result
      have hc := digitNat_lt c
      rw [List.foldl_cons, List.map_cons, List.foldl_cons, ih,
        addDigit_toNat hbase result (by omega)]
  rw [hwords]
  exact Numeral.foldl_wrap 4294967296 base (digits.map digitNat) 0

theorem addLongDigit_toNat (hlow : 2 ≤ base) (hhigh : base < 18446744073709551616)
    (acc : LongResult) (c : BitVec 8) :
    (addLongDigit base acc c).result.toNat =
      Numeral.saturate 18446744073709551615 base acc.result.toNat (digitNat c) := by
  have hc := digitNat_lt c
  have hdigit : (BitVec.ofNat 64 (digitNat c)).toNat = digitNat c := by
    rw [BitVec.toNat_ofNat, Nat.mod_eq_of_lt (by omega)]
  have hbase : (BitVec.ofNat 64 base).toNat = base := by
    rw [BitVec.toNat_ofNat, Nat.mod_eq_of_lt hhigh]
  have htop : (0xFFFFFFFFFFFFFFFF : LongWord).toNat = 18446744073709551615 := rfl
  have hbound : ((0xFFFFFFFFFFFFFFFF - BitVec.ofNat 64 (digitNat c)) / BitVec.ofNat 64 base :
      LongWord).toNat = (18446744073709551615 - digitNat c) / base := by
    have hsmall : BitVec.ofNat 64 (digitNat c) ≤ (0xFFFFFFFFFFFFFFFF : LongWord) := by
      rw [BitVec.le_def, hdigit, htop]
      omega
    rw [BitVec.toNat_udiv, BitVec.toNat_sub_of_le hsmall, hdigit, hbase, htop]
  have hfull : (0xFFFFFFFFFFFFFFFF - BitVec.ofNat 64 (digitNat c)) / BitVec.ofNat 64 base <
      acc.result ↔ (18446744073709551615 - digitNat c) / base < acc.result.toNat := by
    rw [BitVec.lt_def, hbound]
  have hroom := Nat.div_lt_iff_lt_mul (x := 18446744073709551615 - digitNat c)
    (y := acc.result.toNat) (by omega : 0 < base)
  simp only [addLongDigit, hfull, Numeral.saturate]
  by_cases h : (18446744073709551615 - digitNat c) / base < acc.result.toNat
  · simp only [if_pos h, htop]
  · simp only [if_neg h, BitVec.toNat_add, BitVec.toNat_mul, hdigit, hbase, Nat.mod_add_mod]
    rw [hroom] at h
    exact Nat.mod_eq_of_lt (by omega)

/-- The value of `strtoull` stays at the largest one. -/
theorem foldl_addLongDigit (hlow : 2 ≤ base) (hhigh : base < 18446744073709551616)
    (digits : List (BitVec 8)) :
    (digits.foldl (addLongDigit base) ⟨0, false⟩).result.toNat =
      min (Numeral.value base (digits.map digitNat)) 18446744073709551615 := by
  have hwords : ∀ acc : LongResult, (digits.foldl (addLongDigit base) acc).result.toNat =
      (digits.map digitNat).foldl (Numeral.saturate 18446744073709551615 base)
        acc.result.toNat := by
    induction digits with
    | nil => exact fun _ => rfl
    | cons c digits ih =>
      intro acc
      rw [List.foldl_cons, List.map_cons, List.foldl_cons, ih, addLongDigit_toNat hlow hhigh]
  have hsmall : ∀ d ∈ digits.map digitNat, d ≤ 18446744073709551615 := by
    intro d hd
    obtain ⟨c, -, rfl⟩ := List.mem_map.mp hd
    have := digitNat_lt c
    omega
  rw [hwords]
  exact Numeral.foldl_saturate hlow (by decide) hsmall 0

end Values

section Recognising

variable {base : Nat} {s chars : List (BitVec 8)}

/-- No space and no sign comes first. -/
def StartsPlain (chars : List (BitVec 8)) : Prop :=
  ∀ c, chars.head? = some c → c ≠ ascii ' ' ∧ c ≠ ascii '-' ∧ c ≠ ascii '+'

theorem splitSign_suffix (s : List (BitVec 8)) : (splitSign s).2 <:+ s := by
  unfold splitSign
  split_ifs
  · exact List.tail_suffix s
  · exact List.tail_suffix s
  · exact List.suffix_refl s

theorem behindSign_suffix (chars : List (BitVec 8)) : behindSign chars <:+ chars :=
  (splitSign_suffix _).trans (List.dropWhile_suffix _)

/-- Something is skipped, or the number starts the string. -/
theorem behindSign_eq_iff : behindSign chars = chars ↔ StartsPlain chars := by
  cases chars with
  | nil => simp [behindSign, splitSign, StartsPlain]
  | cons c rest =>
    have hdrop : c ≠ ascii ' ' → (c :: rest).dropWhile isSpace = c :: rest := fun hc =>
      List.dropWhile_cons_of_neg (by simpa [isSpace] using hc)
    have hshorter : ∀ s : List (BitVec 8), s <:+ rest → s ≠ c :: rest := by
      intro s hs heq
      have hle := hs.length_le
      rw [heq, List.length_cons] at hle
      omega
    simp only [StartsPlain, List.head?_cons, Option.some_inj, forall_eq']
    by_cases hspace : c = ascii ' '
    · have hskip : (c :: rest).dropWhile isSpace = rest.dropWhile isSpace :=
        List.dropWhile_cons_of_pos (by simpa [isSpace] using hspace)
      have hne := hshorter _ ((splitSign_suffix _).trans (List.dropWhile_suffix isSpace))
      rw [behindSign, hskip]
      exact iff_of_false hne fun h => h.1 hspace
    · rw [behindSign, hdrop hspace, splitSign, List.head?_cons, List.tail_cons]
      by_cases hminus : c = ascii '-'
      · rw [if_pos (by rw [hminus])]
        exact iff_of_false (hshorter _ (List.suffix_refl _)) fun h => h.2.1 hminus
      · rw [if_neg (by simpa using hminus)]
        by_cases hplus : c = ascii '+'
        · rw [if_pos (by rw [hplus])]
          exact iff_of_false (hshorter _ (List.suffix_refl _)) fun h => h.2.2 hplus
        · rw [if_neg (by simpa using hplus)]
          exact iff_of_true rfl ⟨hspace, hminus, hplus⟩

theorem codeBase_suffix (base : Nat) (s : List (BitVec 8)) : (codeBase base s).2 <:+ s := by
  unfold codeBase
  split_ifs
  · exact (List.tail_suffix _).trans (List.tail_suffix _)
  · exact List.suffix_refl s

theorem head_takeWhile {p : BitVec 8 → Bool} (h : s.takeWhile p ≠ []) :
    ∃ c rest, s = c :: rest ∧ p c = true := by
  cases s with
  | nil => exact absurd rfl h
  | cons c rest =>
    refine ⟨c, rest, rfl, ?_⟩
    by_contra hc
    rw [List.takeWhile_cons_of_neg hc] at h
    exact h rfl

theorem hexPrefix_cons (h : hexPrefix base s = true) : ∃ c rest, s = ascii '0' :: c :: rest ∧
    isX c = true ∧ (base = 0 ∨ base = 16) := by
  match s with
  | [] => simp [hexPrefix] at h
  | [c] => simp [hexPrefix] at h
  | c :: c' :: rest =>
    simp only [hexPrefix, List.head?_cons, List.tail_cons, Option.any_some, Bool.and_eq_true,
      Bool.or_eq_true, beq_iff_eq, Option.some_inj] at h
    obtain ⟨⟨hbase, rfl⟩, hx⟩ := h
    exact ⟨c', rest, rfl, hx, hbase⟩

/-- A prefix without a hexadecimal digit: the number is the digit 0. -/
theorem subjectBehind_bare (h : bareHex base s = true) (negative : Bool) :
    ∃ c rest, s = ascii '0' :: c :: rest ∧
      (subjectBehind base negative s).digits = [ascii '0'] ∧
      (subjectBehind base negative s).rest = c :: rest ∧
      (codeBase base s).2.dropWhile (isDigitOf (codeBase base s).1) = rest := by
  obtain ⟨hpre, hbare⟩ := (Bool.and_eq_true _ _).mp h
  obtain ⟨c, rest, rfl, hx, hbase⟩ := hexPrefix_cons hpre
  have hplain : plainBase base (ascii '0' :: c :: rest) ≤ 16 := by
    unfold plainBase
    split_ifs
    · omega
    · omega
    · omega
  have hzero : isDigitOf (plainBase base (ascii '0' :: c :: rest)) (ascii '0') = true := by
    rcases hbase with rfl | rfl <;> rfl
  have hletter : ∀ b ≤ 16, isDigitOf b c = false := by
    intro b hb
    have hvalue : digitValue c = some 33 := by
      rcases (Bool.or_eq_true _ _).mp hx with hx | hx
      · rw [beq_iff_eq.mp hx]
        rfl
      · rw [beq_iff_eq.mp hx]
        rfl
    rw [isDigitOf, hvalue, Option.any_some, decide_eq_false_iff_not]
    omega
  refine ⟨c, rest, rfl, ?_, ?_, ?_⟩
  · rw [subjectBehind, if_neg (by simp [h]), subjectIn]
    simp only [List.takeWhile_cons, hzero, hletter _ hplain, if_true, Bool.false_eq_true, if_false]
  · rw [subjectBehind, if_neg (by simp [h]), subjectIn]
    simp only [List.dropWhile_cons, hzero, hletter _ hplain, if_true, Bool.false_eq_true, if_false]
  · rw [codeBase, if_pos hpre]
    cases rest with
    | nil => rfl
    | cons d rest =>
      have hd : isDigitOf 16 d = false := by simpa using hbare
      simp [hd]

/-- Without such a prefix the functions read what the C library reads. -/
theorem subjectBehind_code (h : bareHex base s = false) (negative : Bool) :
    subjectBehind base negative s = subjectIn negative (codeBase base s).1 (codeBase base s).2 := by
  unfold subjectBehind codeBase
  by_cases hpre : hexPrefix base s = true
  · rw [if_pos ⟨hpre, by simp [h]⟩, if_pos hpre]
  · rw [if_neg fun hboth => hpre hboth.1, if_neg hpre]

/-- A number starts with no space and no sign. -/
theorem head_of_digits {negative : Bool} (h : (subjectBehind base negative s).digits ≠ []) :
    ∀ c, s.head? = some c → c ≠ ascii ' ' ∧ c ≠ ascii '+' := by
  have hdigit : ∀ c, (digitValue c).isSome = true → c ≠ ascii ' ' ∧ c ≠ ascii '+' := by
    intro c hc
    constructor
    · rintro rfl
      exact absurd hc (by decide)
    · rintro rfl
      exact absurd hc (by decide)
  intro c hc
  apply hdigit
  by_cases hpre : hexPrefix base s = true
  · obtain ⟨c', rest, rfl, -, -⟩ := hexPrefix_cons hpre
    rw [List.head?_cons, Option.some_inj] at hc
    rw [← hc]
    rfl
  · rw [subjectBehind, if_neg fun hboth => hpre hboth.1] at h
    obtain ⟨c', rest, hs, hdigit⟩ := head_takeWhile h
    rw [hs, List.head?_cons, Option.some_inj] at hc
    rw [hc] at hdigit
    unfold isDigitOf at hdigit
    cases hvalue : digitValue c with
    | none => rw [hvalue] at hdigit; cases hdigit
    | some d => rfl

/-- A string without a number is the rest. -/
theorem codeSubject_none {negative : Bool} (hbare : bareHex base s = false)
    (hdigits : (subjectBehind base negative s).digits = []) :
    (codeSubject base s).digits = [] ∧ (codeSubject base s).rest = s := by
  rw [subjectBehind_code hbare] at hdigits
  refine ⟨hdigits, ?_⟩
  have hsplit := List.takeWhile_append_dropWhile (p := isDigitOf (codeBase base s).1)
    (l := (codeBase base s).2)
  have hnoprefix : ¬hexPrefix base s = true := by
    intro hpre
    have hdigit : s.tail.tail.head?.any (isDigitOf 16) = true := by
      simpa [bareHex, hpre] using hbare
    rw [codeBase, if_pos hpre, subjectIn] at hdigits
    cases hrest : s.tail.tail with
    | nil => simp [hrest] at hdigit
    | cons c rest =>
      rw [hrest, List.head?_cons, Option.any_some] at hdigit
      simp [hrest, hdigit] at hdigits
  calc (codeSubject base s).rest
      = (codeBase base s).2.takeWhile (isDigitOf (codeBase base s).1) ++
          (codeBase base s).2.dropWhile (isDigitOf (codeBase base s).1) := by
        rw [show (codeBase base s).2.takeWhile _ = [] from hdigits]
        rfl
    _ = (codeBase base s).2 := hsplit
    _ = s := by rw [codeBase, if_neg hnoprefix]

variable (base chars) in
/-- Where one of the functions returns what the C library prescribes, if `f` is its value and
`s` is what it reads behind the spaces and the sign. -/
theorem expected_iff (f : Nat → List (BitVec 8) → Int) (clamp : Int → Int) (hzero : ∀ b, f b [] = 0)
    (hs : s <:+ behindSign chars)
    (hsame : (∀ c, (behindSign chars).head? = some c → c ≠ ascii ' ' ∧ c ≠ ascii '+') →
      s = behindSign chars) :
    (f (codeSubject base s).base (codeSubject base s).digits, (codeSubject base s).rest) =
        expected clamp base chars ↔
      (subject base chars).digits = [] ∧ StartsPlain chars ∨
        (subject base chars).digits ≠ [] ∧ bareHex base (behindSign chars) = false ∧
        f (subject base chars).base (subject base chars).digits =
          clamp (signed (subject base chars).negative (subject base chars).magnitude) := by
  have hsubject : subject base chars =
      subjectBehind base (splitSign (chars.dropWhile isSpace)).1 (behindSign chars) := rfl
  have hrest : (codeSubject base s).rest <:+ s :=
    (List.dropWhile_suffix _).trans (codeBase_suffix base s)
  by_cases hdigits : (subject base chars).digits = []
  · have hbare : bareHex base (behindSign chars) = false := by
      by_contra hbare
      obtain ⟨c, rest, -, hone, -⟩ := subjectBehind_bare (Bool.not_eq_false _ ▸ hbare)
        (splitSign (chars.dropWhile isSpace)).1
      rw [← hsubject, hdigits] at hone
      cases hone
    rw [expected, if_pos hdigits, hdigits]
    simp only [true_and, ne_eq, not_true_eq_false, false_and, or_false, Prod.mk.injEq]
    constructor
    · rintro ⟨-, heq⟩
      -- nothing was skipped
      have hle := (hrest.trans hs).length_le
      rw [heq] at hle
      exact behindSign_eq_iff.mp ((behindSign_suffix chars).eq_of_length
        (Nat.le_antisymm (behindSign_suffix chars).length_le hle))
    · intro hplain
      have hbehind := behindSign_eq_iff.mpr hplain
      have hseq : s = chars := by
        rw [hsame, hbehind]
        intro c hc
        rw [hbehind] at hc
        exact ⟨(hplain c hc).1, (hplain c hc).2.2⟩
      rw [hsubject, hbehind] at hdigits
      rw [hbehind] at hbare
      obtain ⟨hnone, hall⟩ := codeSubject_none hbare hdigits
      rw [hseq, hnone, hall]
      exact ⟨hzero _, rfl⟩
  · have hseq : s = behindSign chars := hsame (head_of_digits (hsubject ▸ hdigits))
    rw [expected, if_neg hdigits]
    simp only [hdigits, false_and, false_or, ne_eq, not_false_eq_true, true_and, Prod.mk.injEq]
    cases hbare : bareHex base (behindSign chars) with
    | true =>
      obtain ⟨c, rest, -, -, hspec, hcode⟩ := subjectBehind_bare hbare
        (splitSign (chars.dropWhile isSpace)).1
      refine iff_of_false ?_ (by simp)
      rintro ⟨-, heq⟩
      rw [hsubject, hspec, hseq] at heq
      have hlength := congrArg List.length (hcode.symm.trans heq)
      rw [List.length_cons] at hlength
      omega
    | false =>
      have hcode := subjectBehind_code hbare (splitSign (chars.dropWhile isSpace)).1
      rw [hsubject, hcode, hseq]
      simp [codeSubject, subjectIn]

end Recognising

section Deciding

variable {base : Nat} {chars : List (BitVec 8)}

/-- The base 0, or one from 2 to 36. -/
def IsBase (base : Nat) : Prop := base = 0 ∨ 2 ≤ base ∧ base ≤ 36

theorem subject_base (chars : List (BitVec 8)) (hbase : IsBase base) :
    2 ≤ (subject base chars).base ∧ (subject base chars).base ≤ 36 := by
  have hplain : ∀ s, 2 ≤ plainBase base s ∧ plainBase base s ≤ 36 := by
    intro s
    unfold IsBase at hbase
    unfold plainBase
    split_ifs <;> omega
  unfold subject subjectBehind subjectIn
  dsimp only
  split_ifs
  · change 2 ≤ 16 ∧ 16 ≤ 36
    decide
  · exact hplain _

/-- The result of `strtol` does not show that the magnitude was wrapped around. -/
def LongFits (negative : Bool) (n : Nat) : Prop :=
  n < 4294967296 ∨ (if negative then 2147483648 else 2147483647) ≤ n % 4294967296

/-- The result of `strtoul` does not show it. -/
def UnsignedFits (n : Nat) : Prop := n < 4294967296 ∨ n % 4294967296 = 4294967295

theorem clampInt_wrap_iff (negative : Bool) (n : Nat) :
    clampInt (signed negative (n % 4294967296 : Nat)) = clampInt (signed negative n) ↔
      LongFits negative n := by
  cases negative <;>
    simp only [clampInt, signed, LongFits, Bool.false_eq_true, if_false, if_true] <;> omega

theorem clampLong_toInt (negative : Bool) (val : LongResult) :
    (clampLong negative val).result.toInt = clampLongInt (signed negative val.result.toNat) := by
  have hlt := val.result.isLt
  cases negative with
  | false =>
    have htop : (0x7FFFFFFFFFFFFFFF : LongWord).toNat = 9223372036854775807 := rfl
    simp only [clampLong, signed, clampLongInt, Bool.false_eq_true, if_false, BitVec.le_def, htop]
    split_ifs with hle
    · rw [BitVec.toInt_eq_toNat_of_lt (by omega)]
      omega
    · have htop : (0x7FFFFFFFFFFFFFFF : LongWord).toInt = 9223372036854775807 := rfl
      rw [htop]
      omega
  | true =>
    have hhalf : (0x8000000000000000 : LongWord).toNat = 9223372036854775808 := rfl
    simp only [clampLong, signed, clampLongInt, if_true, BitVec.le_def, hhalf]
    split_ifs with hle
    · have hneg : (0 - val.result).toNat =
          (18446744073709551616 - val.result.toNat) % 18446744073709551616 := by
        rw [show (0 : LongWord) - val.result = -val.result from BitVec.zero_sub _,
          BitVec.toNat_neg]
      have hint := BitVec.toInt_eq_toNat_cond (0 - val.result)
      rw [hneg] at hint
      rw [hint]
      split_ifs <;> omega
    · have hbottom : (0x8000000000000000 : LongWord).toInt = -9223372036854775808 := rfl
      rw [hbottom]
      omega

theorem clampLongInt_min (negative : Bool) (n : Nat) :
    clampLongInt (signed negative (min n 18446744073709551615 : Nat)) =
      clampLongInt (signed negative n) := by
  cases negative <;>
    simp only [clampLongInt, signed, Bool.false_eq_true, if_false, if_true] <;> omega

/-- Behind the spaces and the sign there is no space where a number starts. -/
theorem skip_behindSign
    (hhead : ∀ c, (behindSign chars).head? = some c → c ≠ ascii ' ' ∧ c ≠ ascii '+') :
    (behindSign chars).dropWhile isSpace = behindSign chars := by
  cases hs : behindSign chars with
  | nil => rfl
  | cons c rest =>
    rw [hs] at hhead
    exact List.dropWhile_cons_of_neg (by simpa [isSpace] using (hhead c rfl).1)

theorem terminated_iff (n : Int) (rest : List (BitVec 8)) (e : Int × List (BitVec 8)) :
    some (n, rest ++ [0#8]) = some (e.1, e.2 ++ [0#8]) ↔ (n, rest) = e := by
  rw [Option.some_inj, Prod.ext_iff, Prod.ext_iff, List.append_left_inj]

theorem strtol_iff (hbase : IsBase base) :
    (strtol (chars ++ [0#8]) base).map (fun r => (r.1.toInt, r.2)) =
        some ((expected clampInt base chars).1, (expected clampInt base chars).2 ++ [0#8]) ↔
      (subject base chars).digits = [] ∧ StartsPlain chars ∨
        (subject base chars).digits ≠ [] ∧ bareHex base (behindSign chars) = false ∧
        LongFits (subject base chars).negative (subject base chars).magnitude := by
  have hrange := subject_base chars hbase
  have hvalue : (clampWord (subject base chars).negative
        ((subject base chars).digits.foldl (addDigit (subject base chars).base) 0)).toInt =
      clampInt (signed (subject base chars).negative (subject base chars).magnitude) ↔
      LongFits (subject base chars).negative (subject base chars).magnitude := by
    rw [clampWord_toInt, foldl_addDigit (by omega), ← Subject.magnitude, clampInt_wrap_iff]
  have hzero : ∀ b : Nat, (clampWord (subject base chars).negative
      (([] : List (BitVec 8)).foldl (addDigit b) 0)).toInt = 0 := by
    intro b
    cases (subject base chars).negative
    · rfl
    · change (clampWord true 0).toInt = 0
      decide
  have hiff := expected_iff base chars (fun b digits =>
    (clampWord (subject base chars).negative (digits.foldl (addDigit b) 0)).toInt)
    clampInt hzero (List.dropWhile_suffix isSpace) skip_behindSign
  rw [← hvalue]
  refine Iff.trans ?_ hiff
  rw [strtol_terminated, strtoul_terminated]
  exact terminated_iff _ _ _

theorem skipPlus_behindSign
    (hhead : ∀ c, (behindSign chars).head? = some c → c ≠ ascii ' ' ∧ c ≠ ascii '+') :
    behindPlus ((behindSign chars).dropWhile isSpace) = behindSign chars := by
  rw [skip_behindSign hhead, behindPlus, if_neg]
  intro hplus
  exact (hhead _ hplus).2 rfl

theorem behindPlus_suffix (s : List (BitVec 8)) : behindPlus s <:+ s := by
  unfold behindPlus
  split_ifs
  · exact List.tail_suffix s
  · exact List.suffix_refl s

theorem strtoll_iff (hbase : IsBase base) :
    (strtoll (chars ++ [0#8]) base).map (fun r => (r.1.result.toInt, r.2)) =
        some ((expected clampLongInt base chars).1, (expected clampLongInt base chars).2 ++ [0#8]) ↔
      (subject base chars).digits = [] ∧ StartsPlain chars ∨
        (subject base chars).digits ≠ [] ∧ bareHex base (behindSign chars) = false := by
  have hrange := subject_base chars hbase
  have hvalue : (clampLong (subject base chars).negative
        ((subject base chars).digits.foldl (addLongDigit (subject base chars).base)
          ⟨0, false⟩)).result.toInt =
      clampLongInt (signed (subject base chars).negative (subject base chars).magnitude) := by
    rw [clampLong_toInt, foldl_addLongDigit (by omega) (by omega), ← Subject.magnitude,
      clampLongInt_min]
  have hzero : ∀ b : Nat, (clampLong (subject base chars).negative
      (([] : List (BitVec 8)).foldl (addLongDigit b) ⟨0, false⟩)).result.toInt = 0 := by
    intro b
    cases (subject base chars).negative
    · rfl
    · change (clampLong true ⟨0, false⟩).result.toInt = 0
      decide
  have hiff := expected_iff base chars (fun b digits =>
    (clampLong (subject base chars).negative
      (digits.foldl (addLongDigit b) ⟨0, false⟩)).result.toInt)
    clampLongInt hzero ((behindPlus_suffix _).trans (List.dropWhile_suffix isSpace))
    skipPlus_behindSign
  simp only [hvalue, and_true] at hiff
  refine Iff.trans ?_ hiff
  rw [strtoll_terminated, strtoull_terminated]
  exact terminated_iff _ _ _

/-- Without a minus sign the plus sign is the only one. -/
theorem behindPlus_eq_behindSign
    (hminus : (chars.dropWhile isSpace).head? ≠ some (ascii '-')) :
    behindPlus (chars.dropWhile isSpace) = behindSign chars ∧
      ∀ base, (subject base chars).negative = false := by
  constructor
  · rw [behindSign, behindPlus, splitSign, if_neg hminus]
    split_ifs <;> rfl
  · intro base
    rw [subject_negative, splitSign, if_neg hminus]
    split_ifs <;> rfl

theorem strtoull_iff (hbase : IsBase base)
    (hminus : (chars.dropWhile isSpace).head? ≠ some (ascii '-')) :
    (strtoull (chars ++ [0#8]) base).map (fun r => ((r.1.result.toNat : Int), r.2)) =
        some ((expected clampUnsignedLong base chars).1,
          (expected clampUnsignedLong base chars).2 ++ [0#8]) ↔
      (subject base chars).digits = [] ∧ StartsPlain chars ∨
        (subject base chars).digits ≠ [] ∧ bareHex base (behindSign chars) = false := by
  obtain ⟨hbehind, hpositive⟩ := behindPlus_eq_behindSign hminus
  have hrange := subject_base chars hbase
  have hvalue : (((subject base chars).digits.foldl (addLongDigit (subject base chars).base)
        ⟨0, false⟩).result.toNat : Int) =
      clampUnsignedLong (signed (subject base chars).negative (subject base chars).magnitude) := by
    rw [foldl_addLongDigit (by omega) (by omega), ← Subject.magnitude, hpositive, signed,
      clampUnsignedLong, if_neg (by simp)]
    omega
  have hiff := expected_iff base chars (fun b digits =>
    ((digits.foldl (addLongDigit b) ⟨0, false⟩).result.toNat : Int))
    clampUnsignedLong (fun _ => rfl) (List.suffix_refl _) fun _ => rfl
  simp only [hvalue, and_true] at hiff
  refine Iff.trans ?_ hiff
  rw [strtoull_terminated, hbehind]
  exact terminated_iff _ _ _

/-- Spaces are skipped where the string starts with one. -/
theorem dropWhile_isSpace_eq_iff :
    chars.dropWhile isSpace = chars ↔ chars.head? ≠ some (ascii ' ') := by
  cases chars with
  | nil => simp
  | cons c rest =>
    have hle := (List.dropWhile_suffix isSpace (l := rest)).length_le
    by_cases hc : c = ascii ' '
    · rw [List.dropWhile_cons_of_pos (by simpa [isSpace] using hc)]
      refine iff_of_false (fun heq => ?_) (by simp [hc])
      rw [heq, List.length_cons] at hle
      omega
    · rw [List.dropWhile_cons_of_neg (by simpa [isSpace] using hc)]
      exact iff_of_true rfl (by simpa using hc)

theorem subject_rest_suffix (base : Nat) (chars : List (BitVec 8)) :
    (subject base chars).rest <:+ behindSign chars := by
  unfold subject subjectBehind subjectIn
  dsimp only
  split_ifs
  · exact (List.dropWhile_suffix _).trans ((List.tail_suffix _).trans (List.tail_suffix _))
  · exact List.dropWhile_suffix _

/-- `strtoul` does not read a plus sign. -/
theorem strtoul_plus_iff (clamp : Int → Int) {rest : List (BitVec 8)}
    (hplus : chars.dropWhile isSpace = ascii '+' :: rest) :
    ((((codeSubject base (ascii '+' :: rest)).digits.foldl
          (addDigit (codeSubject base (ascii '+' :: rest)).base) 0).toNat : Int),
        (codeSubject base (ascii '+' :: rest)).rest) = expected clamp base chars ↔
      (subject base chars).digits = [] ∧ chars.head? ≠ some (ascii ' ') := by
  have hbehind : behindSign chars = rest := by
    rw [behindSign, hplus]
    rfl
  have hpre : hexPrefix base (ascii '+' :: rest) = false := by
    simp [hexPrefix, ascii]
  have hnone : isDigitOf (codeBase base (ascii '+' :: rest)).1 (ascii '+') = false := rfl
  have hcode : codeSubject base (ascii '+' :: rest) =
      ⟨false, (codeBase base (ascii '+' :: rest)).1, [], ascii '+' :: rest⟩ := by
    have hall : (codeBase base (ascii '+' :: rest)).2 = ascii '+' :: rest := by
      rw [codeBase, hpre]
      rfl
    rw [codeSubject, subjectIn, hall]
    simp only [List.takeWhile_cons, List.dropWhile_cons, hnone, Bool.false_eq_true, if_false]
  rw [hcode, expected]
  by_cases hdigits : (subject base chars).digits = []
  · rw [if_pos hdigits, ← dropWhile_isSpace_eq_iff, hplus]
    simp only [hdigits, true_and, Prod.mk.injEq, List.foldl_nil]
    exact and_iff_right rfl
  · rw [if_neg hdigits]
    refine iff_of_false ?_ fun h => hdigits h.1
    intro heq
    have hrest : ascii '+' :: rest = (subject base chars).rest := (Prod.ext_iff.mp heq).2
    have hle := (subject_rest_suffix base chars).length_le
    rw [← hrest, hbehind, List.length_cons] at hle
    omega

theorem strtoul_iff (hbase : IsBase base)
    (hminus : (chars.dropWhile isSpace).head? ≠ some (ascii '-')) :
    (strtoul (chars ++ [0#8]) base).map (fun r => ((r.1.toNat : Int), r.2)) =
        some ((expected clampUnsigned base chars).1,
          (expected clampUnsigned base chars).2 ++ [0#8]) ↔
      (subject base chars).digits = [] ∧ chars.head? ≠ some (ascii ' ') ∨
        (subject base chars).digits ≠ [] ∧
        (chars.dropWhile isSpace).head? ≠ some (ascii '+') ∧
        bareHex base (behindSign chars) = false ∧ UnsignedFits (subject base chars).magnitude := by
  obtain ⟨hbehind, hpositive⟩ := behindPlus_eq_behindSign hminus
  have hrange := subject_base chars hbase
  have hvalue : (((subject base chars).digits.foldl (addDigit (subject base chars).base) 0).toNat :
        Int) =
      clampUnsigned (signed (subject base chars).negative (subject base chars).magnitude) ↔
      UnsignedFits (subject base chars).magnitude := by
    rw [foldl_addDigit (by omega), ← Subject.magnitude, hpositive, signed, clampUnsigned,
      UnsignedFits, if_neg (by simp)]
    omega
  rw [strtoul_terminated]
  refine (terminated_iff _ _ _).trans ?_
  by_cases hplus : (chars.dropWhile isSpace).head? = some (ascii '+')
  · obtain ⟨rest, hrest⟩ := List.head?_eq_some_iff.mp hplus
    rw [hrest, strtoul_plus_iff _ hrest]
    simp
  · have hsame : chars.dropWhile isSpace = behindSign chars := by
      rw [← hbehind, behindPlus, if_neg hplus]
    have hplain : StartsPlain chars ↔ chars.head? ≠ some (ascii ' ') := by
      rw [← behindSign_eq_iff, ← hsame, dropWhile_isSpace_eq_iff]
    have hiff := expected_iff base chars (fun b digits =>
      ((digits.foldl (addDigit b) 0).toNat : Int))
      clampUnsigned (fun _ => rfl) (List.suffix_refl _) fun _ => rfl
    simp only [hvalue, hplain] at hiff
    rw [hsame, hiff]
    simp only [← hsame, hplus, ne_eq, not_false_eq_true, true_and]

end Deciding

/-- Where `strtol`, `strtoll` and, without a minus sign, `strtoul` and
`strtoull` return the nearest value of the number and the string behind it: the prefix has
its digit, nothing is skipped where there is no number, `strtoul` gets no plus sign, and in
the functions of 32 bits the value does not wrap around to a smaller one. -/
theorem strtol_family_iff (base : Nat) (chars : List (BitVec 8)) (hbase : IsBase base) :
    ((strtol (chars ++ [0#8]) base).map (fun r => (r.1.toInt, r.2)) =
        some ((expected clampInt base chars).1, (expected clampInt base chars).2 ++ [0#8]) ↔
      (subject base chars).digits = [] ∧ StartsPlain chars ∨
        (subject base chars).digits ≠ [] ∧ bareHex base (behindSign chars) = false ∧
        LongFits (subject base chars).negative (subject base chars).magnitude) ∧
    ((strtoll (chars ++ [0#8]) base).map (fun r => (r.1.result.toInt, r.2)) =
        some ((expected clampLongInt base chars).1, (expected clampLongInt base chars).2 ++ [0#8]) ↔
      (subject base chars).digits = [] ∧ StartsPlain chars ∨
        (subject base chars).digits ≠ [] ∧ bareHex base (behindSign chars) = false) ∧
    ((chars.dropWhile isSpace).head? ≠ some (ascii '-') →
      ((strtoul (chars ++ [0#8]) base).map (fun r => ((r.1.toNat : Int), r.2)) =
          some ((expected clampUnsigned base chars).1,
            (expected clampUnsigned base chars).2 ++ [0#8]) ↔
        (subject base chars).digits = [] ∧ chars.head? ≠ some (ascii ' ') ∨
          (subject base chars).digits ≠ [] ∧
          (chars.dropWhile isSpace).head? ≠ some (ascii '+') ∧
          bareHex base (behindSign chars) = false ∧
          UnsignedFits (subject base chars).magnitude) ∧
      ((strtoull (chars ++ [0#8]) base).map (fun r => ((r.1.result.toNat : Int), r.2)) =
          some ((expected clampUnsignedLong base chars).1,
            (expected clampUnsignedLong base chars).2 ++ [0#8]) ↔
        (subject base chars).digits = [] ∧ StartsPlain chars ∨
          (subject base chars).digits ≠ [] ∧ bareHex base (behindSign chars) = false)) :=
  ⟨strtol_iff hbase, strtoll_iff hbase,
    fun hminus => ⟨strtoul_iff hbase hminus, strtoull_iff hbase hminus⟩⟩

/-- `strtol(" -42x", &end, 10)`. -/
theorem strtol_family_decimal :
    (strtol ([' ', '-', '4', '2', 'x'].map ascii ++ [0#8]) 10).map (fun r => (r.1.toInt, r.2)) =
        some ((expected clampInt 10 ([' ', '-', '4', '2', 'x'].map ascii)).1,
          (expected clampInt 10 ([' ', '-', '4', '2', 'x'].map ascii)).2 ++ [0#8]) ↔
      (subject 10 ([' ', '-', '4', '2', 'x'].map ascii)).digits = [] ∧
          StartsPlain ([' ', '-', '4', '2', 'x'].map ascii) ∨
        (subject 10 ([' ', '-', '4', '2', 'x'].map ascii)).digits ≠ [] ∧
        bareHex 10 (behindSign ([' ', '-', '4', '2', 'x'].map ascii)) = false ∧
        LongFits (subject 10 ([' ', '-', '4', '2', 'x'].map ascii)).negative
          (subject 10 ([' ', '-', '4', '2', 'x'].map ascii)).magnitude :=
  (strtol_family_iff 10 ([' ', '-', '4', '2', 'x'].map ascii) (Or.inr (by decide))).1

/-- `strtol("4294967296", &end, 10)` returns 0. -/
theorem strtol_wraps :
    (strtol (['4', '2', '9', '4', '9', '6', '7', '2', '9', '6'].map ascii ++ [0#8]) 10).map
        (fun r => (r.1.toInt, r.2)) ≠
      some ((expected clampInt 10
          (['4', '2', '9', '4', '9', '6', '7', '2', '9', '6'].map ascii)).1,
        (expected clampInt 10
          (['4', '2', '9', '4', '9', '6', '7', '2', '9', '6'].map ascii)).2 ++ [0#8]) := by
  decide +kernel

end EnclaveOS
