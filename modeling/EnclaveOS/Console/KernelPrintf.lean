import EnclaveOS.User.Truncation

/-!
# Kernel printf - the formatter of the kernel

`k_vsprintf` of `klib.c` with `k_put_int` and `k_put_uint`, with every read
of the format string.  The text that a format stands for is defined apart from the buffer; the
loop stores its start.  A format that ends inside a conversion takes the loop past its NUL.
-/

namespace EnclaveOS

open PageWord

variable {limit rounds rounds' : Nat} {fmt chars out text : List (BitVec 8)} {args : VaList}

/-- `while (n-- > 0 && *buf < end) *(*buf)++ = c`, without the bound. -/
def fill (n : Word) (c : BitVec 8) : List (BitVec 8) := List.replicate n.toInt.toNat c

/-- `num_digits`. -/
def kNumDigits (digits : List (BitVec 8)) (precision : Word) : Word :=
  if (digits.length : Int) < precision.toInt then precision else BitVec.ofNat 32 digits.length

/-- `pad = width - total_len`; `lead` is the sign, or the prefix of the base. -/
def kPad (lead digits : List (BitVec 8)) (width precision : Word) : Word :=
  width - (kNumDigits digits precision + BitVec.ofNat 32 lead.length)

def kPadChar (precision : Word) (padZero : Bool) : BitVec 8 :=
  if padZero ∧ precision.toInt < 0 then ascii '0' else ascii ' '

/-- What `k_put_int` and `k_put_uint` do once the digits are in `tmp`. -/
def kField (limit : Nat) (out lead digits : List (BitVec 8)) (width precision : Word)
    (padZero leftAlign : Bool) : List (BitVec 8) :=
  let pad := kPad lead digits width precision
  let leadingZeros := kNumDigits digits precision - BitVec.ofNat 32 digits.length
  let out := if leftAlign then out else emit limit out (fill pad (kPadChar precision padZero))
  let out := emit limit out lead
  let out := emit limit out (fill leadingZeros (ascii '0'))
  let out := emit limit out digits
  if leftAlign then emit limit out (fill pad (ascii ' ')) else out

/-- The sign, whose length is `sign_len`. -/
def kSign (negative showSign spaceFlag : Bool) : List (BitVec 8) :=
  if negative then [ascii '-']
  else if showSign then [ascii '+']
  else if spaceFlag then [ascii ' ']
  else []

/-- `negative`. -/
def isNegative (value : Word) (isSigned : Bool) : Bool := isSigned && value.toInt < 0

/-- `uval`. -/
def kMagnitude (value : Word) (isSigned : Bool) : Word :=
  if isNegative value isSigned then 0 - value else value

/-- `k_put_int`. -/
def kPutInt (limit : Nat) (out : List (BitVec 8)) (value : Word) (base : Nat)
    (width precision : Word) (padZero isSigned leftAlign showSign spaceFlag : Bool) :
    List (BitVec 8) :=
  kField limit out (kSign (isNegative value isSigned) showSign spaceFlag)
    (digitText base (kMagnitude value isSigned).toNat) width precision padZero leftAlign

/-- The prefix of the alternate form, whose length is `prefix_len`. -/
def kBasePrefix (value : Word) (base : Nat) (altForm : Bool) : List (BitVec 8) :=
  if altForm ∧ base = 16 ∧ value ≠ 0 then [ascii '0', ascii 'x']
  else if altForm ∧ base = 8 ∧ value ≠ 0 then [ascii '0']
  else []

/-- `k_put_uint`. -/
def kPutUint (limit : Nat) (out : List (BitVec 8)) (value : Word) (base : Nat)
    (width precision : Word) (padZero leftAlign altForm : Bool) : List (BitVec 8) :=
  kField limit out (kBasePrefix value base altForm) (digitText base value.toNat)
    width precision padZero leftAlign

/-- The flags. -/
structure KFlags where
  leftAlign : Bool
  showSign : Bool
  spaceFlag : Bool
  padZero : Bool
  altForm : Bool

/-- What stands between `%` and the conversion character. -/
structure KDirective extends KFlags where
  width : Word
  precision : Word

def isKFlag (c : BitVec 8) : Bool :=
  c == ascii '-' || c == ascii '+' || c == ascii ' ' || c == ascii '0' || c == ascii '#'

def setKFlag (flags : KFlags) (c : BitVec 8) : KFlags :=
  if c = ascii '-' then { flags with leftAlign := true }
  else if c = ascii '+' then { flags with showSign := true }
  else if c = ascii ' ' then { flags with spaceFlag := true }
  else if c = ascii '0' then { flags with padZero := true }
  else { flags with altForm := true }

def digitOf (c : BitVec 8) : Word := (c - ascii '0').setWidth 32

/-- A digit of the width, which stops at `INT_MAX`. -/
def addWidthDigit (width : Word) (c : BitVec 8) : Word :=
  if (2147483647 - (digitOf c).toInt) / 10 < width.toInt then 2147483647
  else width * 10 + digitOf c

def addPrecisionDigit (precision : Word) (c : BitVec 8) : Word := precision * 10 + digitOf c

/-- The width that is an argument: its magnitude, at most `INT_MAX`. -/
def starWidth (w : Word) : Word :=
  if w.toInt < 0 then if (2147483647 : Word) < 0 - w then 2147483647 else 0 - w else w

/-- The flags and the width, from the position behind `%`. -/
def kWidthAt (fmt : List (BitVec 8)) (args : VaList) :
    Option (KFlags × Word × VaList × List (BitVec 8)) := do
  let (flags, fmt) ← foldWhile isKFlag setKFlag ⟨false, false, false, false, false⟩ fmt
  if (← fmt.head?) = ascii '*' then
    let w := (args 0).value
    let flags := if w.toInt < 0 then { flags with leftAlign := true } else flags
    some (flags, starWidth w, args.next, fmt.tail)
  else
    let (width, fmt) ← foldWhile isDigit addWidthDigit 0 fmt
    some (flags, width, args, fmt)

/-- The precision; -1 where there is none. -/
def kPrecisionAt (fmt : List (BitVec 8)) (args : VaList) :
    Option (Word × VaList × List (BitVec 8)) := do
  if (← fmt.head?) = ascii '.' then do
    let fmt := fmt.tail
    if (← fmt.head?) = ascii '*' then some ((args 0).value, args.next, fmt.tail)
    else
      let (precision, fmt) ← foldWhile isDigit addPrecisionDigit 0 fmt
      some (precision, args, fmt)
  else some (-1, args, fmt)

/-- The directive up to its conversion character.  The length modifier is read as in the user
library, and the value it stands for is not used. -/
def kDirectiveAt (fmt : List (BitVec 8)) (args : VaList) :
    Option (KDirective × VaList × List (BitVec 8)) := do
  let (flags, width, args, fmt) ← kWidthAt fmt args
  let (precision, args, fmt) ← kPrecisionAt fmt args
  let fmt ← skipLengthAt fmt
  some (⟨flags, width, precision⟩, args, fmt)

/-- `slen`. -/
def kStringLength (text : List (BitVec 8)) (precision : Word) : Word :=
  if 0 ≤ precision.toInt ∧ precision.toInt < text.length then precision
  else BitVec.ofNat 32 text.length

/-- The `%s` conversion. -/
def kPutString (limit : Nat) (out : List (BitVec 8)) (arg : PrintfArg) (width precision : Word)
    (leftAlign : Bool) : List (BitVec 8) :=
  let str := if arg.value = 0 then nullText else arg.string.chars
  let slen := kStringLength str precision
  let pad := fill (width - slen) (ascii ' ')
  let out := if leftAlign then out else emit limit out pad
  let out := emit limit out (str.take slen.toNat)
  if leftAlign then emit limit out pad else out

/-- The `switch` on the conversion character. -/
def kConvert (limit : Nat) (d : KDirective) (c : BitVec 8) (args : VaList)
    (out : List (BitVec 8)) : List (BitVec 8) × VaList :=
  if c = ascii 'd' ∨ c = ascii 'i' then
    (kPutInt limit out (args 0).value 10 d.width d.precision d.padZero true d.leftAlign
      d.showSign d.spaceFlag, args.next)
  else if c = ascii 'u' then
    (kPutUint limit out (args 0).value 10 d.width d.precision d.padZero d.leftAlign d.altForm,
      args.next)
  else if c = ascii 'x' ∨ c = ascii 'X' then
    (kPutUint limit out (args 0).value 16 d.width d.precision d.padZero d.leftAlign d.altForm,
      args.next)
  else if c = ascii 'o' then
    (kPutUint limit out (args 0).value 8 d.width d.precision d.padZero d.leftAlign d.altForm,
      args.next)
  else if c = ascii 'p' then
    (kPutUint limit (emit limit out [ascii '0', ascii 'x']) (args 0).value 16 8 (-1) true
      false false, args.next)
  else if c = ascii 's' then
    (kPutString limit out (args 0) d.width d.precision d.leftAlign, args.next)
  else if c = ascii 'c' then
    -- the argument is taken only where it is stored
    if out.length < limit then (out ++ [(args 0).value.setWidth 8], args.next) else (out, args)
  else if c = ascii '%' then (emit limit out [ascii '%'], args)
  else (emit limit (emit limit out [ascii '%']) [c], args)

/-- The loop over the format in memory, with a bound on its rounds. -/
def kFormatAt (limit : Nat) :
    Nat → List (BitVec 8) → VaList → List (BitVec 8) → Option (List (BitVec 8))
  | 0, _, _, _ => none
  | rounds + 1, fmt, args, out => do
    let c ← fmt.head?
    if c = 0 ∨ limit ≤ out.length then some out
    else if c ≠ ascii '%' then kFormatAt limit rounds fmt.tail args (out ++ [c])
    else do
      let (d, args, fmt) ← kDirectiveAt fmt.tail args
      let c ← fmt.head?
      let (out, args) := kConvert limit d c args out
      -- also past the NUL
      kFormatAt limit rounds fmt.tail args out

/-- `k_vsprintf` on the memory that holds the format. -/
def kVsprintfAt (rounds : Nat) (fmt : List (BitVec 8)) (args : VaList) : Option Printed :=
  (kFormatAt 1023 rounds fmt args []).map fun text => ⟨text ++ [0], int32 text.length⟩

/-- A number in its field. -/
def kFieldText (lead digits : List (BitVec 8)) (width precision : Word)
    (padZero leftAlign : Bool) : List (BitVec 8) :=
  let pad := kPad lead digits width precision
  let leadingZeros := kNumDigits digits precision - BitVec.ofNat 32 digits.length
  let body := lead ++ (fill leadingZeros (ascii '0') ++ digits)
  if leftAlign then body ++ fill pad (ascii ' ')
  else fill pad (kPadChar precision padZero) ++ body

def kIntText (d : KDirective) (value : Word) : List (BitVec 8) :=
  kFieldText (kSign (isNegative value true) d.showSign d.spaceFlag)
    (digitText 10 (kMagnitude value true).toNat) d.width d.precision d.padZero d.leftAlign

def kUintText (d : KDirective) (value : Word) (base : Nat) : List (BitVec 8) :=
  kFieldText (kBasePrefix value base d.altForm) (digitText base value.toNat)
    d.width d.precision d.padZero d.leftAlign

def kPointerText (value : Word) : List (BitVec 8) :=
  [ascii '0', ascii 'x'] ++ kFieldText [] (digitText 16 value.toNat) 8 (-1) true false

def kStringText (d : KDirective) (arg : PrintfArg) : List (BitVec 8) :=
  let str := if arg.value = 0 then nullText else arg.string.chars
  let slen := kStringLength str d.precision
  let pad := fill (d.width - slen) (ascii ' ')
  if d.leftAlign then str.take slen.toNat ++ pad else pad ++ str.take slen.toNat

/-- The text of a conversion, and the arguments behind it. -/
def kConvertText (d : KDirective) (c : BitVec 8) (args : VaList) : List (BitVec 8) × VaList :=
  if c = ascii 'd' ∨ c = ascii 'i' then (kIntText d (args 0).value, args.next)
  else if c = ascii 'u' then (kUintText d (args 0).value 10, args.next)
  else if c = ascii 'x' ∨ c = ascii 'X' then (kUintText d (args 0).value 16, args.next)
  else if c = ascii 'o' then (kUintText d (args 0).value 8, args.next)
  else if c = ascii 'p' then (kPointerText (args 0).value, args.next)
  else if c = ascii 's' then (kStringText d (args 0), args.next)
  else if c = ascii 'c' then ([(args 0).value.setWidth 8], args.next)
  else if c = ascii '%' then ([ascii '%'], args)
  else ([ascii '%', c], args)

/-- The padding loops store the start of the field. -/
theorem kField_eq (limit : Nat) (out lead digits : List (BitVec 8)) (width precision : Word)
    (padZero leftAlign : Bool) :
    kField limit out lead digits width precision padZero leftAlign =
      emit limit out (kFieldText lead digits width precision padZero leftAlign) := by
  cases leftAlign <;> simp [kField, kFieldText, emit_emit]

theorem kPutString_eq (limit : Nat) (out : List (BitVec 8)) (d : KDirective)
    (arg : PrintfArg) :
    kPutString limit out arg d.width d.precision d.leftAlign =
      emit limit out (kStringText d arg) := by
  cases hleft : d.leftAlign <;> simp [kPutString, kStringText, hleft, emit_emit]

/-- A conversion stores the start of its text, and takes the same arguments. -/
theorem kConvert_eq (h : out.length < limit) (d : KDirective) (c : BitVec 8) (args : VaList) :
    kConvert limit d c args out =
      (emit limit out (kConvertText d c args).1, (kConvertText d c args).2) := by
  unfold kConvert kConvertText
  split_ifs
  · rw [kPutInt, kField_eq, kIntText]
  · rw [kPutUint, kField_eq, kUintText]
  · rw [kPutUint, kField_eq, kUintText]
  · rw [kPutUint, kField_eq, kUintText]
  · rw [kPutUint, kField_eq, emit_emit, kPointerText]
    rfl
  · rw [kPutString_eq]
  · rw [emit_singleton h]
  · rfl
  · rw [emit_emit]
    rfl

def kSkipWidth (fmt : List (BitVec 8)) : List (BitVec 8) :=
  if fmt.head? = some (ascii '*') then fmt.tail else fmt.dropWhile isDigit

def kSkipPrecision (fmt : List (BitVec 8)) : List (BitVec 8) :=
  if fmt.head? = some (ascii '.') then kSkipWidth fmt.tail else fmt

/-- What is left of the format from the conversion character on. -/
def kBehind (fmt : List (BitVec 8)) : List (BitVec 8) :=
  skipLength (kSkipPrecision (kSkipWidth (fmt.dropWhile isKFlag)))

def kWidthOf (fmt : List (BitVec 8)) (args : VaList) : KFlags × Word × VaList :=
  let flags := (fmt.takeWhile isKFlag).foldl setKFlag ⟨false, false, false, false, false⟩
  let fmt := fmt.dropWhile isKFlag
  if fmt.head? = some (ascii '*') then
    let w := (args 0).value
    (if w.toInt < 0 then { flags with leftAlign := true } else flags, starWidth w, args.next)
  else (flags, (fmt.takeWhile isDigit).foldl addWidthDigit 0, args)

def kPrecisionOf (fmt : List (BitVec 8)) (args : VaList) : Word × VaList :=
  if fmt.head? = some (ascii '.') then
    let fmt := fmt.tail
    if fmt.head? = some (ascii '*') then ((args 0).value, args.next)
    else ((fmt.takeWhile isDigit).foldl addPrecisionDigit 0, args)
  else (-1, args)

/-- The directive, and the arguments behind its width and its precision. -/
def kDirectiveOf (fmt : List (BitVec 8)) (args : VaList) : KDirective × VaList :=
  let (flags, width, args) := kWidthOf fmt args
  let (precision, args) := kPrecisionOf (kSkipWidth (fmt.dropWhile isKFlag)) args
  (⟨flags, width, precision⟩, args)

/-- A character that the format tests for is the one in the list. -/
theorem head_terminated_iff {c : BitVec 8} (hc : c ≠ 0#8) (chars : List (BitVec 8)) :
    chars.headD 0#8 = c ↔ chars.head? = some c := by
  cases chars with
  | nil => simpa using hc.symm
  | cons c' chars => simp

theorem kWidthAt_terminated (chars : List (BitVec 8)) (args : VaList) :
    kWidthAt (chars ++ [0#8]) args =
      some ((kWidthOf chars args).1, (kWidthOf chars args).2.1, (kWidthOf chars args).2.2,
        kSkipWidth (chars.dropWhile isKFlag) ++ [0#8]) := by
  have hflag : isKFlag 0#8 = false := rfl
  have hdigit : isDigit 0#8 = false := rfl
  have hstar := head_terminated_iff (by decide : ascii '*' ≠ 0#8) (chars.dropWhile isKFlag)
  unfold kWidthAt kWidthOf kSkipWidth
  simp only [foldWhile_terminated hflag, foldWhile_terminated hdigit, head?_terminated, hstar,
    Option.bind_eq_bind, Option.bind_some]
  by_cases h : (chars.dropWhile isKFlag).head? = some (ascii '*')
  · obtain ⟨rest, hrest⟩ := List.head?_eq_some_iff.mp h
    simp [hrest]
  · simp only [if_neg h]

theorem kPrecisionAt_terminated (chars : List (BitVec 8)) (args : VaList) :
    kPrecisionAt (chars ++ [0#8]) args =
      some ((kPrecisionOf chars args).1, (kPrecisionOf chars args).2,
        kSkipPrecision chars ++ [0#8]) := by
  have hdigit : isDigit 0#8 = false := rfl
  have hpoint := head_terminated_iff (by decide : ascii '.' ≠ 0#8) chars
  unfold kPrecisionAt kPrecisionOf kSkipPrecision
  simp only [head?_terminated, hpoint, Option.bind_eq_bind, Option.bind_some]
  by_cases h : chars.head? = some (ascii '.')
  · obtain ⟨rest, rfl⟩ := List.head?_eq_some_iff.mp h
    have hstar := head_terminated_iff (by decide : ascii '*' ≠ 0#8) rest
    simp only [if_pos h, List.cons_append, List.tail_cons, head?_terminated, hstar,
      Option.bind_some, foldWhile_terminated hdigit, kSkipWidth]
    by_cases hargument : rest.head? = some (ascii '*')
    · obtain ⟨rest, rfl⟩ := List.head?_eq_some_iff.mp hargument
      simp
    · simp only [hargument, if_false]
  · simp only [if_neg h]

/-- A directive is read as on the list of the characters: no stage passes the NUL. -/
theorem kDirectiveAt_terminated (chars : List (BitVec 8)) (args : VaList) :
    kDirectiveAt (chars ++ [0#8]) args =
      some ((kDirectiveOf chars args).1, (kDirectiveOf chars args).2,
        kBehind chars ++ [0#8]) := by
  simp only [kDirectiveAt, kWidthAt_terminated, kPrecisionAt_terminated,
    skipLengthAt_terminated, Option.bind_eq_bind, Option.bind_some]
  rfl

theorem kSkipWidth_suffix (fmt : List (BitVec 8)) : kSkipWidth fmt <:+ fmt := by
  unfold kSkipWidth
  split
  · exact List.tail_suffix _
  · exact List.dropWhile_suffix _

theorem kBehind_suffix (fmt : List (BitVec 8)) : kBehind fmt <:+ fmt := by
  have hprecision (fmt : List (BitVec 8)) : kSkipPrecision fmt <:+ fmt := by
    unfold kSkipPrecision
    split
    · exact (kSkipWidth_suffix _).trans (List.tail_suffix _)
    · exact List.suffix_refl _
  exact (skipLength_suffix _).trans
    ((hprecision _).trans ((kSkipWidth_suffix _).trans (List.dropWhile_suffix _)))

/-- The format behind a conversion is shorter. -/
theorem kBehind_length_lt {c : BitVec 8} {rest : List (BitVec 8)}
    (h : kBehind fmt = c :: rest) : rest.length < fmt.length := by
  have hle := (kBehind_suffix fmt).length_le
  rw [h, List.length_cons] at hle
  omega

/-- The format ends inside a conversion. -/
def endsInside (fmt : List (BitVec 8)) : Bool :=
  match fmt with
  | [] => false
  | c :: fmt =>
    if c ≠ ascii '%' then endsInside fmt
    else
      match h : kBehind fmt with
      | [] => true
      | _ :: rest =>
        have := kBehind_length_lt h
        endsInside rest
termination_by fmt.length

/-- The whole text, up to the end of the format or to the conversion that the format ends in. -/
def kText (fmt : List (BitVec 8)) (args : VaList) : List (BitVec 8) :=
  match fmt with
  | [] => []
  | c :: fmt =>
    if c ≠ ascii '%' then c :: kText fmt args
    else
      match h : kBehind fmt with
      | [] => []
      | c :: rest =>
        have := kBehind_length_lt h
        let d := kDirectiveOf fmt args
        let converted := kConvertText d.1 c d.2
        converted.1 ++ kText rest converted.2
termination_by fmt.length

theorem kText_plain {c : BitVec 8} (hc : c ≠ ascii '%') :
    kText (c :: fmt) args = c :: kText fmt args := by
  rw [kText, if_pos hc]

theorem endsInside_plain {c : BitVec 8} (hc : c ≠ ascii '%') :
    endsInside (c :: fmt) = endsInside fmt := by
  rw [endsInside, if_pos hc]

theorem kText_inside (h : kBehind fmt = []) : kText (ascii '%' :: fmt) args = [] := by
  rw [kText, if_neg (by simp)]
  split
  · rfl
  · next hcons => cases h.symm.trans hcons

theorem endsInside_inside (h : kBehind fmt = []) : endsInside (ascii '%' :: fmt) = true := by
  rw [endsInside, if_neg (by simp)]
  split
  · rfl
  · next hcons => cases h.symm.trans hcons

theorem kText_conversion {c : BitVec 8} {rest : List (BitVec 8)} (h : kBehind fmt = c :: rest) :
    kText (ascii '%' :: fmt) args =
      (kConvertText (kDirectiveOf fmt args).1 c (kDirectiveOf fmt args).2).1 ++
        kText rest (kConvertText (kDirectiveOf fmt args).1 c (kDirectiveOf fmt args).2).2 := by
  rw [kText, if_neg (by simp)]
  split
  · next hnil => cases h.symm.trans hnil
  · next hcons =>
    obtain ⟨rfl, rfl⟩ := List.cons.inj (h.symm.trans hcons)
    rfl

theorem endsInside_conversion {c : BitVec 8} {rest : List (BitVec 8)}
    (h : kBehind fmt = c :: rest) : endsInside (ascii '%' :: fmt) = endsInside rest := by
  rw [endsInside, if_neg (by simp)]
  split
  · next hnil => cases h.symm.trans hnil
  · next hcons =>
    obtain ⟨rfl, rfl⟩ := List.cons.inj (h.symm.trans hcons)
    rfl

theorem kFormatAt_behind (limit rounds : Nat) (args : VaList) (out : List (BitVec 8)) :
    kFormatAt limit rounds [] args out = none := by
  cases rounds <;> rfl

/-- A round on an ordinary character. -/
theorem kFormatAt_plain {c : BitVec 8} (hc : c ≠ 0#8) (hroom : out.length < limit)
    (hplain : c ≠ ascii '%') :
    kFormatAt limit (rounds + 1) (c :: fmt) args out =
      kFormatAt limit rounds fmt args (out ++ [c]) := by
  have hstop : ¬(c = 0 ∨ limit ≤ out.length) := by
    rintro (h | h)
    · exact hc h
    · omega
  rw [kFormatAt, List.head?_cons, Option.bind_eq_bind, Option.bind_some, if_neg hstop,
    if_pos hplain, List.tail_cons]

/-- A round on a conversion.  Where the format ends inside it, the NUL is the conversion. -/
theorem kFormatAt_conversion (hroom : out.length < limit) :
    kFormatAt limit (rounds + 1) (ascii '%' :: (chars ++ [0#8])) args out =
      kFormatAt limit rounds (kBehind chars ++ [0#8]).tail
        (kConvertText (kDirectiveOf chars args).1 ((kBehind chars).headD 0#8)
          (kDirectiveOf chars args).2).2
        (emit limit out (kConvertText (kDirectiveOf chars args).1 ((kBehind chars).headD 0#8)
          (kDirectiveOf chars args).2).1) := by
  have hstop : ¬(ascii '%' = 0 ∨ limit ≤ out.length) := by
    rintro (h | h)
    · revert h
      decide
    · omega
  rw [kFormatAt, List.head?_cons, Option.bind_eq_bind, Option.bind_some, if_neg hstop,
    if_neg (by simp), List.tail_cons, kDirectiveAt_terminated]
  simp only [Option.bind_eq_bind, Option.bind_some, head?_terminated, kConvert_eq hroom]

/-- The room behind a text is the room for both. -/
theorem emit_room_iff (hout : out.length ≤ limit) (text : List (BitVec 8)) (more : Nat) :
    (emit limit out text).length + more < limit ↔
      out.length + (text.length + more) < limit := by
  rw [emit_eq_take hout, List.length_take, List.length_append]
  omega

/-- The loop stores the start of the text, unless it comes to the conversion that the format
ends in with room in the buffer. -/
theorem kFormatAt_terminated (h : 0#8 ∉ chars) (hrounds : chars.length < rounds)
    (hout : out.length ≤ limit) :
    kFormatAt limit rounds (chars ++ [0#8]) args out =
      if endsInside chars ∧ out.length + (kText chars args).length < limit then none
      else some (emit limit out (kText chars args)) := by
  induction rounds generalizing chars args out with
  | zero => omega
  | succ rounds ih =>
    cases chars with
    | nil => simp [kFormatAt, endsInside, kText, emit_nil]
    | cons c chars =>
      rw [List.length_cons] at hrounds
      have hc : c ≠ 0#8 := by
        rintro rfl
        simp at h
      have htail : 0#8 ∉ chars := fun hmem => h (List.mem_cons_of_mem _ hmem)
      rw [List.cons_append]
      by_cases hfull : limit ≤ out.length
      · have hstop : ¬(endsInside (c :: chars) ∧
            out.length + (kText (c :: chars) args).length < limit) := by
          omega
        rw [kFormatAt, if_neg hstop, emit_full hfull]
        simp [hfull]
      have hroom : out.length < limit := by omega
      by_cases hplain : c = ascii '%'
      · subst hplain
        rw [kFormatAt_conversion hroom]
        cases hbehind : kBehind chars with
        | nil =>
          rw [endsInside_inside hbehind, kText_inside hbehind, if_pos (by simpa using hroom)]
          exact kFormatAt_behind _ _ _ _
        | cons c' rest =>
          have hshorter := kBehind_length_lt hbehind
          have hrest : 0#8 ∉ rest := by
            intro hmem
            apply htail
            apply (kBehind_suffix chars).subset
            rw [hbehind]
            exact List.mem_cons_of_mem _ hmem
          rw [endsInside_conversion hbehind, kText_conversion hbehind, List.headD_cons,
            List.cons_append, List.tail_cons,
            ih hrest (by omega) (emit_length_le hout _), emit_emit]
          simp only [emit_room_iff hout, List.length_append]
      · have hnext : (out ++ [c]).length ≤ limit := by
          rw [List.length_append, List.length_singleton]
          omega
        have hemit := emit_emit limit out [c] (kText chars args)
        rw [emit_singleton hroom] at hemit
        rw [kFormatAt_plain hc hroom hplain, ih htail (by omega) hnext, hemit,
          endsInside_plain hplain, kText_plain hplain, List.length_append,
          List.length_singleton, List.length_cons, Nat.add_right_comm, Nat.add_assoc]
        rfl

end EnclaveOS
