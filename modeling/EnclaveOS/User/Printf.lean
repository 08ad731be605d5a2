import EnclaveOS.Foundation.PageWord
import Mathlib.Data.Nat.Digits.Defs

/-!
# Printf - the formatter of the user library

`vsnprintf` of `user_libc.c` with `put_int` and `put_uint`.  The text written so
far is a list, and `buf < end` is `out.length < limit`.
-/

namespace EnclaveOS

open PageWord

def ascii (c : Char) : BitVec 8 := BitVec.ofNat 8 c.toNat

/-- The characters of a C string.  An `int` holds the length of every object. -/
structure CString where
  chars : List (BitVec 8)
  noNul : 0#8 ∉ chars
  short : chars.length < 2147483648

/-- The string that starts a block of memory. -/
def cString (mem : List (BitVec 8)) : List (BitVec 8) :=
  mem.takeWhile (· ≠ 0#8)

/-- A string without NUL is read back whole. -/
theorem cString_append_nul {text : List (BitVec 8)} (h : 0#8 ∉ text) (mem : List (BitVec 8)) :
    cString (text ++ 0#8 :: mem) = text := by
  unfold cString
  rw [List.takeWhile_append_of_pos]
  · simp
  · intro c hc
    simpa using ne_of_mem_of_not_mem hc h

/-- One word of the variable arguments, and the string at that address. -/
structure PrintfArg where
  value : Word
  string : CString

/-- The words that `va_arg` takes, one after the other. -/
abbrev VaList := Nat → PrintfArg

def VaList.next (args : VaList) : VaList := fun k => args (k + 1)

/-- A loop that stores characters while `buf < end`. -/
def emit (limit : Nat) (out text : List (BitVec 8)) : List (BitVec 8) :=
  out ++ text.take (limit - out.length)

theorem emit_length_le {limit : Nat} {out : List (BitVec 8)} (h : out.length ≤ limit)
    (text : List (BitVec 8)) : (emit limit out text).length ≤ limit := by
  unfold emit
  simp only [List.length_append, List.length_take]
  omega

def digitChar (rem : Nat) : BitVec 8 :=
  if rem < 10 then BitVec.ofNat 8 (rem + 48) else BitVec.ofNat 8 (rem - 10 + 97)

/-- `tmp` in the order of output. -/
def digitText (base value : Nat) : List (BitVec 8) :=
  if value = 0 then [ascii '0'] else ((Nat.digits base value).map digitChar).reverse

/-- `int pad = width - len`. -/
def padding (width : Word) (len : Nat) (c : BitVec 8) : List (BitVec 8) :=
  List.replicate (width - BitVec.ofNat 32 len).toInt.toNat c

def padChar (padZero : Bool) : BitVec 8 := if padZero then ascii '0' else ascii ' '

/-- `put_uint`. -/
def putUint (limit : Nat) (out : List (BitVec 8)) (value : Word) (base : Nat) (width : Word)
    (padZero : Bool) : List (BitVec 8) :=
  let text := digitText base value.toNat
  emit limit (emit limit out (padding width text.length (padChar padZero))) text

/-- `put_int`: the sign comes before the padding and is not counted in the width. -/
def putInt (limit : Nat) (out : List (BitVec 8)) (value : Word) (base : Nat) (width : Word)
    (padZero isSigned : Bool) : List (BitVec 8) :=
  if isSigned ∧ value.toInt < 0 then
    putUint limit (emit limit out [ascii '-']) (0 - value) base width padZero
  else putUint limit out value base width padZero

/-- What stands between `%` and the next ordinary character. -/
structure Directive where
  padZero : Bool
  leftAlign : Bool
  width : Word
  conversion : BitVec 8

def isDigit (c : BitVec 8) : Bool := ascii '0' ≤ c && c ≤ ascii '9'

def isFlag (c : BitVec 8) : Bool := c == ascii '0' || c == ascii '-'

/-- `width = width * 10 + (*fmt - '0')`. -/
def widthOf (digits : List (BitVec 8)) : Word :=
  digits.foldl (fun width c => width * 10 + (c - ascii '0').setWidth 32) 0

/-- The precision is skipped. -/
def skipPrecision (fmt : List (BitVec 8)) : List (BitVec 8) :=
  if fmt.head? = some (ascii '.') then fmt.tail.dropWhile isDigit else fmt

/-- The modifiers `l`, `ll`, `h`, `hh` and `z` are skipped. -/
def skipLength : List (BitVec 8) → List (BitVec 8)
  | [] => []
  | c :: fmt =>
    if c = ascii 'l' ∨ c = ascii 'h' then if fmt.head? = some c then fmt.tail else fmt
    else if c = ascii 'z' then fmt
    else c :: fmt

/-- The directive after `%`, or nothing when the format ends inside it. -/
def parseDirective (fmt : List (BitVec 8)) : Option (Directive × List (BitVec 8)) :=
  let flags := fmt.takeWhile isFlag
  let fmt := fmt.dropWhile isFlag
  let width := widthOf (fmt.takeWhile isDigit)
  match skipLength (skipPrecision (fmt.dropWhile isDigit)) with
  | [] => none
  | c :: fmt => some (⟨flags.contains (ascii '0'), flags.contains (ascii '-'), width, c⟩, fmt)

theorem skipPrecision_length_le (fmt : List (BitVec 8)) :
    (skipPrecision fmt).length ≤ fmt.length := by
  unfold skipPrecision
  split
  · have hdrop := (List.dropWhile_sublist isDigit (l := fmt.tail)).length_le
    simp only [List.length_tail] at hdrop
    omega
  · exact le_rfl

theorem skipLength_length_le (fmt : List (BitVec 8)) : (skipLength fmt).length ≤ fmt.length := by
  cases fmt with
  | nil => simp [skipLength]
  | cons c fmt =>
    simp only [skipLength]
    split_ifs <;> simp only [List.length_tail, List.length_cons] <;> omega

/-- A directive is not empty. -/
theorem parseDirective_length_lt {fmt rest : List (BitVec 8)} {d : Directive}
    (h : parseDirective fmt = some (d, rest)) : rest.length < fmt.length := by
  have hlength := skipLength_length_le
    (skipPrecision ((fmt.dropWhile isFlag).dropWhile isDigit))
  have hprecision := skipPrecision_length_le ((fmt.dropWhile isFlag).dropWhile isDigit)
  have hwidth := (List.dropWhile_sublist isDigit (l := fmt.dropWhile isFlag)).length_le
  have hflags := (List.dropWhile_sublist isFlag (l := fmt)).length_le
  unfold parseDirective at h
  dsimp only at h
  split at h
  · simp at h
  · rename_i c tail heq
    simp only [Option.some.injEq, Prod.mk.injEq] at h
    rw [heq] at hlength
    simp only [List.length_cons] at hlength
    rw [← h.2]
    omega

/-- `"(null)"`. -/
def nullText : List (BitVec 8) := ['(', 'n', 'u', 'l', 'l', ')'].map ascii

/-- The `%s` conversion. -/
def putString (limit : Nat) (out : List (BitVec 8)) (arg : PrintfArg) (width : Word)
    (leftAlign : Bool) : List (BitVec 8) :=
  let text := if arg.value = 0 then nullText else arg.string.chars
  let pad := padding width text.length (ascii ' ')
  if leftAlign then emit limit (emit limit out text) pad
  else emit limit (emit limit out pad) text

/-- The `switch` on the conversion character. -/
def convert (limit : Nat) (d : Directive) (args : VaList) (out : List (BitVec 8)) :
    List (BitVec 8) × VaList :=
  if d.conversion = ascii 'd' ∨ d.conversion = ascii 'i' then
    (putInt limit out (args 0).value 10 d.width d.padZero true, args.next)
  else if d.conversion = ascii 'u' then
    (putUint limit out (args 0).value 10 d.width d.padZero, args.next)
  else if d.conversion = ascii 'x' ∨ d.conversion = ascii 'X' then
    (putUint limit out (args 0).value 16 d.width d.padZero, args.next)
  else if d.conversion = ascii 'p' then
    (putUint limit (emit limit out [ascii '0', ascii 'x']) (args 0).value 16 8 true, args.next)
  else if d.conversion = ascii 's' then
    (putString limit out (args 0) d.width d.leftAlign, args.next)
  else if d.conversion = ascii 'c' then
    -- the argument is taken only where it is stored
    if out.length < limit then (out ++ [(args 0).value.setWidth 8], args.next) else (out, args)
  else if d.conversion = ascii '%' then (emit limit out [ascii '%'], args)
  else (emit limit out [ascii '%', d.conversion], args)

/-- The loop over the format string, with a bound on its rounds. -/
def formatLoop (limit : Nat) :
    Nat → List (BitVec 8) → VaList → List (BitVec 8) → List (BitVec 8)
  | 0, _, _, out => out
  | _ + 1, [], _, out => out
  | rounds + 1, c :: fmt, args, out =>
    if limit ≤ out.length then out
    else if c ≠ ascii '%' then formatLoop limit rounds fmt args (out ++ [c])
    else
      match parseDirective fmt with
      | none => out
      | some (d, rest) =>
        let (out, args) := convert limit d args out
        formatLoop limit rounds rest args out

/-- Each round takes a character of the format. -/
theorem formatLoop_of_le {limit rounds rounds' : Nat} {fmt : List (BitVec 8)} {args : VaList}
    {out : List (BitVec 8)} (h : fmt.length ≤ rounds) (h' : fmt.length ≤ rounds') :
    formatLoop limit rounds fmt args out = formatLoop limit rounds' fmt args out := by
  induction rounds generalizing rounds' fmt args out with
  | zero =>
    have hnil : fmt = [] := List.length_eq_zero_iff.mp (by omega)
    subst hnil
    cases rounds' <;> simp [formatLoop]
  | succ rounds ih =>
    cases fmt with
    | nil => cases rounds' <;> simp [formatLoop]
    | cons c fmt =>
      simp only [List.length_cons] at h h'
      obtain ⟨more, rfl⟩ : ∃ more, rounds' = more + 1 := ⟨rounds' - 1, by omega⟩
      unfold formatLoop
      split_ifs with hfull hplain
      · rfl
      · exact ih (by omega) (by omega)
      · cases hparse : parseDirective fmt with
        | none => rfl
        | some found =>
          have hrest := parseDirective_length_lt hparse
          exact ih (by omega) (by omega)

theorem putUint_length_le {limit : Nat} {out : List (BitVec 8)} (h : out.length ≤ limit)
    (value : Word) (base : Nat) (width : Word) (padZero : Bool) :
    (putUint limit out value base width padZero).length ≤ limit :=
  emit_length_le (emit_length_le h _) _

theorem putInt_length_le {limit : Nat} {out : List (BitVec 8)} (h : out.length ≤ limit)
    (value : Word) (base : Nat) (width : Word) (padZero isSigned : Bool) :
    (putInt limit out value base width padZero isSigned).length ≤ limit := by
  unfold putInt
  split
  · exact putUint_length_le (emit_length_le h _) _ _ _ _
  · exact putUint_length_le h _ _ _ _

theorem putString_length_le {limit : Nat} {out : List (BitVec 8)} (h : out.length ≤ limit)
    (arg : PrintfArg) (width : Word) (leftAlign : Bool) :
    (putString limit out arg width leftAlign).length ≤ limit := by
  unfold putString
  dsimp only
  split_ifs <;> exact emit_length_le (emit_length_le h _) _

/-- A conversion stops at `end`. -/
theorem convert_length_le {limit : Nat} {d : Directive} {args : VaList} {out : List (BitVec 8)}
    (h : out.length ≤ limit) : (convert limit d args out).1.length ≤ limit := by
  unfold convert
  split_ifs with hd hu hx hp hs hc hroom hpercent
  · exact putInt_length_le h _ _ _ _ _
  · exact putUint_length_le h _ _ _ _
  · exact putUint_length_le h _ _ _ _
  · exact putUint_length_le (emit_length_le h _) _ _ _ _
  · exact putString_length_le h _ _ _
  · simp only [List.length_append, List.length_singleton]
    omega
  · exact h
  · exact emit_length_le h _
  · exact emit_length_le h _

theorem formatLoop_length_le {limit rounds : Nat} {fmt : List (BitVec 8)} {args : VaList}
    {out : List (BitVec 8)} (h : out.length ≤ limit) :
    (formatLoop limit rounds fmt args out).length ≤ limit := by
  induction rounds generalizing fmt args out with
  | zero => simpa [formatLoop] using h
  | succ rounds ih =>
    cases fmt with
    | nil => simpa [formatLoop] using h
    | cons c fmt =>
      unfold formatLoop
      split_ifs with hfull hplain
      · exact h
      · apply ih
        simp only [List.length_append, List.length_singleton]
        omega
      · split
        · exact h
        · exact ih (convert_length_le h)

/-- `vsnprintf`: the text before the terminating NUL, whose length is the return value. -/
def vsnprintf (size : Nat) (fmt : CString) (args : VaList) : List (BitVec 8) :=
  if size = 0 then [] else formatLoop (size - 1) fmt.chars.length fmt.chars args []

end EnclaveOS
