import EnclaveOS.Config
import EnclaveOS.Foundation.Terminated
import EnclaveOS.User.Printf

/-!
# Truncation - vsnprintf into a buffer that is too small

`vsnprintf` once more, with every read of the format string and with what it stores and
returns.  A read behind the NUL of the format has no result, and there is none: the
function is the one on lists of characters.  Two calls that differ in the size of the
buffer go through the format together until the smaller buffer is full.
-/

namespace EnclaveOS

open PageWord

variable {limit limit' rounds rounds' : Nat} {chars : List (BitVec 8)} {args : VaList}
  {out out' text : List (BitVec 8)} {d : Directive}

def skipPrecisionAt (fmt : List (BitVec 8)) : Option (List (BitVec 8)) := do
  if (← fmt.head?) = ascii '.' then
    (foldWhile isDigit (fun _ _ => ()) () fmt.tail).map Prod.snd
  else some fmt

def skipLengthAt (fmt : List (BitVec 8)) : Option (List (BitVec 8)) := do
  let c ← fmt.head?
  if c = ascii 'l' ∨ c = ascii 'h' then do
    if (← fmt.tail.head?) = c then some fmt.tail.tail else some fmt.tail
  else if c = ascii 'z' then some fmt.tail
  else some fmt

/-- The flags `pad_zero` and `left_align` after a character. -/
def setFlag (flags : Bool × Bool) (c : BitVec 8) : Bool × Bool :=
  (flags.1 || c == ascii '0', flags.2 || c == ascii '-')

/-- The directive behind `%` in the memory from there on, or nothing where the loop over the
format breaks. -/
def directiveAt (fmt : List (BitVec 8)) : Option (Option (Directive × List (BitVec 8))) := do
  if (← fmt.head?) = 0 then some none
  else do
    let ((padZero, leftAlign), fmt) ← foldWhile isFlag setFlag (false, false) fmt
    let (width, fmt) ←
      foldWhile isDigit (fun (width : Word) c => width * 10 + (c - ascii '0').setWidth 32) 0 fmt
    let fmt ← skipPrecisionAt fmt
    let fmt ← skipLengthAt fmt
    let c ← fmt.head?
    if c = 0 then some none
    else some (some (⟨padZero, leftAlign, width, c⟩, fmt.tail))

/-- The loop over the format in memory. -/
def formatAt (limit : Nat) :
    Nat → List (BitVec 8) → VaList → List (BitVec 8) → Option (List (BitVec 8))
  | 0, _, _, _ => none
  | rounds + 1, fmt, args, out => do
    let c ← fmt.head?
    if c = 0 ∨ limit ≤ out.length then some out
    else if c ≠ ascii '%' then formatAt limit rounds fmt.tail args (out ++ [c])
    else
      match ← directiveAt fmt.tail with
      | none => some out
      | some (d, rest) =>
        let (out, args) := convert limit d args out
        formatAt limit rounds rest args out

/-- What a call has stored from `buf` on, and what it returns. -/
structure Printed where
  stored : List (BitVec 8)
  value : Int
deriving DecidableEq, Repr

/-- `vsnprintf` on the memory that holds the format. -/
def vsnprintfAt (size : Nat) (fmt : List (BitVec 8)) (args : VaList) : Option Printed :=
  if size = 0 then some ⟨[], 0⟩
  else (formatAt (size - 1) fmt.length fmt args []).map fun text =>
    ⟨text ++ [0], int32 text.length⟩

theorem skipPrecisionAt_terminated (chars : List (BitVec 8)) :
    skipPrecisionAt (chars ++ [0#8]) = some (skipPrecision chars ++ [0#8]) := by
  cases chars with
  | nil => rfl
  | cons c chars =>
    by_cases hc : c = ascii '.'
    · have hstop : isDigit 0#8 = false := rfl
      simp [skipPrecisionAt, skipPrecision, hc, foldWhile_terminated hstop]
    · simp [skipPrecisionAt, skipPrecision, hc]

theorem skipLengthAt_terminated (chars : List (BitVec 8)) :
    skipLengthAt (chars ++ [0#8]) = some (skipLength chars ++ [0#8]) := by
  cases chars with
  | nil => rfl
  | cons c chars =>
    by_cases htwice : c = ascii 'l' ∨ c = ascii 'h'
    · have hc : 0#8 ≠ c := by
        rintro rfl
        revert htwice
        decide
      cases chars with
      | nil => simp [skipLengthAt, skipLength, htwice, hc]
      | cons c' chars =>
        by_cases hsame : c' = c <;> simp [skipLengthAt, skipLength, htwice, hsame]
    · by_cases hz : c = ascii 'z'
      · subst hz
        simp only [skipLengthAt, skipLength, if_neg htwice]
        simp [htwice]
      · simp [skipLengthAt, skipLength, htwice, hz]

theorem skipPrecision_suffix (fmt : List (BitVec 8)) : skipPrecision fmt <:+ fmt := by
  unfold skipPrecision
  split
  · exact (List.dropWhile_suffix _).trans (List.tail_suffix _)
  · exact List.suffix_refl _

theorem skipLength_suffix (fmt : List (BitVec 8)) : skipLength fmt <:+ fmt := by
  cases fmt with
  | nil => exact List.suffix_refl _
  | cons c fmt =>
    have htail : fmt <:+ c :: fmt := List.suffix_cons _ _
    simp only [skipLength]
    split_ifs
    · exact (List.tail_suffix _).trans htail
    · exact htail
    · exact htail
    · exact List.suffix_refl _

/-- The flags in the order of the loop. -/
theorem foldl_setFlag (chars : List (BitVec 8)) (flags : Bool × Bool) :
    chars.foldl setFlag flags =
      (flags.1 || chars.contains (ascii '0'), flags.2 || chars.contains (ascii '-')) := by
  induction chars generalizing flags with
  | nil => simp
  | cons c chars ih =>
    rw [List.foldl_cons, ih]
    simp only [setFlag, List.contains_cons, Bool.or_assoc, Bool.beq_comm]

/-- What stands behind the flags and the width, up to the conversion character. -/
theorem behindWidth_suffix (fmt : List (BitVec 8)) :
    skipLength (skipPrecision ((fmt.dropWhile isFlag).dropWhile isDigit)) <:+ fmt :=
  (skipLength_suffix _).trans
    ((skipPrecision_suffix _).trans ((List.dropWhile_suffix _).trans (List.dropWhile_suffix _)))

theorem parseDirective_suffix {fmt rest : List (BitVec 8)}
    (h : parseDirective fmt = some (d, rest)) : rest <:+ fmt := by
  have hsuffix := behindWidth_suffix fmt
  unfold parseDirective at h
  dsimp only at h
  cases hbehind : skipLength (skipPrecision ((fmt.dropWhile isFlag).dropWhile isDigit)) with
  | nil =>
    rw [hbehind] at h
    simp at h
  | cons c tail =>
    rw [hbehind] at h hsuffix
    simp only [Option.some.injEq, Prod.mk.injEq] at h
    rw [← h.2]
    exact (List.suffix_cons _ _).trans hsuffix

/-- A directive is read as on the list of the characters. -/
theorem directiveAt_terminated (h : 0#8 ∉ chars) :
    directiveAt (chars ++ [0#8]) =
      some ((parseDirective chars).map fun found => (found.1, found.2 ++ [0#8])) := by
  have hflag : isFlag 0#8 = false := rfl
  have hdigit : isDigit 0#8 = false := rfl
  have hsuffix := behindWidth_suffix chars
  cases chars with
  | nil => rfl
  | cons c chars =>
    have hc : c ≠ 0#8 := by
      rintro rfl
      simp at h
    unfold directiveAt parseDirective
    simp only [head?_terminated, List.headD_cons, Option.bind_eq_bind, Option.bind_some,
      foldWhile_terminated hflag, foldWhile_terminated hdigit,
      skipPrecisionAt_terminated, skipLengthAt_terminated, foldl_setFlag, Bool.false_or]
    cases hbehind :
        skipLength (skipPrecision (((c :: chars).dropWhile isFlag).dropWhile isDigit)) with
    | nil => simp [hc]
    | cons c' tail =>
      have hc' : c' ≠ 0#8 := by
        rw [hbehind] at hsuffix
        exact ne_of_mem_of_not_mem (hsuffix.subset (by simp)) h
      simp [hc, hc', widthOf]

/-- No read of the loop leaves a format that ends with its NUL. -/
theorem formatAt_terminated (h : 0#8 ∉ chars) (hrounds : chars.length < rounds) :
    formatAt limit rounds (chars ++ [0#8]) args out =
      some (formatLoop limit rounds chars args out) := by
  induction rounds generalizing chars args out with
  | zero => omega
  | succ rounds ih =>
    cases chars with
    | nil => simp [formatAt, formatLoop]
    | cons c chars =>
      simp only [List.length_cons] at hrounds
      have hc : c ≠ 0#8 := by
        rintro rfl
        simp at h
      have htail : 0#8 ∉ chars := fun hmem => h (List.mem_cons_of_mem _ hmem)
      unfold formatAt formatLoop
      simp only [List.cons_append, List.head?_cons, List.tail_cons, Option.bind_eq_bind,
        Option.bind_some]
      by_cases hfull : limit ≤ out.length
      · simp [hfull]
      · by_cases hplain : c = ascii '%'
        · have hc : ascii '%' ≠ 0#8 := by decide
          cases hparse : parseDirective chars with
          | none => simp [hc, hfull, hplain, directiveAt_terminated htail, hparse]
          | some found =>
            have hshorter := parseDirective_length_lt hparse
            have hnul : 0#8 ∉ found.2 := fun hmem =>
              htail ((parseDirective_suffix hparse).subset hmem)
            simp [hc, hfull, hplain, directiveAt_terminated htail, hparse,
              ih hnul (by omega)]
        · simp [hc, hfull, hplain, ih htail (by omega)]

theorem emit_eq_take (h : out.length ≤ limit) (text : List (BitVec 8)) :
    emit limit out text = (out ++ text).take limit := by
  rw [emit, List.take_append, List.take_of_length_le h]

theorem emit_emit (limit : Nat) (out text text' : List (BitVec 8)) :
    emit limit (emit limit out text) text' = emit limit out (text ++ text') := by
  have hroom : limit - (out.length + min (limit - out.length) text.length) =
      limit - out.length - text.length := by
    omega
  simp only [emit, List.length_append, List.length_take, hroom, List.take_append,
    List.append_assoc]

theorem emit_nil (limit : Nat) (out : List (BitVec 8)) : emit limit out [] = out := by
  simp [emit]

theorem emit_full (h : limit ≤ out.length) (text : List (BitVec 8)) :
    emit limit out text = out := by
  rw [emit, Nat.sub_eq_zero_of_le h, List.take_zero, List.append_nil]

theorem emit_singleton (h : out.length < limit) (c : BitVec 8) :
    emit limit out [c] = out ++ [c] := by
  rw [emit, List.take_of_length_le]
  simp only [List.length_singleton]
  omega

theorem emit_take (h : limit ≤ limit') (hout : out.length ≤ limit') (text : List (BitVec 8)) :
    emit limit (out.take limit) text = (emit limit' out text).take limit := by
  have hrest : limit - (out.take limit).length = limit - out.length := by
    rw [List.length_take]
    omega
  rw [emit, hrest, ← List.take_append, emit_eq_take hout, List.take_take, Nat.min_eq_left h]

theorem putUint_take (h : limit ≤ limit') (hout : out.length ≤ limit') (value : Word)
    (base : Nat) (width : Word) (padZero : Bool) :
    putUint limit (out.take limit) value base width padZero =
      (putUint limit' out value base width padZero).take limit := by
  unfold putUint
  dsimp only
  rw [emit_take h hout, emit_take h (emit_length_le hout _)]

theorem putInt_take (h : limit ≤ limit') (hout : out.length ≤ limit') (value : Word)
    (base : Nat) (width : Word) (padZero isSigned : Bool) :
    putInt limit (out.take limit) value base width padZero isSigned =
      (putInt limit' out value base width padZero isSigned).take limit := by
  unfold putInt
  split
  · rw [emit_take h hout, putUint_take h (emit_length_le hout _)]
  · exact putUint_take h hout _ _ _ _

theorem putString_take (h : limit ≤ limit') (hout : out.length ≤ limit') (arg : PrintfArg)
    (width : Word) (leftAlign : Bool) :
    putString limit (out.take limit) arg width leftAlign =
      (putString limit' out arg width leftAlign).take limit := by
  unfold putString
  dsimp only
  split_ifs <;> rw [emit_take h hout, emit_take h (emit_length_le hout _)]

/-- Where there is room for a character, both calls take the same arguments. -/
theorem convert_take (h : limit ≤ limit') (hroom : out.length < limit) :
    convert limit d args out =
      ((convert limit' d args out).1.take limit, (convert limit' d args out).2) := by
  have hout : out.length ≤ limit' := by omega
  have hwhole : out.take limit = out := List.take_of_length_le (by omega)
  have hemit := emit_take h hout
  have hint := putInt_take h hout
  have huint := putUint_take h hout
  have hstring := putString_take h hout
  rw [hwhole] at hemit hint huint hstring
  unfold convert
  split_ifs with hd hu hx hp hs hc hroom' hpercent
  · rw [hint]
  · rw [huint]
  · rw [huint]
  · rw [hemit, putUint_take h (emit_length_le hout _)]
  · rw [hstring]
  · rw [List.take_of_length_le]
    simp only [List.length_append, List.length_singleton]
    omega
  · omega
  · rw [hemit]
  · rw [hemit]

theorem prefix_putUint (value : Word) (base : Nat) (width : Word) (padZero : Bool) :
    out <+: putUint limit out value base width padZero :=
  (List.prefix_append _ _).trans (List.prefix_append _ _)

/-- A conversion leaves what has been written. -/
theorem prefix_convert : out <+: (convert limit d args out).1 := by
  have hemit (text : List (BitVec 8)) : out <+: emit limit out text := List.prefix_append _ _
  unfold convert
  split_ifs
  · unfold putInt
    split
    · exact (hemit _).trans (prefix_putUint _ _ _ _)
    · exact prefix_putUint _ _ _ _
  · exact prefix_putUint _ _ _ _
  · exact prefix_putUint _ _ _ _
  · exact (hemit _).trans (prefix_putUint _ _ _ _)
  · unfold putString
    dsimp only
    split <;> exact (hemit _).trans (List.prefix_append _ _)
  · exact List.prefix_append _ _
  · exact List.prefix_refl _
  · exact hemit _
  · exact hemit _

theorem prefix_formatLoop : out <+: formatLoop limit rounds chars args out := by
  induction rounds generalizing chars args out with
  | zero => exact List.prefix_refl _
  | succ rounds ih =>
    cases chars with
    | nil => exact List.prefix_refl _
    | cons c chars =>
      unfold formatLoop
      split_ifs with hfull hplain
      · exact List.prefix_refl _
      · exact (List.prefix_append _ _).trans ih
      · cases hparse : parseDirective chars with
        | none => exact List.prefix_refl _
        | some found => exact prefix_convert.trans ih

/-- The loop with a smaller limit, from the part of the text that is below it. -/
theorem formatLoop_take (h : limit ≤ limit') (hout : out.length ≤ limit') :
    formatLoop limit rounds chars args (out.take limit) =
      (formatLoop limit' rounds chars args out).take limit := by
  induction rounds generalizing chars args out with
  | zero => rfl
  | succ rounds ih =>
    cases chars with
    | nil => rfl
    | cons c chars =>
      by_cases hfull : limit ≤ out.length
      · -- the smaller buffer is full, and the larger one keeps what it has
        have hkeeps : out <+: formatLoop limit' (rounds + 1) (c :: chars) args out :=
          prefix_formatLoop
        have hleft : formatLoop limit (rounds + 1) (c :: chars) args (out.take limit) =
            out.take limit := by
          unfold formatLoop
          rw [if_pos]
          simpa using hfull
        obtain ⟨more, hmore⟩ := hkeeps
        rw [hleft, ← hmore, List.take_append_of_le_length hfull]
      · have hwhole : out.take limit = out := List.take_of_length_le (by omega)
        rw [hwhole]
        have hroom : ¬limit' ≤ out.length := by omega
        unfold formatLoop
        rw [if_neg hfull, if_neg hroom]
        split_ifs with hplain
        · have hnext : (out ++ [c]).length ≤ limit := by
            simp only [List.length_append, List.length_singleton]
            omega
          rw [← ih (hnext.trans h), List.take_of_length_le hnext]
        · cases hparse : parseDirective chars with
          | none => exact hwhole.symm
          | some found =>
            dsimp only
            rw [convert_take h (by omega)]
            exact ih (convert_length_le hout)

/-- A call reads its format to the NUL at most, and ends. -/
theorem vsnprintfAt_eq {size : Nat} (hsize : 0 < size) (h : 0#8 ∉ chars) :
    vsnprintfAt size (chars ++ [0#8]) args =
      some ⟨formatLoop (size - 1) chars.length chars args [] ++ [0#8],
        int32 (formatLoop (size - 1) chars.length chars args []).length⟩ := by
  have hrounds : (chars ++ [0#8]).length = chars.length + 1 := by simp
  rw [vsnprintfAt, if_neg (by omega), hrounds, formatAt_terminated h (by omega),
    formatLoop_of_le (Nat.le_succ _) le_rfl]
  rfl

/-- Calls with two sizes: each ends, reads its format to the NUL at most, stores a text and a NUL
within its size and returns the length of the text as an `int`; the text of the smaller
buffer is the start of the other one. -/
theorem vsnprintf_truncates {size size' : Nat} (hsize : 1 ≤ size) (h : size ≤ size')
    (hchars : 0#8 ∉ chars) (args : VaList) :
    ∃ text text' : List (BitVec 8),
      vsnprintfAt size (chars ++ [0#8]) args = some ⟨text ++ [0#8], int32 text.length⟩ ∧
      (text ++ [0#8]).length ≤ size ∧
      vsnprintfAt size' (chars ++ [0#8]) args = some ⟨text' ++ [0#8], int32 text'.length⟩ ∧
      (text' ++ [0#8]).length ≤ size' ∧
      text = text'.take (min (size - 1) text'.length) := by
  have hlength (n : Nat) (hn : 1 ≤ n) :
      (formatLoop (n - 1) chars.length chars args [] ++ [0#8]).length ≤ n := by
    have hle : (formatLoop (n - 1) chars.length chars args []).length ≤ n - 1 :=
      formatLoop_length_le (by simp)
    simp only [List.length_append, List.length_singleton]
    omega
  refine ⟨_, _, vsnprintfAt_eq hsize hchars, hlength size hsize,
    vsnprintfAt_eq (hsize.trans h) hchars, hlength size' (hsize.trans h), ?_⟩
  rw [← List.take_take, List.take_length, ← formatLoop_take (by omega) (by simp), List.take_nil]

/-- Every argument is this number. -/
def constArgs (value : Word) : VaList := fun _ => ⟨value, ⟨[], by decide, by decide⟩⟩

/-- `vsnprintf(buf, 3, "%u!", 7)` beside the same call with two bytes. -/
theorem vsnprintf_truncates_percent :
    1 ≤ 2 ∧ 2 ≤ 3 ∧ 0#8 ∉ ['%', 'u', '!'].map ascii ∧
    ∃ text text' : List (BitVec 8),
      vsnprintfAt 2 (['%', 'u', '!'].map ascii ++ [0#8]) (constArgs 7) =
        some ⟨text ++ [0#8], int32 text.length⟩ ∧
      (text ++ [0#8]).length ≤ 2 ∧
      vsnprintfAt 3 (['%', 'u', '!'].map ascii ++ [0#8]) (constArgs 7) =
        some ⟨text' ++ [0#8], int32 text'.length⟩ ∧
      (text' ++ [0#8]).length ≤ 3 ∧
      text = text'.take (min (2 - 1) text'.length) :=
  ⟨by decide, by decide, by decide,
    vsnprintf_truncates (by decide) (by decide) (by decide) (constArgs 7)⟩

/-- A number zero in a field: the text has the width of the field. -/
theorem putUint_zero_length (limit base : Nat) (width : Word) (padZero : Bool) :
    (putUint limit [] 0#32 base width padZero).length =
      min limit ((width - 1#32).toInt.toNat + 1) := by
  have hdigits : digitText base (0#32).toNat = [ascii '0'] := if_pos rfl
  simp only [putUint, hdigits, emit, padding, List.length_append, List.length_take,
    List.length_replicate, List.length_singleton, List.length_nil]
  omega

/-- `"%2147483647dx"`. -/
def longFormat : List (BitVec 8) :=
  ['%', '2', '1', '4', '7', '4', '8', '3', '6', '4', '7', 'd', 'x'].map ascii

/-- The field that fills an `int`, and one more character. -/
theorem longFormat_length :
    (formatLoop 2147483648 13 longFormat (constArgs 0) []).length = 2147483648 := by
  have hparse : parseDirective longFormat.tail =
      some (⟨false, false, 2147483647#32, ascii 'd'⟩, [ascii 'x']) := rfl
  have hfield : (putUint 2147483648 [] 0#32 10 2147483647#32 false).length = 2147483647 := by
    rw [putUint_zero_length]
    decide
  have hconvert : convert 2147483648 ⟨false, false, 2147483647#32, ascii 'd'⟩ (constArgs 0) [] =
      (putUint 2147483648 [] 0#32 10 2147483647#32 false, (constArgs 0).next) := by
    simp [convert, putInt, constArgs]
  have hfirst : longFormat = ascii '%' :: longFormat.tail := rfl
  rw [hfirst, formatLoop, if_neg (by simp), if_neg (by simp), hparse]
  dsimp only
  rw [hconvert]
  dsimp only
  rw [formatLoop, if_neg (by omega), if_pos (by decide), formatLoop, List.length_append, hfield]
  rfl

/-- The call that fills a buffer of 2 GiB and a byte returns a negative number: the NUL is not
at the index that it returns. -/
theorem vsnprintf_negative :
    ∃ printed, vsnprintfAt 2147483649 (longFormat ++ [0#8]) (constArgs 0) = some printed ∧
      printed.value = -2147483648 ∧
      ¬∃ index : Nat, (index : Int) = printed.value ∧ printed.stored[index]? = some 0#8 := by
  have hvalue : int32 2147483648 = -2147483648 := by decide
  have hrounds : longFormat.length = 13 := rfl
  have hlimit : 2147483649 - 1 = 2147483648 := rfl
  have hrun : vsnprintfAt 2147483649 (longFormat ++ [0#8]) (constArgs 0) = _ :=
    vsnprintfAt_eq (by decide) (by decide)
  rw [hlimit, hrounds, longFormat_length, hvalue] at hrun
  refine ⟨_, hrun, rfl, ?_⟩
  rintro ⟨index, hindex, -⟩
  dsimp only at hindex
  omega

end EnclaveOS
