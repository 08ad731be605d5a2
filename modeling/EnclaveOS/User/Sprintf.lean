import EnclaveOS.User.Truncation

/-!
# Sprintf - the formatter on wrapped pointers

`vsnprintf` of `user_libc.c` with its pointers: `end` is computed modulo
`2 ^ 32`, and every loop compares `buf` with it.  `vsprintf` passes the largest
`size_t`.
-/

namespace EnclaveOS

open PageWord

section Output

variable (room : Nat → Bool)

/-- A loop that stores characters while `room` holds of the number of those stored. -/
def emitWhile : List (BitVec 8) → List (BitVec 8) → List (BitVec 8)
  | out, [] => out
  | out, c :: text => if room out.length then emitWhile (out ++ [c]) text else out

/-- `put_uint`. -/
def putUintWhile (out : List (BitVec 8)) (value : Word) (base : Nat) (width : Word)
    (padZero : Bool) : List (BitVec 8) :=
  let text := digitText base value.toNat
  emitWhile room (emitWhile room out (padding width text.length (padChar padZero))) text

/-- `put_int`. -/
def putIntWhile (out : List (BitVec 8)) (value : Word) (base : Nat) (width : Word)
    (padZero isSigned : Bool) : List (BitVec 8) :=
  if isSigned ∧ value.toInt < 0 then
    putUintWhile room (emitWhile room out [ascii '-']) (0 - value) base width padZero
  else putUintWhile room out value base width padZero

/-- The `%s` conversion. -/
def putStringWhile (out : List (BitVec 8)) (arg : PrintfArg) (width : Word) (leftAlign : Bool) :
    List (BitVec 8) :=
  let text := if arg.value = 0 then nullText else arg.string.chars
  let pad := padding width text.length (ascii ' ')
  if leftAlign then emitWhile room (emitWhile room out text) pad
  else emitWhile room (emitWhile room out pad) text

/-- The `switch` on the conversion character. -/
def convertWhile (d : Directive) (args : VaList) (out : List (BitVec 8)) :
    List (BitVec 8) × VaList :=
  if d.conversion = ascii 'd' ∨ d.conversion = ascii 'i' then
    (putIntWhile room out (args 0).value 10 d.width d.padZero true, args.next)
  else if d.conversion = ascii 'u' then
    (putUintWhile room out (args 0).value 10 d.width d.padZero, args.next)
  else if d.conversion = ascii 'x' ∨ d.conversion = ascii 'X' then
    (putUintWhile room out (args 0).value 16 d.width d.padZero, args.next)
  else if d.conversion = ascii 'p' then
    (putUintWhile room (emitWhile room out [ascii '0', ascii 'x']) (args 0).value 16 8 true,
      args.next)
  else if d.conversion = ascii 's' then
    (putStringWhile room out (args 0) d.width d.leftAlign, args.next)
  else if d.conversion = ascii 'c' then
    -- the argument is taken only where it is stored
    if room out.length then (out ++ [(args 0).value.setWidth 8], args.next) else (out, args)
  else if d.conversion = ascii '%' then (emitWhile room out [ascii '%'], args)
  else (emitWhile room out [ascii '%', d.conversion], args)

/-- The loop over the format in memory. -/
def formatWhile : Nat → List (BitVec 8) → VaList → List (BitVec 8) → Option (List (BitVec 8))
  | 0, _, _, _ => none
  | rounds + 1, fmt, args, out => do
    let c ← fmt.head?
    if c = 0 ∨ room out.length = false then some out
    else if c ≠ ascii '%' then formatWhile rounds fmt.tail args (out ++ [c])
    else
      match ← directiveAt fmt.tail with
      | none => some out
      | some (d, rest) =>
        let (out, args) := convertWhile room d args out
        formatWhile rounds rest args out

end Output

/-- `buf < end` after `n` characters, where `end` is `buf + size - 1`. -/
def beforeEnd (buf size n : Nat) : Bool := wrap32 (buf + n) < wrap32 (buf + size + 4294967295)

/-- `vsnprintf` into the buffer at `buf`. -/
def vsnprintfFrom (buf size : Nat) (fmt : List (BitVec 8)) (args : VaList) : Option Printed :=
  if size = 0 then some ⟨[], 0⟩
  else (formatWhile (beforeEnd buf size) fmt.length fmt args []).map fun text =>
    ⟨text ++ [0], int32 (wrap32 text.length)⟩

/-- `vsprintf`: the size is `(size_t)-1`. -/
def vsprintf (buf : Nat) (fmt : List (BitVec 8)) (args : VaList) : Option Printed :=
  vsnprintfFrom buf 4294967295 fmt args

/-- `snprintf`. -/
def snprintf (buf size : Nat) (fmt : List (BitVec 8)) (args : VaList) : Option Printed :=
  vsnprintfFrom buf size fmt args

/-- `sprintf`. -/
def sprintf (buf : Nat) (fmt : List (BitVec 8)) (args : VaList) : Option Printed :=
  vsprintf buf fmt args

/-- A number in its field. -/
def uintText (value : Word) (base : Nat) (width : Word) (padZero : Bool) : List (BitVec 8) :=
  padding width (digitText base value.toNat).length (padChar padZero) ++
    digitText base value.toNat

def intText (value : Word) (base : Nat) (width : Word) (padZero : Bool) : List (BitVec 8) :=
  if value.toInt < 0 then ascii '-' :: uintText (0 - value) base width padZero
  else uintText value base width padZero

def stringText (arg : PrintfArg) (width : Word) (leftAlign : Bool) : List (BitVec 8) :=
  let text := if arg.value = 0 then nullText else arg.string.chars
  let pad := padding width text.length (ascii ' ')
  if leftAlign then text ++ pad else pad ++ text

/-- The text of a conversion, and the arguments behind it. -/
def convertText (d : Directive) (args : VaList) : List (BitVec 8) × VaList :=
  if d.conversion = ascii 'd' ∨ d.conversion = ascii 'i' then
    (intText (args 0).value 10 d.width d.padZero, args.next)
  else if d.conversion = ascii 'u' then (uintText (args 0).value 10 d.width d.padZero, args.next)
  else if d.conversion = ascii 'x' ∨ d.conversion = ascii 'X' then
    (uintText (args 0).value 16 d.width d.padZero, args.next)
  else if d.conversion = ascii 'p' then
    ([ascii '0', ascii 'x'] ++ uintText (args 0).value 16 8 true, args.next)
  else if d.conversion = ascii 's' then (stringText (args 0) d.width d.leftAlign, args.next)
  else if d.conversion = ascii 'c' then ([(args 0).value.setWidth 8], args.next)
  else if d.conversion = ascii '%' then ([ascii '%'], args)
  else ([ascii '%', d.conversion], args)

/-- The whole text, in any number of rounds that is enough for the format. -/
def formatText : Nat → List (BitVec 8) → VaList → List (BitVec 8)
  | 0, _, _ => []
  | _ + 1, [], _ => []
  | rounds + 1, c :: fmt, args =>
    if c ≠ ascii '%' then c :: formatText rounds fmt args
    else
      match parseDirective fmt with
      | none => []
      | some (d, rest) =>
        (convertText d args).1 ++ formatText rounds rest (convertText d args).2

section Storing

variable {room : Nat → Bool} {limit rounds : Nat} {chars out text : List (BitVec 8)}
  {args : VaList}

theorem emitWhile_nil (room : Nat → Bool) (out : List (BitVec 8)) :
    emitWhile room out [] = out := rfl

theorem emitWhile_full (hroom : room out.length = false) (text : List (BitVec 8)) :
    emitWhile room out text = out := by
  cases text <;> simp [emitWhile, hroom]

theorem emitWhile_cons (hroom : room out.length = true) (c : BitVec 8) (text : List (BitVec 8)) :
    emitWhile room out (c :: text) = emitWhile room (out ++ [c]) text := by
  rw [emitWhile, if_pos hroom]

/-- Two loops store what one loop stores. -/
theorem emitWhile_append (room : Nat → Bool) (out text text' : List (BitVec 8)) :
    emitWhile room (emitWhile room out text) text' = emitWhile room out (text ++ text') := by
  induction text generalizing out with
  | nil => rfl
  | cons c text ih =>
    by_cases hroom : room out.length = true
    · rw [List.cons_append, emitWhile_cons hroom, emitWhile_cons hroom, ih]
    · have hfull : room out.length = false := by simpa using hroom
      rw [emitWhile_full hfull, emitWhile_full hfull, emitWhile_full hfull]

/-- Room below a limit. -/
theorem emitWhile_of_limit (hlimit : ∀ n ≤ limit, room n = decide (n < limit))
    (hout : out.length ≤ limit) (text : List (BitVec 8)) :
    emitWhile room out text = emit limit out text := by
  induction text generalizing out with
  | nil => simp [emitWhile, emit]
  | cons c text ih =>
    by_cases hroom : out.length < limit
    · have hnext : (out ++ [c]).length ≤ limit := by
        rw [List.length_append, List.length_singleton]
        omega
      have hsub : limit - out.length = limit - (out.length + 1) + 1 := by omega
      rw [emitWhile_cons (by simp [hlimit _ hout, hroom]), ih hnext]
      simp [emit, hsub]
    · rw [emitWhile_full (by simp [hlimit _ hout, hroom]), emit,
        Nat.sub_eq_zero_of_le (by omega)]
      simp

/-- A conversion stores the start of its text, and takes the same arguments. -/
theorem convertWhile_eq (hroom : room out.length = true) (d : Directive) (args : VaList) :
    convertWhile room d args out =
      (emitWhile room out (convertText d args).1, (convertText d args).2) := by
  have huint : ∀ (out : List (BitVec 8)) (value : Word) (base : Nat),
      putUintWhile room out value base d.width d.padZero =
        emitWhile room out (uintText value base d.width d.padZero) := fun out value base =>
    emitWhile_append room out _ _
  unfold convertWhile convertText
  split_ifs with hd hu hx hp hs hc hpercent
  · simp only [putIntWhile, intText, true_and]
    split_ifs
    · rw [huint, emitWhile_append]
      rfl
    · rw [huint]
  · rw [huint]
  · rw [huint]
  · rw [putUintWhile, emitWhile_append, emitWhile_append]
    rfl
  · simp only [putStringWhile, stringText]
    split_ifs <;> rw [emitWhile_append]
  · rw [emitWhile_cons hroom, emitWhile_nil]
  · rfl
  · rfl

/-- The loop reads its format to the NUL at most, and stores the text while there is room. -/
theorem formatWhile_eq (hchars : 0#8 ∉ chars) (hrounds : chars.length ≤ rounds)
    (args : VaList) (out : List (BitVec 8)) :
    formatWhile room (rounds + 1) (chars ++ [0#8]) args out =
      some (emitWhile room out (formatText rounds chars args)) := by
  induction rounds generalizing chars args out with
  | zero =>
    have hnil := List.length_eq_zero_iff.mp (Nat.le_zero.mp hrounds)
    subst hnil
    simp [formatWhile, formatText, emitWhile]
  | succ rounds ih =>
    cases chars with
    | nil => simp [formatWhile, formatText, emitWhile]
    | cons c chars =>
      rw [List.length_cons] at hrounds
      have hc : c ≠ 0#8 := by
        rintro rfl
        simp at hchars
      have htail : 0#8 ∉ chars := fun hmem => hchars (List.mem_cons_of_mem _ hmem)
      by_cases hroom : room out.length = true
      · by_cases hplain : c = ascii '%'
        · subst hplain
          have hread := directiveAt_terminated htail
          cases hparse : parseDirective chars with
          | none =>
            rw [formatWhile, formatText]
            simp [hc, hroom, hread, hparse, emitWhile]
          | some found =>
            have hshorter := parseDirective_length_lt hparse
            have hnul : 0#8 ∉ found.2 := fun hmem =>
              htail ((parseDirective_suffix hparse).subset hmem)
            have hrest := ih hnul (by omega) (convertText found.1 args).2
              (emitWhile room out (convertText found.1 args).1)
            rw [emitWhile_append] at hrest
            rw [formatWhile, formatText]
            simp [hc, hroom, hread, hparse, convertWhile_eq hroom, hrest]
        · have hrest := ih htail (by omega) args (out ++ [c])
          rw [formatWhile, formatText]
          simp [hc, hroom, hplain, hrest, emitWhile_cons hroom]
      · have hfull : room out.length = false := by simpa using hroom
        rw [formatWhile]
        simp [hfull, emitWhile_full hfull]

end Storing

section Bounded

variable {limit rounds size : Nat} {chars out : List (BitVec 8)} {args : VaList}

theorem convert_eq (hroom : out.length < limit) (d : Directive) (args : VaList) :
    convert limit d args out =
      (emit limit out (convertText d args).1, (convertText d args).2) := by
  unfold convert convertText
  split_ifs with hd hu hx hp hs hc hpercent
  · simp only [putInt, putUint, intText, uintText, true_and]
    split_ifs
    · rw [emit_emit, emit_emit]
      rfl
    · rw [emit_emit]
  · rw [putUint, emit_emit, uintText]
  · rw [putUint, emit_emit, uintText]
  · rw [putUint, emit_emit, emit_emit]
    rfl
  · simp only [putString, stringText]
    split_ifs <;> rw [emit_emit]
  · rw [emit_singleton hroom]
  · rfl
  · rfl

/-- The bounded loop stores the start of the text. -/
theorem formatLoop_eq (hout : out.length ≤ limit) :
    formatLoop limit rounds chars args out =
      emit limit out (formatText rounds chars args) := by
  induction rounds generalizing chars args out with
  | zero => exact (emit_nil _ _).symm
  | succ rounds ih =>
    cases chars with
    | nil => exact (emit_nil _ _).symm
    | cons c chars =>
      by_cases hfull : limit ≤ out.length
      · rw [formatLoop, if_pos hfull, emit_full hfull]
      · have hroom : out.length < limit := by omega
        rw [formatLoop, formatText, if_neg hfull]
        by_cases hplain : c ≠ ascii '%'
        · have hnext : (out ++ [c]).length ≤ limit := by
            rw [List.length_append, List.length_singleton]
            omega
          rw [if_pos hplain, if_pos hplain, ih hnext, ← emit_singleton hroom, emit_emit]
          rfl
        · rw [if_neg hplain, if_neg hplain]
          cases hparse : parseDirective chars with
          | none => exact (emit_nil _ _).symm
          | some found =>
            simp only [convert_eq hroom]
            rw [ih (emit_length_le hout _), emit_emit]

/-- `snprintf` into a buffer that does not wrap around is the bounded formatter. -/
theorem snprintf_eq_vsnprintfAt (hchars : 0#8 ∉ chars) {buf : Nat} (hsize : 0 < size)
    (hbuf : buf + size ≤ 4294967296) (args : VaList) :
    snprintf buf size (chars ++ [0#8]) args = vsnprintfAt size (chars ++ [0#8]) args := by
  have hend : wrap32 (buf + size + 4294967295) = buf + size - 1 := by
    unfold wrap32
    omega
  have hlimit : ∀ n ≤ size - 1, beforeEnd buf size n = decide (n < size - 1) := by
    intro n hn
    have hn' : wrap32 (buf + n) = buf + n := Nat.mod_eq_of_lt (by omega)
    rw [beforeEnd, hend, hn', decide_eq_decide]
    omega
  have hrounds : (chars ++ [0#8]).length = chars.length + 1 := by simp
  have htext : (emit (size - 1) [] (formatText chars.length chars args)).length ≤ size - 1 :=
    emit_length_le (by simp) _
  have hlength : wrap32 (emit (size - 1) [] (formatText chars.length chars args)).length =
      (emit (size - 1) [] (formatText chars.length chars args)).length :=
    Nat.mod_eq_of_lt (by omega)
  rw [snprintf, vsnprintfFrom, if_neg (by omega), hrounds, formatWhile_eq hchars le_rfl,
    emitWhile_of_limit hlimit (by simp), vsnprintfAt_eq hsize hchars, formatLoop_eq (by simp),
    Option.map_some, hlength]
  rfl

end Bounded

section Unbounded

variable {chars : List (BitVec 8)} {buf : Nat}

/-- A buffer for the whole text and its NUL receives them. -/
theorem snprintf_whole (hchars : 0#8 ∉ chars) (args : VaList)
    (hbuf : buf + (formatText chars.length chars args).length + 1 ≤ 0xC0000000) :
    snprintf buf ((formatText chars.length chars args).length + 1) (chars ++ [0#8]) args =
      some ⟨formatText chars.length chars args ++ [0],
        int32 (formatText chars.length chars args).length⟩ := by
  have hpos : 0 < (formatText chars.length chars args).length + 1 := Nat.succ_pos _
  rw [snprintf_eq_vsnprintfAt hchars hpos (by omega), vsnprintfAt_eq hpos hchars,
    formatLoop_eq (by simp), Nat.add_sub_cancel, emit,
    List.length_nil, Nat.sub_zero, List.nil_append, List.take_length]
  rfl

/-- `end` is two bytes before the buffer, so nothing is stored. -/
theorem vsprintf_empty (hchars : 0#8 ∉ chars) (args : VaList) (hlow : 2 ≤ buf)
    (hhigh : buf < 4294967296) :
    vsprintf buf (chars ++ [0#8]) args = some ⟨[0], 0⟩ := by
  have hrounds : (chars ++ [0#8]).length = chars.length + 1 := by simp
  have hfull : beforeEnd buf 4294967295 ([] : List (BitVec 8)).length = false := by
    rw [beforeEnd, List.length_nil, decide_eq_false_iff_not]
    unfold wrap32
    omega
  rw [vsprintf, vsnprintfFrom, if_neg (by omega), hrounds, formatWhile_eq hchars le_rfl,
    emitWhile_full hfull]
  rfl

/-- At the addresses 0 and 1 `end` is behind every buffer. -/
theorem vsprintf_whole (hchars : 0#8 ∉ chars) (args : VaList) (hlow : buf < 2)
    (hbuf : buf + (formatText chars.length chars args).length + 1 ≤ 0xC0000000) :
    vsprintf buf (chars ++ [0#8]) args =
      some ⟨formatText chars.length chars args ++ [0],
        int32 (formatText chars.length chars args).length⟩ := by
  have hrounds : (chars ++ [0#8]).length = chars.length + 1 := by simp
  have hlimit : ∀ n ≤ 4294967294, beforeEnd buf 4294967295 n = decide (n < 4294967294) := by
    intro n hn
    rw [beforeEnd, decide_eq_decide]
    unfold wrap32
    omega
  have hwhole : (formatText chars.length chars args).take 4294967294 =
      formatText chars.length chars args := List.take_of_length_le (by omega)
  have hlength : wrap32 (formatText chars.length chars args).length =
      (formatText chars.length chars args).length := Nat.mod_eq_of_lt (by omega)
  rw [vsprintf, vsnprintfFrom, if_neg (by omega), hrounds, formatWhile_eq hchars le_rfl,
    emitWhile_of_limit hlimit (by simp), emit, List.length_nil, Nat.sub_zero, List.nil_append,
    hwhole, Option.map_some, hlength]

end Unbounded

/-- `sprintf` and `vsprintf` store and return what `snprintf` does in a buffer of
user space that holds the text and its NUL, if and only if the text is empty or the buffer is at
one of the addresses 0 and 1. -/
theorem sprintf_eq_snprintf_iff (buf : Nat) (chars : List (BitVec 8)) (args : VaList)
    (hchars : 0#8 ∉ chars)
    (hbuf : buf + (formatText chars.length chars args).length + 1 ≤ 0xC0000000) :
    (sprintf buf (chars ++ [0#8]) args =
        snprintf buf ((formatText chars.length chars args).length + 1) (chars ++ [0#8]) args ∧
      vsprintf buf (chars ++ [0#8]) args =
        snprintf buf ((formatText chars.length chars args).length + 1) (chars ++ [0#8]) args) ↔
      formatText chars.length chars args = [] ∨ buf < 2 := by
  rw [sprintf, and_self, snprintf_whole hchars args hbuf]
  by_cases hlow : buf < 2
  · simp only [hlow, or_true, iff_true]
    exact vsprintf_whole hchars args hlow hbuf
  · rw [vsprintf_empty hchars args (by omega) (by omega)]
    simp only [hlow, or_false, Option.some_inj, Printed.mk.injEq]
    constructor
    · intro heq
      exact (List.append_eq_singleton_iff.mp heq.1.symm).elim And.left fun h => absurd h.2 (by simp)
    · intro hempty
      rw [hempty]
      exact ⟨rfl, rfl⟩

/-- `sprintf(buf, "%d", 7)` at the address 0x10000000. -/
theorem sprintf_eq_snprintf_digit :
    (sprintf 0x10000000 (['%', 'd'].map ascii ++ [0#8]) (constArgs 7) =
        snprintf 0x10000000 ((formatText 2 (['%', 'd'].map ascii) (constArgs 7)).length + 1)
          (['%', 'd'].map ascii ++ [0#8]) (constArgs 7) ∧
      vsprintf 0x10000000 (['%', 'd'].map ascii ++ [0#8]) (constArgs 7) =
        snprintf 0x10000000 ((formatText 2 (['%', 'd'].map ascii) (constArgs 7)).length + 1)
          (['%', 'd'].map ascii ++ [0#8]) (constArgs 7)) ↔
      formatText 2 (['%', 'd'].map ascii) (constArgs 7) = [] ∨ 0x10000000 < 2 :=
  sprintf_eq_snprintf_iff 0x10000000 (['%', 'd'].map ascii) (constArgs 7) (by decide)
    (by decide +kernel)

/-- There is room for the text `a` and its NUL, and `sprintf` stores the NUL only. -/
theorem sprintf_stores_nothing :
    sprintf 0x10000000 ([ascii 'a'] ++ [0#8]) (constArgs 0) ≠
      snprintf 0x10000000 2 ([ascii 'a'] ++ [0#8]) (constArgs 0) := by
  decide +kernel

end EnclaveOS
