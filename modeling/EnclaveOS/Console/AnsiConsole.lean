import EnclaveOS.User.Printf
import Mathlib.Data.List.TakeWhile
import Mathlib.Data.Nat.Digits.Lemmas

/-!
# AnsiConsole - the escape sequences of /dev/console

`devfs_console_write` with its three states, and `process_ansi_csi`.  The contents of
`ansi_buffer` up to `ansi_pos` are a list.  A write ends with `fb_flush`, which is left
out here: it touches neither the machine nor the cursor.
-/

namespace EnclaveOS

open PageWord

inductive AnsiState
  | idle
  | escape
  | collecting
deriving DecidableEq, Repr

/-- `ansi_state`, `ansi_buffer` up to `ansi_pos`, and the colours. -/
structure AnsiMachine where
  state : AnsiState
  buffer : List (BitVec 8)
  currentFg : Nat
  currentBg : Nat
deriving DecidableEq, Repr

/-- The calls that the console makes. -/
inductive ConsoleEvent
  | serialPutc (c : BitVec 8)
  | putchar (c : BitVec 8)
  | clear
  | setCursor (row col : Int)
  | setColor (fg bg : Nat)
  /-- The line that is logged on the serial port for a cursor address. -/
  | cupLog (row col : Int)
deriving DecidableEq, Repr

def colorBlack : Nat := 0
def colorBrown : Nat := 6
def colorLightGrey : Nat := 7
def colorYellow : Nat := 14

/-- `ansi_fg_map`. -/
def ansiFgMap : List Nat := [0, 4, 2, 6, 1, 5, 3, 7]

/-- `ansi_fg_bright_map`. -/
def ansiFgBrightMap : List Nat := [8, 12, 10, 14, 9, 13, 11, 15]

namespace AnsiMachine

def boot : AnsiMachine := ⟨.idle, [], colorLightGrey, colorBlack⟩

/-- `ansi_state = ANSI_IDLE; ansi_pos = 0`. -/
def reset (m : AnsiMachine) : AnsiMachine := { m with state := .idle, buffer := [] }

/-- A character of a sequence is kept while there is room. -/
def collect (m : AnsiMachine) (c : BitVec 8) : AnsiMachine :=
  if m.buffer.length < 31 then { m with buffer := m.buffer ++ [c] } else m

end AnsiMachine

/-- `n = n * 10 + (c - '0')` over the digits, from a first value. -/
def readInt (start : Word) (digits : List (BitVec 8)) : Word :=
  digits.foldl (fun n c => n * 10 + (c - ascii '0').setWidth 32) start

/-- A separator is skipped. -/
def skipSemicolon (params : List (BitVec 8)) : List (BitVec 8) :=
  if params.head? = some (ascii ';') then params.tail else params

/-- The cursor position.  The row is read from 1 on, and the column from 0 on. -/
def cupCommand (params : List (BitVec 8)) : List ConsoleEvent :=
  let row := readInt 1 (params.takeWhile isDigit)
  let rest := skipSemicolon (params.dropWhile isDigit)
  let col := readInt 0 (rest.takeWhile isDigit)
  let col := if col = 0 then 1 else col
  let row := if row.toInt < 1 then 1 else row
  [.cupLog row.toInt col.toInt, .setCursor (row - 1).toInt (col - 1).toInt]

/-- The erasure of the display. -/
def edCommand (buffer : List (BitVec 8)) : List ConsoleEvent :=
  let mode : Word :=
    match buffer with
    | c :: _ :: _ => if isDigit c then (c - ascii '0').setWidth 32 else 0
    | _ => 0
  if mode = 2 ∨ mode = 3 ∨ buffer.length = 1 then [.clear, .setCursor 0 0] else []

/-- The colours and the flag `bold` of the call. -/
structure SgrState where
  fg : Nat
  bg : Nat
  bold : Bool

/-- One number of the graphic rendition. -/
def sgrNumber (st : SgrState) (num : Word) : SgrState :=
  let n := num.toInt
  if n = 0 then ⟨colorLightGrey, colorBlack, false⟩
  else if n = 1 then { st with bold := true }
  else if 30 ≤ n ∧ n ≤ 37 then
    let fg := ansiFgMap.getD (n - 30).toNat 0
    { st with
      fg := if st.bold then (if fg = colorBrown then colorYellow else if fg < 8 then fg + 8 else fg)
        else fg }
  else if 40 ≤ n ∧ n ≤ 47 then { st with bg := ansiFgMap.getD (n - 40).toNat 0 }
  else if 90 ≤ n ∧ n ≤ 97 then { st with fg := ansiFgBrightMap.getD (n - 90).toNat 0 }
  else st

/-- The loop over the numbers, with as many rounds as characters.  A round that takes none of them,
which a question mark behind the first character makes, is repeated for ever. -/
def sgrLoop : Nat → List (BitVec 8) → SgrState → Option SgrState
  | _, [], st => some st
  | 0, _ :: _, _ => none
  | rounds + 1, c :: params, st =>
    let params := (c :: params).dropWhile (· = ascii ' ')
    let digits := params.takeWhile isDigit
    let st := if digits = [] then st else sgrNumber st (readInt 0 digits)
    sgrLoop rounds (skipSemicolon (params.dropWhile isDigit)) st

/-- `process_ansi_csi`; nothing when it does not return. -/
def processAnsiCsi (m : AnsiMachine) : Option (AnsiMachine × List ConsoleEvent) :=
  if m.buffer = [] then some (m, [])
  else if m.buffer.head? = some (ascii '?') then some (m.reset, [])
  else
    let finalChar := m.buffer.getLast?
    let params := m.buffer.dropLast
    if finalChar = some (ascii 'J') then some (m.reset, edCommand m.buffer)
    else if finalChar = some (ascii 'H') ∨ finalChar = some (ascii 'f') then
      some (m.reset, cupCommand params)
    else if finalChar = some (ascii 'm') then do
      let st ←
        (if params = [] then some ⟨colorLightGrey, colorBlack, false⟩
        else sgrLoop params.length params ⟨m.currentFg, m.currentBg, false⟩)
      some ({ m.reset with currentFg := st.fg, currentBg := st.bg }, [.setColor st.fg st.bg])
    else some (m.reset, [])

/-- The characters that are copied to the serial port. -/
def serialChar (c : BitVec 8) : List ConsoleEvent :=
  if c = ascii '\n' ∨ c = ascii '\r' ∨ c = ascii '\t' ∨ 32 ≤ c ∧ c < 127 then [.serialPutc c]
  else []

/-- The characters of a sequence before its last one. -/
def isParameter (c : BitVec 8) : Bool :=
  isDigit c || c == ascii ';' || c == ascii ' ' || c == ascii '?'

/-- One round of `devfs_console_write`. -/
def consoleByte (m : AnsiMachine) (c : BitVec 8) : Option (AnsiMachine × List ConsoleEvent) :=
  match m.state with
  | .idle =>
    if c = 0x1B then some ({ m with state := .escape }, [])
    else some (m, serialChar c ++ [.putchar c])
  | .escape =>
    if c = ascii '[' then some ({ m with state := .collecting, buffer := [] }, [])
    else some ({ m with state := .idle },
      [.serialPutc 0x1B] ++ serialChar c ++ [.putchar 0x1B, .putchar c])
  | .collecting =>
    if isParameter c then some (m.collect c, [])
    else if 0x40 ≤ c ∧ c ≤ 0x7E then do
      let (m, events) ← processAnsiCsi (m.collect c)
      some (m.reset, events)
    else some (m.reset, [])

/-- `devfs_console_write`. -/
def consoleWrite : AnsiMachine → List (BitVec 8) → Option (AnsiMachine × List ConsoleEvent)
  | m, [] => some (m, [])
  | m, c :: bytes => do
    let (m, events) ← consoleByte m c
    let (m, more) ← consoleWrite m bytes
    some (m, events ++ more)

/-- Several calls. -/
def consoleWrites : AnsiMachine → List (List (BitVec 8)) → Option (AnsiMachine × List ConsoleEvent)
  | m, [] => some (m, [])
  | m, bytes :: chunks => do
    let (m, events) ← consoleWrite m bytes
    let (m, more) ← consoleWrites m chunks
    some (m, events ++ more)

section Streams

variable {m m' : AnsiMachine} {events : List ConsoleEvent}

theorem consoleWrite_append (m : AnsiMachine) (bytes rest : List (BitVec 8)) :
    consoleWrite m (bytes ++ rest) = (consoleWrite m bytes).bind fun first =>
      (consoleWrite first.1 rest).map fun last => (last.1, first.2 ++ last.2) := by
  induction bytes generalizing m with
  | nil => simp [consoleWrite]
  | cons c bytes ih =>
    simp only [List.cons_append, consoleWrite, Option.bind_eq_bind, ih, Option.bind_assoc]
    cases consoleByte m c with
    | none => rfl
    | some found =>
      simp only [Option.bind_some]
      cases consoleWrite found.1 bytes with
      | none => rfl
      | some next =>
        cases hlast : consoleWrite next.1 rest <;> simp [hlast]

/-- The machine does not see where one call ends and the next begins. -/
theorem consoleWrites_flatten (m : AnsiMachine) (chunks : List (List (BitVec 8))) :
    consoleWrites m chunks = consoleWrite m chunks.flatten := by
  induction chunks generalizing m with
  | nil => rfl
  | cons bytes chunks ih =>
    simp only [consoleWrites, ih, List.flatten_cons, consoleWrite_append, Option.bind_eq_bind]
    cases consoleWrite m bytes with
    | none => rfl
    | some first =>
      cases hlast : consoleWrite first.1 chunks.flatten <;> simp [hlast]

theorem AnsiMachine.collect_length (h : m.buffer.length ≤ 31) (c : BitVec 8) :
    (m.collect c).buffer.length ≤ 31 := by
  unfold AnsiMachine.collect
  split_ifs with hroom
  · rw [List.length_append]
    exact hroom
  · exact h

theorem consoleByte_length (h : m.buffer.length ≤ 31) {c : BitVec 8}
    (hstep : consoleByte m c = some (m', events)) : m'.buffer.length ≤ 31 := by
  unfold consoleByte at hstep
  cases hstate : m.state with
  | idle =>
    rw [hstate] at hstep
    dsimp only at hstep
    split_ifs at hstep <;> cases hstep <;> exact h
  | escape =>
    rw [hstate] at hstep
    dsimp only at hstep
    split_ifs at hstep <;> cases hstep
    · exact Nat.zero_le 31
    · exact h
  | collecting =>
    rw [hstate] at hstep
    dsimp only at hstep
    split_ifs at hstep
    · cases hstep
      exact AnsiMachine.collect_length h c
    · obtain ⟨found, -, hsome⟩ := Option.bind_eq_some_iff.mp hstep
      cases hsome
      exact Nat.zero_le 31
    · cases hstep
      exact Nat.zero_le 31

/-- For every stream of bytes `ansi_pos` stays between 0 and 31: a character is stored at an index
below 31, and the characters that are read stand below `ansi_pos`. -/
theorem ansiPos_le (h : m.buffer.length ≤ 31) {bytes : List (BitVec 8)}
    (hwrite : consoleWrite m bytes = some (m', events)) : m'.buffer.length ≤ 31 := by
  induction bytes generalizing m events with
  | nil =>
    cases hwrite
    exact h
  | cons c bytes ih =>
    simp only [consoleWrite, Option.bind_eq_bind, Option.bind_eq_some_iff] at hwrite
    obtain ⟨found, hstep, last, hlast, hsome⟩ := hwrite
    cases hsome
    exact ih (consoleByte_length h hstep) hlast

end Streams

/-- The sequence that addresses the cursor, with rows and columns from 1 on. -/
def cupBytes (row col : Nat) : List (BitVec 8) :=
  [0x1B, ascii '['] ++ (digitText 10 row ++ ascii ';' :: digitText 10 col ++ [ascii 'H'])

/-- The row that `process_ansi_csi` reads. -/
def cupRow (row : Nat) : Word :=
  let read := BitVec.ofNat 32 (10 ^ (digitText 10 row).length + row)
  if read.toInt < 1 then 1 else read

theorem isDigit_digitChar {rem : Nat} (h : rem < 10) : isDigit (digitChar rem) = true := by
  revert rem
  decide

theorem isDigit_of_mem_digitText {n : Nat} {c : BitVec 8} (hc : c ∈ digitText 10 n) :
    isDigit c = true := by
  unfold digitText at hc
  split_ifs at hc
  · rw [List.mem_singleton.mp hc]
    rfl
  · obtain ⟨rem, hrem, rfl⟩ := List.mem_map.mp (List.mem_reverse.mp hc)
    exact isDigit_digitChar (Nat.digits_lt_base (by decide) hrem)

/-- The value of a number that is written after a first value. -/
theorem readInt_digits (start : Word) {digits : List Nat} (h : ∀ d ∈ digits, d < 10) :
    readInt start ((digits.map digitChar).reverse) =
      start * BitVec.ofNat 32 (10 ^ digits.length) + BitVec.ofNat 32 (Nat.ofDigits 10 digits) := by
  induction digits with
  | nil => simp [readInt]
  | cons d digits ih =>
    have hchar : ∀ d < 10, (digitChar d - ascii '0').setWidth 32 = BitVec.ofNat 32 d := by
      decide
    rw [List.map_cons, List.reverse_cons]
    unfold readInt at ih ⊢
    rw [List.foldl_append, ih fun x hx => h x (List.mem_cons_of_mem d hx), List.foldl_cons,
      List.foldl_nil, hchar d (h d List.mem_cons_self), Nat.ofDigits_cons, List.length_cons, Nat.pow_succ]
    simp only [BitVec.ofNat_add, BitVec.ofNat_mul, BitVec.add_mul, BitVec.mul_assoc]
    rw [BitVec.mul_comm (BitVec.ofNat 32 10), BitVec.add_assoc,
      BitVec.add_comm (BitVec.ofNat 32 d)]
    rfl

theorem readInt_digitText (start : Word) {n : Nat} (hn : 0 < n) :
    readInt start (digitText 10 n) =
      start * BitVec.ofNat 32 (10 ^ (digitText 10 n).length) + BitVec.ofNat 32 n := by
  have htext : digitText 10 n = ((Nat.digits 10 n).map digitChar).reverse := by
    unfold digitText
    rw [if_neg (by omega)]
  rw [htext, readInt_digits start fun d hd => Nat.digits_lt_base (by decide) hd, Nat.ofDigits_digits,
    List.length_reverse, List.length_map]

section Cursor

variable {m : AnsiMachine} {row col : Nat}

/-- The parameters are collected as long as there is room. -/
theorem consoleWrite_params (hstate : m.state = .collecting) {params : List (BitVec 8)}
    (hparams : ∀ c ∈ params, isParameter c = true)
    (hroom : m.buffer.length + params.length ≤ 31) :
    consoleWrite m params = some ({ m with buffer := m.buffer ++ params }, []) := by
  induction params generalizing m with
  | nil => simp [consoleWrite]
  | cons c params ih =>
    rw [List.length_cons] at hroom
    have hc := hparams c List.mem_cons_self
    have hbyte : consoleByte m c = some ({ m with buffer := m.buffer ++ [c] }, []) := by
      unfold consoleByte
      rw [hstate]
      dsimp only
      rw [if_pos hc, AnsiMachine.collect, if_pos (by omega), hstate]
    have hrest := @ih { m with buffer := m.buffer ++ [c] } hstate
      (fun x hx => hparams x (List.mem_cons_of_mem c hx))
      (by rw [List.length_append, List.length_singleton]; omega)
    simp only [consoleWrite, hbyte, Option.bind_eq_bind, Option.bind_some, hrest]
    simp

theorem toInt_ofNat_sub_one {n : Nat} (hn : 0 < n) (hsmall : n < 2147483648) :
    (BitVec.ofNat 32 n - 1).toInt = n - 1 := by
  have hnat : (BitVec.ofNat 32 n).toNat = n := by
    rw [BitVec.toNat_ofNat]
    omega
  have hbefore : (BitVec.ofNat 32 n - 1).toNat = n - 1 := by
    rw [BitVec.toNat_sub_of_le, hnat]
    · rfl
    · rw [BitVec.le_def, hnat]
      exact hn
  rw [BitVec.toInt_eq_toNat_of_lt (by omega), hbefore]
  omega

/-- The digits of two numbers with a separator between them. -/
theorem cupCommand_digits (hrow : 0 < row) (hcol : 0 < col) (hcol31 : col < 2147483648) :
    cupCommand (digitText 10 row ++ ascii ';' :: digitText 10 col) =
      [.cupLog (cupRow row).toInt col, .setCursor (cupRow row - 1).toInt (col - 1)] := by
  have hsplit : ∀ rest, (digitText 10 row ++ ascii ';' :: rest).takeWhile isDigit =
        digitText 10 row ∧
      (digitText 10 row ++ ascii ';' :: rest).dropWhile isDigit = ascii ';' :: rest := by
    intro rest
    have hdigits : ∀ c ∈ digitText 10 row, isDigit c = true := fun c => isDigit_of_mem_digitText
    have hsemi : isDigit (ascii ';') = false := rfl
    rw [List.takeWhile_append_of_pos hdigits, List.dropWhile_append_of_pos hdigits]
    simp [hsemi]
  have hlast : (digitText 10 col).takeWhile isDigit = digitText 10 col :=
    List.takeWhile_eq_self_iff.mpr (fun c => isDigit_of_mem_digitText)
  have hread : readInt 0 (digitText 10 col) = BitVec.ofNat 32 col := by
    rw [readInt_digitText 0 hcol]
    simp
  have hsmall : (BitVec.ofNat 32 col).toNat = col := by
    rw [BitVec.toNat_ofNat]
    omega
  have hne : BitVec.ofNat 32 col ≠ 0 := by
    intro h
    rw [h] at hsmall
    simp at hsmall
    omega
  have hcolumn : (BitVec.ofNat 32 col).toInt = col := by
    rw [BitVec.toInt_eq_toNat_of_lt (by omega), hsmall]
  have hskip : skipSemicolon (ascii ';' :: digitText 10 col) = digitText 10 col := rfl
  unfold cupCommand
  dsimp only
  rw [(hsplit _).1, (hsplit _).2, hskip, hlast, hread, readInt_digitText 1 hrow, if_neg hne,
    hcolumn, toInt_ofNat_sub_one hcol hcol31]
  have hsum : (1 : Word) * BitVec.ofNat 32 (10 ^ (digitText 10 row).length) + BitVec.ofNat 32 row =
      BitVec.ofNat 32 (10 ^ (digitText 10 row).length + row) := by
    rw [BitVec.ofNat_add]
    exact congrArg (· + BitVec.ofNat 32 row) (BitVec.one_mul _)
  rw [hsum]
  rfl

/-- What a sequence that addresses the cursor does. -/
theorem cup_events (hidle : m.state = .idle) (hrow : 0 < row) (hcol : 0 < col)
    (hcol31 : col < 2147483648)
    (hfit : (digitText 10 row).length + (digitText 10 col).length + 2 ≤ 31) :
    consoleWrite m (cupBytes row col) = some (m.reset,
      [.cupLog (cupRow row).toInt col, .setCursor (cupRow row - 1).toInt (col - 1)]) := by
  let start : AnsiMachine := { m with state := .collecting, buffer := [] }
  let params := digitText 10 row ++ ascii ';' :: digitText 10 col
  have hparams : ∀ c ∈ params, isParameter c = true := by
    intro c hc
    have hdigit : c = ascii ';' ∨ isDigit c = true := by
      rcases List.mem_append.mp hc with h | h
      · exact Or.inr (isDigit_of_mem_digitText h)
      · rcases List.mem_cons.mp h with h | h
        · exact Or.inl h
        · exact Or.inr (isDigit_of_mem_digitText h)
    rcases hdigit with rfl | h
    · rfl
    · simp [isParameter, h]
  have hlength : params.length = (digitText 10 row).length + (digitText 10 col).length + 1 := by
    simp [params, Nat.add_assoc]
  have hintro : consoleWrite m [0x1B, ascii '['] = some (start, []) := by
    simp [consoleWrite, consoleByte, hidle, start, ascii]
  have hcollect : consoleWrite start params = some ({ start with buffer := params }, []) := by
    have h := consoleWrite_params (m := start) rfl hparams (by rw [hlength]; simp [start]; omega)
    simpa [start] using h
  have hfirst : ∃ c rest, isDigit c = true ∧ params = c :: rest := by
    cases htext : digitText 10 row with
    | nil =>
      unfold digitText at htext
      rw [if_neg (by omega), List.reverse_eq_nil_iff, List.map_eq_nil_iff,
        Nat.digits_eq_nil_iff_eq_zero] at htext
      omega
    | cons c rest =>
      refine ⟨c, rest ++ ascii ';' :: digitText 10 col, ?_, ?_⟩
      · exact isDigit_of_mem_digitText (n := row) (by rw [htext]; exact List.mem_cons_self)
      · simp [params, htext]
  have hprocess : processAnsiCsi { start with buffer := params ++ [ascii 'H'] } =
      some (m.reset, cupCommand params) := by
    obtain ⟨c, rest, hc, heq⟩ := hfirst
    have hquestion : c ≠ ascii '?' := by
      rintro rfl
      exact absurd hc (by decide)
    unfold processAnsiCsi
    simp only [List.append_eq_nil_iff, List.cons_ne_nil, and_false, if_false,
      List.getLast?_append_of_ne_nil, ne_eq, not_false_eq_true, List.getLast?_singleton,
      List.dropLast_concat]
    rw [heq]
    simp only [List.cons_append, List.head?_cons, Option.some.injEq, hquestion, if_false]
    rfl
  have hfinal : consoleWrite { start with buffer := params } [ascii 'H'] =
      some (m.reset, cupCommand params) := by
    have hcollected : AnsiMachine.collect { start with buffer := params } (ascii 'H') =
        { start with buffer := params ++ [ascii 'H'] } := by
      unfold AnsiMachine.collect
      rw [if_pos (by rw [hlength]; omega)]
    simp only [consoleWrite, consoleByte, start, Option.bind_eq_bind] at hcollected ⊢
    rw [if_neg (by decide), if_pos (by decide), hcollected, hprocess]
    simp [AnsiMachine.reset]
  have hbytes : cupBytes row col = [0x1B, ascii '['] ++ (params ++ [ascii 'H']) := by
    simp [cupBytes, params]
  rw [hbytes, consoleWrite_append, hintro, Option.bind_some, consoleWrite_append, hcollect,
    Option.bind_some, hfinal, cupCommand_digits hrow hcol hcol31]
  rfl

/-- The row read is never the row meant: the digits are put behind a one. -/
theorem cupRow_ne (hrow : 0 < row) (hrow31 : row < 2147483648) :
    (cupRow row - 1).toInt ≠ row - 1 := by
  have hlength : 0 < (digitText 10 row).length ∧ (digitText 10 row).length ≤ 10 := by
    unfold digitText
    rw [if_neg (by omega), List.length_reverse, List.length_map]
    constructor
    · rw [List.length_pos_iff]
      exact Nat.digits_ne_nil_iff_ne_zero.mpr (by omega)
    · rw [Nat.digits_length_le_iff (by decide)]
      omega
  intro heq
  have hword : cupRow row = BitVec.ofNat 32 row := by
    rw [← toInt_ofNat_sub_one hrow hrow31, BitVec.toInt_inj] at heq
    have hnext : cupRow row - 1 + 1 = BitVec.ofNat 32 row - 1 + 1 := by rw [heq]
    rwa [BitVec.sub_add_cancel, BitVec.sub_add_cancel] at hnext
  unfold cupRow at hword
  dsimp only at hword
  split_ifs at hword with hsmall
  · -- only the row one could be met by the default, and it is read as eleven
    have hone : row = 1 := by
      have hnat := congrArg BitVec.toNat hword
      rw [BitVec.toNat_ofNat, Nat.mod_eq_of_lt (by omega)] at hnat
      exact hnat.symm
    subst hone
    have hdigits : (digitText 10 1).length = 1 := by simp [digitText]
    rw [hdigits] at hsmall
    exact absurd hsmall (by decide)
  · have hnat := congrArg BitVec.toNat hword
    rw [BitVec.toNat_ofNat, BitVec.toNat_ofNat] at hnat
    generalize (digitText 10 row).length = k at hlength hnat
    obtain ⟨hlow, hhigh⟩ := hlength
    interval_cases k <;> omega

end Cursor

def ConsoleEvent.isCursor : ConsoleEvent → Bool
  | .setCursor _ _ => true
  | _ => false

/-- The console makes the one call for the cursor that the sequence asks for, and prints nothing. -/
structure CupCorrect (events : List ConsoleEvent) (row col : Nat) : Prop where
  cursor : events.filter ConsoleEvent.isCursor = [.setCursor (row - 1) (col - 1)]
  silent : ∀ c, .putchar c ∉ events ∧ .serialPutc c ∉ events

/-- Whatever was written before, and however the bytes of the sequence are split over calls, the
cursor is never put into the row that the sequence names: the digits are read behind a one. -/
theorem cup_never {traffic chunks : List (List (BitVec 8))} {m : AnsiMachine}
    {before : List ConsoleEvent} {row col : Nat}
    (htraffic : consoleWrites .boot traffic = some (m, before)) (hidle : m.state = .idle)
    (hrow : 0 < row) (hrow31 : row < 2147483648) (hcol : 0 < col) (hcol31 : col < 2147483648)
    (hfit : (digitText 10 row).length + (digitText 10 col).length + 2 ≤ 31)
    (hchunks : chunks.flatten = cupBytes row col) :
    m.buffer.length ≤ 31 ∧ ∃ m' events, consoleWrites m chunks = some (m', events) ∧
      ¬CupCorrect events row col := by
  constructor
  · rw [consoleWrites_flatten] at htraffic
    exact ansiPos_le (m := .boot) (Nat.zero_le 31) htraffic
  · have hwrite : consoleWrites m chunks = some (m.reset,
        [.cupLog (cupRow row).toInt col, .setCursor (cupRow row - 1).toInt (col - 1)]) := by
      rw [consoleWrites_flatten, hchunks, cup_events hidle hrow hcol hcol31 hfit]
    refine ⟨_, _, hwrite, fun hcorrect => ?_⟩
    have hcursor := hcorrect.cursor
    simp only [ConsoleEvent.isCursor, List.filter_cons, List.filter_nil, if_true,
      Bool.false_eq_true, if_false, List.cons.injEq, ConsoleEvent.setCursor.injEq,
      and_true] at hcursor
    exact cupRow_ne hrow hrow31 hcursor

theorem cup_never_sample : ∃ m' events,
    consoleWrites .boot [[0x1B], [ascii '[', ascii '5', ascii ';'], [ascii '3', ascii 'H']] =
      some (m', events) ∧ ¬CupCorrect events 5 3 := by
  have htraffic : consoleWrites .boot [] = some (.boot, []) := rfl
  have hchunks : [[0x1B], [ascii '[', ascii '5', ascii ';'], [ascii '3', ascii 'H']].flatten =
      cupBytes 5 3 := by simp [cupBytes, digitText, digitChar, ascii]
  exact (cup_never htraffic rfl (by decide) (by decide) (by decide) (by decide)
    (by simp [digitText]) hchunks).2

/-- Row 5 and column 3 put the cursor into row 15. -/
theorem cup_row_five : ¬∀ (traffic chunks : List (List (BitVec 8))) (m : AnsiMachine)
    (before : List ConsoleEvent) (row col : Nat),
    consoleWrites .boot traffic = some (m, before) → m.state = .idle → 0 < row →
    row < 2147483648 → 0 < col → col < 2147483648 →
    (digitText 10 row).length + (digitText 10 col).length + 2 ≤ 31 →
    chunks.flatten = cupBytes row col →
    ∃ m' events, consoleWrites m chunks = some (m', events) ∧ CupCorrect events row col := by
  intro h
  obtain ⟨m', events, hwrite, hcorrect⟩ := h [] [cupBytes 5 3] .boot [] 5 3 rfl rfl (by decide)
    (by decide) (by decide) (by decide) (by simp [digitText]) (by simp)
  have hbytes : cupBytes 5 3 = [0x1B, ascii '[', ascii '5', ascii ';', ascii '3', ascii 'H'] := by
    simp [cupBytes, digitText, digitChar, ascii]
  have hresult : consoleWrites .boot
      [[0x1B, ascii '[', ascii '5', ascii ';', ascii '3', ascii 'H']] =
        some (.boot, [.cupLog 15 3, .setCursor 14 2]) := by decide +kernel
  rw [hbytes, hresult] at hwrite
  cases hwrite
  have hcursor := hcorrect.cursor
  revert hcursor
  decide

end EnclaveOS
