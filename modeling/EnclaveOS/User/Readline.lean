import EnclaveOS.Foundation.ByteMemory
import EnclaveOS.Foundation.LineEditor
import EnclaveOS.Foundation.Terminated
import EnclaveOS.User.Printf

/-!
# Readline - the line editor of the shell

`readline` of `shell_user.c`, byte after byte, with `memmove` of
`user_libc.c`.  A store outside of the line buffer or of `scratch` has no result.
Drawing the line is left out: it reads the line and changes the screen and
`last_drawn_len` only.
-/

namespace EnclaveOS

open ByteMemory LineEditor

/-- Copying byte after byte, last bytes first. -/
def copyBack (mem : Bytes) (dest src : Nat) : Nat → Bytes
  | 0 => mem
  | n + 1 => copyBack (Function.update mem (dest + n) (mem (src + n))) dest src n

/-- `memmove`. -/
def memmove (mem : Bytes) (dest src n : Nat) : Bytes :=
  if dest < src then copy mem dest src n else copyBack mem dest src n

theorem copyBack_apply (mem : Bytes) {dest src n : Nat} (h : src ≤ dest) (k : Nat) :
    copyBack mem dest src n k =
      if dest ≤ k ∧ k < dest + n then mem (src + (k - dest)) else mem k := by
  induction n generalizing mem with
  | zero => exact (if_neg (by omega)).symm
  | succ n ih =>
    rw [copyBack, ih]
    by_cases hk : k = dest + n
    · rw [if_neg (by omega), if_pos (by omega), hk, Function.update_self, Nat.add_sub_cancel_left]
    · split_ifs
      · exact Function.update_of_ne (by omega) ..
      · omega
      · omega
      · exact Function.update_of_ne hk ..

/-- A move is exact in both directions. -/
theorem memmove_apply (mem : Bytes) (dest src n k : Nat) :
    memmove mem dest src n k =
      if dest ≤ k ∧ k < dest + n then mem (src + (k - dest)) else mem k := by
  unfold memmove
  split_ifs with hforward
  · rw [copy_apply mem (Or.inl hforward), if_pos (by assumption)]
  · rw [copy_apply mem (Or.inl hforward), if_neg (by assumption)]
  · rw [copyBack_apply mem (by omega), if_pos (by assumption)]
  · rw [copyBack_apply mem (by omega), if_neg (by assumption)]

def cmdBufferSize : Nat := 256
def historySize : Nat := 32
def scratchSize : Nat := cmdBufferSize

/-- The variables that outlive a call: the lines of `history`, `history_view`, the
string in `scratch` and `scratch_len`. -/
structure ShellHistory where
  lines : List (List (BitVec 8))
  view : Nat
  scratch : List (BitVec 8)
  scratchLen : Nat

/-- `read_state_t`. -/
inductive ReadState
  | normal
  | esc
  | csi
  deriving DecidableEq

/-- A call of `readline` between two bytes. -/
structure Readline where
  history : ShellHistory
  state : ReadState
  csiBuf : List (BitVec 8)
  pos : Nat
  bufLen : Nat
  buffer : Bytes

/-- The call goes on, or returns. -/
inductive ReadResult
  | reading (r : Readline)
  | returned (value : Int) (r : Readline)

/-- The start of a call, on a buffer that may hold anything. -/
def Readline.start (history : ShellHistory) (buffer : Bytes) : Readline where
  history := history
  state := .normal
  csiBuf := []
  pos := 0
  bufLen := 0
  buffer := Function.update buffer 0 0

section Edits

variable (maxSize : Nat)

/-- `buffer[i] = c`. -/
def putByte (buffer : Bytes) (i : Nat) (c : BitVec 8) : Option Bytes :=
  if i < maxSize then some (Function.update buffer i c) else none

/-- `memmove` within the buffer. -/
def moveBytes (buffer : Bytes) (dest src n : Nat) : Option Bytes :=
  if dest + n ≤ maxSize ∧ src + n ≤ maxSize then some (memmove buffer dest src n) else none

/-- `strcpy` into the buffer. -/
def copyLine (buffer : Bytes) (text : List (BitVec 8)) : Option Bytes :=
  if text.length < maxSize then some (storeBytes buffer 0 (text ++ [0])) else none

/-- `strlen` of the buffer. -/
def lineLength (buffer : Bytes) : Option Nat :=
  (List.range maxSize).find? (fun i => buffer i = 0)

/-- The string in the buffer. -/
def lineString (buffer : Bytes) : Option (List (BitVec 8)) :=
  (lineLength maxSize buffer).map fun n => (List.range n).map buffer

/-- `strcpy(scratch, buffer)`, with `scratch_len`. -/
def saveScratch (r : Readline) : Option Readline := do
  let text ← lineString maxSize r.buffer
  if text.length < scratchSize then
    some { r with history := { r.history with scratch := text, scratchLen := r.bufLen } }
  else none

/-- The line shows `history[history_view]`. -/
def showLine (r : Readline) : Option Readline := do
  let buffer ← copyLine maxSize r.buffer (r.history.lines.getD r.history.view [])
  let bufLen ← lineLength maxSize buffer
  some { r with buffer := buffer, bufLen := bufLen, pos := bufLen }

/-- The Up key. -/
def historyUp (r : Readline) : Option Readline := do
  if 0 < r.history.view then
    let r ← if r.history.view = r.history.lines.length then saveScratch maxSize r else some r
    showLine maxSize { r with history := { r.history with view := r.history.view - 1 } }
  else some r

/-- The Down key. -/
def historyDown (r : Readline) : Option Readline := do
  if r.history.view < r.history.lines.length then
    let r := { r with history := { r.history with view := r.history.view + 1 } }
    if r.history.view = r.history.lines.length then do
      let buffer ← copyLine maxSize r.buffer r.history.scratch
      some { r with buffer := buffer, bufLen := r.history.scratchLen, pos := r.history.scratchLen }
    else showLine maxSize r
  else some r

/-- The Delete key, and Ctrl-D in a line. -/
def deleteChar (r : Readline) : Option Readline := do
  if r.pos < r.bufLen then
    let buffer ← moveBytes maxSize r.buffer r.pos (r.pos + 1) (r.bufLen - r.pos)
    let buffer ← putByte maxSize buffer (r.bufLen - 1) 0
    some { r with buffer := buffer, bufLen := r.bufLen - 1 }
  else some r

/-- Backspace. -/
def eraseChar (r : Readline) : Option Readline := do
  if 0 < r.pos then
    let buffer ← moveBytes maxSize r.buffer (r.pos - 1) r.pos (r.bufLen - r.pos + 1)
    some { r with buffer := buffer, pos := r.pos - 1, bufLen := r.bufLen - 1 }
  else some r

/-- Ctrl-K. -/
def killAfter (r : Readline) : Option Readline := do
  if r.pos < r.bufLen then
    let buffer ← putByte maxSize r.buffer r.pos 0
    some { r with buffer := buffer, bufLen := r.pos }
  else some r

/-- Ctrl-U. -/
def killBefore (r : Readline) : Option Readline := do
  if 0 < r.pos then
    let buffer ← moveBytes maxSize r.buffer 0 r.pos (r.bufLen - r.pos + 1)
    some { r with buffer := buffer, bufLen := r.bufLen - r.pos, pos := 0 }
  else some r

/-- A printable character. -/
def insertChar (r : Readline) (c : BitVec 8) : Option Readline := do
  if r.bufLen < maxSize - 1 then
    let buffer ← moveBytes maxSize r.buffer (r.pos + 1) r.pos (r.bufLen - r.pos + 1)
    let buffer ← putByte maxSize buffer r.pos c
    some { r with buffer := buffer, pos := r.pos + 1, bufLen := r.bufLen + 1 }
  else some r

def moveLeft (r : Readline) : Readline := if 0 < r.pos then { r with pos := r.pos - 1 } else r

def moveRight (r : Readline) : Readline :=
  if r.pos < r.bufLen then { r with pos := r.pos + 1 } else r

def moveHome (r : Readline) : Readline := if r.pos ≠ 0 then { r with pos := 0 } else r

def moveEnd (r : Readline) : Readline := if r.pos ≠ r.bufLen then { r with pos := r.bufLen } else r

/-- The end of a sequence `ESC [ ... c`. -/
def csiByte (r : Readline) (c : BitVec 8) : Option Readline :=
  if c = ascii 'A' ∧ r.csiBuf = [] then historyUp maxSize r
  else if c = ascii 'B' ∧ r.csiBuf = [] then historyDown maxSize r
  else if c = ascii 'C' ∧ r.csiBuf = [] then some (moveRight r)
  else if c = ascii 'D' ∧ r.csiBuf = [] then some (moveLeft r)
  else if c = ascii 'H' ∧ r.csiBuf = [] then some (moveHome r)
  else if c = ascii 'F' ∧ r.csiBuf = [] then some (moveEnd r)
  else if c = ascii '~' ∧ r.csiBuf = [ascii '3'] then deleteChar maxSize r
  else some r

/-- The `switch` on a control character. -/
def controlByte (r : Readline) (c : BitVec 8) : Option ReadResult :=
  if c = 1 then some (.reading (moveHome r))
  else if c = 3 then do
    let buffer ← putByte maxSize r.buffer 0 0
    some (.returned 0 { r with
      buffer := buffer, bufLen := 0, pos := 0,
      history := { r.history with view := r.history.lines.length } })
  else if c = 4 then
    if r.bufLen = 0 then some (.returned (-1) r) else (deleteChar maxSize r).map .reading
  else if c = 5 then some (.reading (moveEnd r))
  else if c = 11 then (killAfter maxSize r).map .reading
  else if c = 21 then (killBefore maxSize r).map .reading
  else some (.reading r)

/-- A byte outside of a sequence. -/
def normalByte (r : Readline) (c : BitVec 8) : Option ReadResult :=
  if c = 0x1B then some (.reading { r with state := .esc })
  else if c = 10 ∨ c = 13 then do
    let buffer ← putByte maxSize r.buffer r.bufLen 0
    some (.returned 0 { r with buffer := buffer })
  else if c = 8 ∨ c = 127 then (eraseChar maxSize r).map .reading
  else if c < 32 then controlByte maxSize r c
  else if c < 127 then (insertChar maxSize r c).map .reading
  else some (.reading r)

/-- `(c >= '0' && c <= '9') || c == ';' || c == '?'`. -/
def isCsiParameter (c : BitVec 8) : Bool := isDigit c || c == ascii ';' || c == ascii '?'

/-- The body of the loop of `readline`. -/
def readByte (r : Readline) (c : BitVec 8) : Option ReadResult :=
  match r.state with
  | .esc =>
    if c = ascii '[' then some (.reading { r with state := .csi, csiBuf := [] })
    else normalByte maxSize { r with state := .normal } c
  | .csi =>
    if isCsiParameter c then
      some (.reading { r with
        csiBuf := if r.csiBuf.length < 31 then r.csiBuf ++ [c] else r.csiBuf })
    else if 0x40 ≤ c ∧ c ≤ 0x7E then
      (csiByte maxSize { r with state := .normal } c).map .reading
    else some (.reading { r with state := .normal })
  | .normal => normalByte maxSize r c

/-- What the calls `read(STDIN_FILENO, &c, 1)` deliver, one after the other; `none` where
there is no byte. -/
def readBytes (r : Readline) : List (Option (BitVec 8)) → Option ReadResult
  | [] => some (.reading r)
  | none :: reads => readBytes r reads
  | some c :: reads =>
    match readByte maxSize r c with
    | none => none
    | some (.returned value r) => some (.returned value r)
    | some (.reading r) => readBytes r reads

end Edits

end EnclaveOS
