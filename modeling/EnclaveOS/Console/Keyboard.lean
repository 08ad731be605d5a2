import EnclaveOS.Foundation.RingBuffer
import EnclaveOS.User.Printf

/-!
# Keyboard - the driver of the PS/2 keyboard

The ring of `keyboard.c` with `kbd_buffer_push` and `k_getchar`, and what
`keyboard_handler` makes of a scancode.  The interrupt handler runs to its end between two
accesses of `k_getchar`, which is therefore cut at its reads and writes of `kbd_head`,
`kbd_tail` and the slots.
-/

namespace EnclaveOS

def kbdBufferSize : Nat := 256

/-- `kbd_buffer`, `kbd_head` and `kbd_tail`. -/
structure KbdRing where
  buffer : Nat → BitVec 8
  head : Nat
  tail : Nat

namespace KbdRing

/-- The test of `kbd_buffer_push`. -/
def Overflows (r : KbdRing) : Prop := (r.head + 1) % kbdBufferSize = r.tail

instance (r : KbdRing) : Decidable r.Overflows := inferInstanceAs (Decidable (_ = _))

/-- `kbd_buffer_push`. -/
def push (r : KbdRing) (c : BitVec 8) : KbdRing :=
  if r.Overflows then r
  else { r with
    buffer := Function.update r.buffer r.head c, head := (r.head + 1) % kbdBufferSize }

/-- The variables before the first interrupt. -/
def boot : KbdRing := ⟨fun _ => 0, 0, 0⟩

end KbdRing

/-- Where `k_getchar` is, with what it has read and not used yet. -/
inductive GetcharAt
  /-- Nobody is in `k_getchar`. -/
  | outside
  | entered
  /-- One side of the comparison has been read. -/
  | readHead (head : Nat)
  | readTail (tail : Nat)
  | nonEmpty
  /-- `kbd_tail` has been read for the subscript. -/
  | index (tail : Nat)
  | char (c : BitVec 8)
  /-- `kbd_tail` has been read to be advanced. -/
  | advance (c : BitVec 8) (tail : Nat)
deriving DecidableEq, Repr

/-- How a push or a test of `k_getchar` ended, with the number of characters that were unread at
that moment; for a test this is when `kbd_head` was read. -/
inductive KbdReport
  | pushed (kept : Bool) (unread : Nat)
  | empty (unread : Nat)
deriving DecidableEq, Repr

/-- The ring, the reader, and the history of both.  The last four fields are not in the source. -/
structure KbdRun where
  ring : KbdRing
  reader : GetcharAt
  accepted : List (BitVec 8)
  taken : List (BitVec 8)
  unreadAtTest : Nat
  reports : List KbdReport

inductive KbdOp
  /-- An interrupt that pushes a character. -/
  | push (c : BitVec 8)
  /-- The next access of `k_getchar`, or its call.  The order in which the comparison reads its
  two sides is up to the compiler. -/
  | getchar (tailFirst : Bool)
deriving DecidableEq, Repr

namespace KbdRun

/-- How many characters have been put into the ring and not taken out. -/
def unread (s : KbdRun) : Nat := s.accepted.length - s.taken.length

def push (s : KbdRun) (c : BitVec 8) : KbdRun :=
  if s.ring.Overflows then { s with reports := .pushed false s.unread :: s.reports }
  else { s with
    ring := s.ring.push c, accepted := s.accepted ++ [c],
    reports := .pushed true s.unread :: s.reports }

/-- `kbd_head == kbd_tail`. -/
def test (s : KbdRun) (head tail : Nat) : KbdRun :=
  if head = tail then
    { s with reader := .outside, reports := .empty s.unreadAtTest :: s.reports }
  else { s with reader := .nonEmpty }

/-- `k_getchar`, one access after another. -/
def getchar (s : KbdRun) (tailFirst : Bool) : KbdRun :=
  match s.reader with
  | .outside => { s with reader := .entered }
  | .entered =>
    if tailFirst then { s with reader := .readTail s.ring.tail }
    else { s with reader := .readHead s.ring.head, unreadAtTest := s.unread }
  | .readHead head => s.test head s.ring.tail
  | .readTail tail => { s with unreadAtTest := s.unread }.test s.ring.head tail
  | .nonEmpty => { s with reader := .index s.ring.tail }
  | .index tail => { s with reader := .char (s.ring.buffer tail) }
  | .char c => { s with reader := .advance c s.ring.tail }
  | .advance c tail =>
    { s with
      ring := { s.ring with tail := (tail + 1) % kbdBufferSize },
      reader := .outside, taken := s.taken ++ [c] }

def step (s : KbdRun) : KbdOp → KbdRun
  | .push c => s.push c
  | .getchar tailFirst => s.getchar tailFirst

def boot : KbdRun := ⟨.boot, .outside, [], [], 0, []⟩

end KbdRun

def keyEsc : BitVec 8 := 0x01
def keyBackspace : BitVec 8 := 0x0E
def keyTab : BitVec 8 := 0x0F
def keyEnter : BitVec 8 := 0x1C
def keyLctrl : BitVec 8 := 0x1D
def keyLshift : BitVec 8 := 0x2A
def keyRshift : BitVec 8 := 0x36
def keyCapslock : BitVec 8 := 0x3A

def charEsc : BitVec 8 := 0x1B
def charBackspace : BitVec 8 := 0x08

/-- `scancode_lower`.  A quote, a backquote and a backslash are written by their codes. -/
def scancodeLower : List (BitVec 8) :=
  [0, 0] ++ ['1', '2', '3', '4', '5', '6', '7', '8', '9', '0', '-', '='].map ascii ++
    [charBackspace] ++
    ['\t', 'q', 'w', 'e', 'r', 't', 'y', 'u', 'i', 'o', 'p', '[', ']', '\n'].map ascii ++
    [0] ++ ['a', 's', 'd', 'f', 'g', 'h', 'j', 'k', 'l', ';'].map ascii ++ [0x27, 0x60] ++
    [0, 0x5C] ++ ['z', 'x', 'c', 'v', 'b', 'n', 'm', ',', '.', '/'].map ascii ++
    [0, ascii '*', 0, ascii ' ']

/-- `scancode_upper`.  The double quote and the braces are written by their codes. -/
def scancodeUpper : List (BitVec 8) :=
  [0, 0] ++ ['!', '@', '#', '$', '%', '^', '&', '*', '(', ')', '_', '+'].map ascii ++
    [charBackspace] ++
    ['\t', 'Q', 'W', 'E', 'R', 'T', 'Y', 'U', 'I', 'O', 'P'].map ascii ++ [0x7B, 0x7D] ++
    [ascii '\n', 0] ++ ['A', 'S', 'D', 'F', 'G', 'H', 'J', 'K', 'L', ':'].map ascii ++
    [0x22, ascii '~', 0] ++ ['|', 'Z', 'X', 'C', 'V', 'B', 'N', 'M', '<', '>', '?'].map ascii ++
    [0, ascii '*', 0, ascii ' ']

/-- `shift_pressed`, `ctrl_pressed`, `capslock_on` and `extended_key`. -/
structure KbdKeys where
  shiftPressed : Bool
  ctrlPressed : Bool
  capslockOn : Bool
  extendedKey : Bool
deriving DecidableEq, Repr

/-- `translate_scancode`. -/
def translateScancode (k : KbdKeys) (scancode : BitVec 8) : BitVec 8 :=
  if scancodeLower.length ≤ scancode.toNat then 0
  else
    let baseChar := scancodeLower.getD scancode.toNat 0
    let isLetter := ascii 'a' ≤ baseChar ∧ baseChar ≤ ascii 'z'
    let useUpper := if k.capslockOn ∧ isLetter then !k.shiftPressed else k.shiftPressed
    if useUpper then scancodeUpper.getD scancode.toNat 0 else baseChar

/-- The escape sequences of the arrows, Home, End and Delete. -/
def ansiSeq (scancode : BitVec 8) : Option (List (BitVec 8)) :=
  if scancode = 0x48 then some [charEsc, ascii '[', ascii 'A']
  else if scancode = 0x50 then some [charEsc, ascii '[', ascii 'B']
  else if scancode = 0x4D then some [charEsc, ascii '[', ascii 'C']
  else if scancode = 0x4B then some [charEsc, ascii '[', ascii 'D']
  else if scancode = 0x47 then some [charEsc, ascii '[', ascii 'H']
  else if scancode = 0x4F then some [charEsc, ascii '[', ascii 'F']
  else if scancode = 0x53 then some [charEsc, ascii '[', ascii '3', ascii '~']
  else none

/-- A key that is held with Ctrl. -/
def ctrlChars (c : BitVec 8) : List (BitVec 8) :=
  if ascii 'a' ≤ c ∧ c ≤ ascii 'z' then [c - ascii 'a' + 1]
  else if ascii 'A' ≤ c ∧ c ≤ ascii 'Z' then [c - ascii 'A' + 1]
  else []

/-- `keyboard_handler`: the characters it pushes, in their order. -/
def keyboardHandler (k : KbdKeys) (scancode : BitVec 8) : KbdKeys × List (BitVec 8) :=
  if scancode = 0xE0 then ({ k with extendedKey := true }, [])
  else if k.extendedKey then
    let k := { k with extendedKey := false }
    -- the release of an extended key
    if scancode &&& 0x80 ≠ 0 then (k, [])
    else (k, (ansiSeq scancode).getD [])
  else if scancode &&& 0x80 ≠ 0 then
    let released := scancode &&& 0x7F
    if released = keyLshift ∨ released = keyRshift then ({ k with shiftPressed := false }, [])
    else if released = keyLctrl then ({ k with ctrlPressed := false }, [])
    else (k, [])
  else if scancode = keyLshift ∨ scancode = keyRshift then ({ k with shiftPressed := true }, [])
  else if scancode = keyLctrl then ({ k with ctrlPressed := true }, [])
  else if scancode = keyCapslock then ({ k with capslockOn := !k.capslockOn }, [])
  else if scancode = keyEsc then (k, [charEsc])
  else if scancode = keyBackspace then (k, [charBackspace])
  else if scancode = keyEnter then (k, [ascii '\n'])
  else if scancode = keyTab then (k, [ascii '\t'])
  else
    let c := translateScancode k scancode
    if c = 0 then (k, [])
    else if k.ctrlPressed then (k, ctrlChars c)
    else (k, [c])

end EnclaveOS
