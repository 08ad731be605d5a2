import EnclaveOS.User.Readline

/-!
# LineKeys - the keys of readline

What `readline` is for: bytes are decoded into keys, and a key edits a line with a cursor or
recalls a line of the history.  The edits in place, with their terminator, do exactly this.
-/

namespace EnclaveOS

open ByteMemory LineEditor

/-- What a byte asks for. -/
inductive Key
  | char (c : BitVec 8)
  | backspace
  | delete
  | left
  | right
  | home
  | toEnd
  | cutAfter
  | cutBefore
  | up
  | down
  | enter
  | interrupt
  | deleteOrLeave
  | nothing
  deriving DecidableEq

/-- What is known of an escape sequence. -/
structure Decoder where
  state : ReadState
  csiBuf : List (BitVec 8)

namespace Decoder

def csiKey (csiBuf : List (BitVec 8)) (c : BitVec 8) : Key :=
  if c = ascii 'A' ∧ csiBuf = [] then .up
  else if c = ascii 'B' ∧ csiBuf = [] then .down
  else if c = ascii 'C' ∧ csiBuf = [] then .right
  else if c = ascii 'D' ∧ csiBuf = [] then .left
  else if c = ascii 'H' ∧ csiBuf = [] then .home
  else if c = ascii 'F' ∧ csiBuf = [] then .toEnd
  else if c = ascii '~' ∧ csiBuf = [ascii '3'] then .delete
  else .nothing

def controlKey (c : BitVec 8) : Key :=
  if c = 1 then .home
  else if c = 3 then .interrupt
  else if c = 4 then .deleteOrLeave
  else if c = 5 then .toEnd
  else if c = 11 then .cutAfter
  else if c = 21 then .cutBefore
  else .nothing

def plainKey (c : BitVec 8) : Key :=
  if c = 0x1B then .nothing
  else if c = 10 ∨ c = 13 then .enter
  else if c = 8 ∨ c = 127 then .backspace
  else if c < 32 then controlKey c
  else if c < 127 then .char c
  else .nothing

/-- The key of a byte. -/
def key (d : Decoder) (c : BitVec 8) : Key :=
  match d.state with
  | .esc => if c = ascii '[' then .nothing else plainKey c
  | .csi =>
    if isCsiParameter c then .nothing
    else if 0x40 ≤ c ∧ c ≤ 0x7E then csiKey d.csiBuf c
    else .nothing
  | .normal => plainKey c

def plainNext (csiBuf : List (BitVec 8)) (c : BitVec 8) : Decoder :=
  ⟨if c = 0x1B then .esc else .normal, csiBuf⟩

/-- A sequence begins, goes on or ends. -/
def next (d : Decoder) (c : BitVec 8) : Decoder :=
  match d.state with
  | .esc => if c = ascii '[' then ⟨.csi, []⟩ else plainNext d.csiBuf c
  | .csi =>
    if isCsiParameter c then ⟨.csi, if d.csiBuf.length < 31 then d.csiBuf ++ [c] else d.csiBuf⟩
    else ⟨.normal, d.csiBuf⟩
  | .normal => plainNext d.csiBuf c

end Decoder

/-- A key that edits the line. -/
def pressLine (maxSize : Nat) (line : Line (BitVec 8)) : Key → Line (BitVec 8)
  | .char c => line.insert (maxSize - 1) c
  | .backspace => line.backspace
  | .delete => line.delete
  | .left => line.left
  | .right => line.right
  | .home => line.home
  | .toEnd => line.toEnd
  | .cutAfter => line.cutAfter
  | .cutBefore => line.cutBefore
  | _ => line

/-- A line, and the lines that can be recalled: `view` is the one that is shown, or behind the
last one if none is; `saved` was left for the first of them. -/
structure Editor where
  line : Line (BitVec 8)
  entries : List (List (BitVec 8))
  view : Nat
  saved : List (BitVec 8)

/-- The call goes on, or returns. -/
inductive Pressed
  | editing (e : Editor)
  | ended (value : Int) (e : Editor)

namespace Editor

/-- The start of a call. -/
def start (history : ShellHistory) : Editor where
  line := .empty
  entries := history.lines
  view := history.view
  saved := history.scratch

/-- The entry before. -/
def up (e : Editor) : Editor :=
  if 0 < e.view then
    { e with
      line := .atEnd (e.entries.getD (e.view - 1) [])
      view := e.view - 1
      saved := if e.view = e.entries.length then e.line.text else e.saved }
  else e

/-- The entry behind, and the saved line behind the last one. -/
def down (e : Editor) : Editor :=
  if e.view < e.entries.length then
    { e with
      line := .atEnd (if e.view + 1 = e.entries.length then e.saved
        else e.entries.getD (e.view + 1) [])
      view := e.view + 1 }
  else e

def edit (e : Editor) (line : Line (BitVec 8)) : Editor := { e with line := line }

/-- A key. -/
def press (maxSize : Nat) (e : Editor) : Key → Pressed
  | .up => .editing e.up
  | .down => .editing e.down
  | .enter => .ended 0 e
  | .interrupt => .ended 0 { e with line := .empty, view := e.entries.length }
  | .deleteOrLeave =>
    if e.line.text = [] then .ended (-1) e else .editing (e.edit e.line.delete)
  | key => .editing (e.edit (pressLine maxSize e.line key))

/-- The keys of a stream of bytes, up to the end of the call. -/
def pressKeys (maxSize : Nat) (d : Decoder) (e : Editor) : List (Option (BitVec 8)) → Pressed
  | [] => .editing e
  | none :: reads => pressKeys maxSize d e reads
  | some c :: reads =>
    match e.press maxSize (d.key c) with
    | .ended value e => .ended value e
    | .editing e => pressKeys maxSize (d.next c) e reads

end Editor

/-- The variables of a call that describe the line: the cursor is in it, it leaves room for the
terminator, and its terminator is the first one of the buffer. -/
structure LineOk (maxSize : Nat) (buffer : Bytes) (pos bufLen : Nat) : Prop where
  pos_le : pos ≤ bufLen
  room : bufLen ≤ maxSize - 1
  nul : buffer bufLen = 0
  first : ∀ k < bufLen, buffer k ≠ 0

/-- A string that a buffer of `maxSize` bytes holds. -/
def Fits (maxSize : Nat) (text : List (BitVec 8)) : Prop := 0 ∉ text ∧ text.length < maxSize

/-- The entries are strings that the buffer holds, and so is the saved line as long as Down can
bring it back. -/
structure HistoryOk (maxSize : Nat) (h : ShellHistory) : Prop where
  fits : ∀ text ∈ h.lines, Fits maxSize text
  view_le : h.view ≤ h.lines.length
  saved : h.view < h.lines.length → Fits maxSize h.scratch ∧ h.scratchLen = h.scratch.length

/-- The text in front of the terminator. -/
def Readline.text (r : Readline) : List (BitVec 8) := (List.range r.bufLen).map r.buffer

def Readline.decoder (r : Readline) : Decoder := ⟨r.state, r.csiBuf⟩

/-- The variables of a call hold a line and what can be recalled. -/
structure Shows (maxSize : Nat) (r : Readline) (e : Editor) : Prop where
  ok : LineOk maxSize r.buffer r.pos r.bufLen
  text : r.text = e.line.text
  cursor : r.pos = e.line.cursor
  history : HistoryOk maxSize r.history
  entries : r.history.lines = e.entries
  view : r.history.view = e.view
  saved : e.view < e.entries.length → r.history.scratch = e.saved

/-- A call that goes on shows what is edited; one that returns leaves what was edited. -/
inductive Agrees (maxSize : Nat) (d : Decoder) : ReadResult → Pressed → Prop
  | editing {r : Readline} {e : Editor} (hshows : Shows maxSize r e) (hdecoder : r.decoder = d) :
    Agrees maxSize d (.reading r) (.editing e)
  | ended {r : Readline} {e : Editor} (value : Int) (hshows : Shows maxSize r e) :
    Agrees maxSize d (.returned value r) (.ended value e)

section Stored

variable {maxSize : Nat} {buffer : Bytes} {text : List (BitVec 8)}

theorem lineLength_eq (h : Stored buffer 0 text) (hfits : Fits maxSize text) :
    lineLength maxSize buffer = some text.length := by
  refine List.find?_range_eq_some.mpr ⟨?_, List.mem_range.mpr hfits.2, ?_⟩
  · simpa using h.stop_at
  · intro k hk
    have hmem : text[k] ∈ text := List.getElem_mem hk
    have hbyte : buffer k = text[k] := by simp [h k hk.le, hk]
    have hne : buffer k ≠ 0 := by
      intro hzero
      rw [hbyte] at hzero
      exact hfits.1 (hzero ▸ hmem)
    simpa using hne

theorem lineString_eq (h : Stored buffer 0 text) (hfits : Fits maxSize text) :
    lineString maxSize buffer = some text := by
  rw [lineString, lineLength_eq h hfits, Option.map_some, h.range_map]

theorem copyLine_eq (buffer : Bytes) (hfits : Fits maxSize text) :
    ∃ buffer', copyLine maxSize buffer text = some buffer' ∧ Stored buffer' 0 text := by
  refine ⟨_, if_pos hfits.2, fun k hk => ?_⟩
  have hbyte := bytesAt_storeBytes buffer 0 (text ++ [0]) k (by simpa using Nat.lt_succ_of_le hk)
  rw [Nat.zero_add] at hbyte
  rw [hbyte, List.getElem_append]
  split_ifs with hlt
  · simp [hlt]
  · simp [show k = text.length by omega]

end Stored

section InPlace

variable {maxSize : Nat} {r : Readline} {e : Editor}

theorem Shows.stored (h : Shows maxSize r e) : Stored r.buffer 0 e.line.text := by
  rw [← h.text]
  exact stored_range_map h.ok.nul

theorem Shows.bufLen_eq (h : Shows maxSize r e) : r.bufLen = e.line.text.length := by
  rw [← h.text, Readline.text, List.length_map, List.length_range]

theorem Shows.fits (h : Shows maxSize r e) (hmax : 2 ≤ maxSize) : Fits maxSize e.line.text := by
  constructor
  · rw [← h.text, Readline.text, List.mem_map]
    rintro ⟨k, hk, hzero⟩
    exact h.ok.first k (List.mem_range.mp hk) hzero
  · have hroom := h.ok.room
    rw [h.bufLen_eq] at hroom
    omega

theorem lineOk_stored (line : Line (BitVec 8)) {buffer : Bytes}
    (hstored : Stored buffer 0 line.text) (hfits : Fits maxSize line.text) :
    LineOk maxSize buffer line.cursor line.text.length where
  pos_le := line.inside
  room := Nat.le_sub_one_of_lt hfits.2
  nul := hstored.stop_at
  first := by
    intro k hk hzero
    rw [hstored k hk.le, List.getElem?_eq_getElem hk, Option.getD_some] at hzero
    exact hfits.1 (hzero ▸ List.getElem_mem hk)

/-- A line that was changed. -/
theorem Shows.edit (h : Shows maxSize r e) {line : Line (BitVec 8)} {buffer : Bytes}
    {pos bufLen : Nat} (hstored : Stored buffer 0 line.text) (hfits : Fits maxSize line.text)
    (hpos : pos = line.cursor) (hlen : bufLen = line.text.length) :
    Shows maxSize { r with buffer := buffer, pos := pos, bufLen := bufLen } (e.edit line) := by
  subst hpos hlen
  exact ⟨lineOk_stored line hstored hfits, hstored.range_map, rfl, h.history, h.entries, h.view,
    h.saved⟩

/-- An operation leaves the variables of a call with what is edited. -/
def Leaves (maxSize : Nat) (r : Readline) (result : Option Readline) (e : Editor) : Prop :=
  ∃ r', result = some r' ∧ Shows maxSize r' e ∧ r'.decoder = r.decoder

theorem moveBytes_eq (buffer : Bytes) {dest src n : Nat} (hdest : dest + n ≤ maxSize)
    (hsrc : src + n ≤ maxSize) :
    moveBytes maxSize buffer dest src n = some (memmove buffer dest src n) :=
  if_pos ⟨hdest, hsrc⟩

theorem putByte_eq (buffer : Bytes) {i : Nat} (c : BitVec 8) (hi : i < maxSize) :
    putByte maxSize buffer i c = some (Function.update buffer i c) :=
  if_pos hi

theorem insertChar_leaves (h : Shows maxSize r e) (hmax : 2 ≤ maxSize) {c : BitVec 8}
    (hc : c ≠ 0) :
    Leaves maxSize r (insertChar maxSize r c) (e.edit (e.line.insert (maxSize - 1) c)) := by
  have hfits := h.fits hmax
  have hlen := h.bufLen_eq
  have hpos := h.cursor
  have hinside := e.line.inside
  unfold insertChar Line.insert
  rw [hlen]
  by_cases hroom : e.line.text.length < maxSize - 1
  · rw [if_pos hroom, if_pos hroom, moveBytes_eq _ (by omega) (by omega)]
    simp only [Option.bind_eq_bind, Option.bind_some]
    rw [putByte_eq _ _ (by omega)]
    refine ⟨_, rfl, h.edit ?_ ⟨?_, ?_⟩ (by simp [hpos]) (by simp; omega), rfl⟩
    · apply h.stored.insert hinside
      · intro k hk
        rw [Function.update_of_ne (by omega), memmove_apply, if_neg (by omega)]
      · rw [hpos, Function.update_self]
      · intro k hk hkl
        rw [Function.update_of_ne (by omega), memmove_apply, if_pos (by omega)]
        congr 1
        omega
    · intro hmem
      cases List.mem_append.mp hmem with
      | inl hbefore => exact hfits.1 (List.mem_of_mem_take hbefore)
      | inr hbehind =>
        cases List.mem_cons.mp hbehind with
        | inl hzero => exact hc hzero.symm
        | inr hbehind => exact hfits.1 (List.mem_of_mem_drop hbehind)
    · simp only [List.length_append, List.length_take, List.length_cons, List.length_drop]
      omega
  · rw [if_neg hroom, if_neg hroom]
    exact ⟨r, rfl, h, rfl⟩

/-- The character at `pos` goes, and the others move down with the terminator. -/
theorem Shows.removed (h : Shows maxSize r e) (hmax : 2 ≤ maxSize) {pos : Nat} {buffer : Bytes}
    (hpos : pos < e.line.text.length) (hbefore : ∀ k < pos, buffer k = r.buffer k)
    (hbehind : ∀ k, pos ≤ k → k < e.line.text.length → buffer k = r.buffer (k + 1))
    {line : Line (BitVec 8)} (hline : ⟨e.line.text, pos, hpos.le⟩ = line) :
    Shows maxSize { r with buffer := buffer, pos := pos, bufLen := r.bufLen - 1 }
      (e.edit line.delete) := by
  have hfits := h.fits hmax
  subst hline
  rw [Line.delete, dif_pos hpos]
  refine h.edit (h.stored.remove hpos hbefore hbehind) ⟨?_, ?_⟩ rfl ?_
  · intro hmem
    cases List.mem_append.mp hmem with
    | inl hbefore => exact hfits.1 (List.mem_of_mem_take hbefore)
    | inr hbehind => exact hfits.1 (List.mem_of_mem_drop hbehind)
  · have hshort := hfits.2
    simp only [List.length_append, List.length_take, List.length_drop]
    omega
  · rw [h.bufLen_eq]
    simp only [List.length_append, List.length_take, List.length_drop]
    omega

theorem deleteChar_leaves (h : Shows maxSize r e) (hmax : 2 ≤ maxSize) :
    Leaves maxSize r (deleteChar maxSize r) (e.edit e.line.delete) := by
  have hfits := (h.fits hmax).2
  have hlen := h.bufLen_eq
  have hpos := h.cursor
  unfold deleteChar
  by_cases hat : r.pos < r.bufLen
  · rw [if_pos hat, moveBytes_eq _ (by omega) (by omega)]
    simp only [Option.bind_eq_bind, Option.bind_some]
    rw [putByte_eq _ _ (by omega)]
    refine ⟨_, rfl, h.removed hmax (by omega) ?_ ?_ (by simp only [hpos]), rfl⟩
    · intro k hk
      rw [Function.update_of_ne (by omega), memmove_apply, if_neg (by omega)]
    · intro k hk hkl
      by_cases hlast : k = r.bufLen - 1
      · have hstop : k + 1 = r.bufLen := by omega
        rw [hlast, Function.update_self, ← hlast, hstop, h.ok.nul]
      · rw [Function.update_of_ne hlast, memmove_apply, if_pos (by omega)]
        congr 1
        omega
  · rw [if_neg hat, Line.delete, dif_neg (by omega)]
    exact ⟨r, rfl, h, rfl⟩

theorem eraseChar_leaves (h : Shows maxSize r e) (hmax : 2 ≤ maxSize) :
    Leaves maxSize r (eraseChar maxSize r) (e.edit e.line.backspace) := by
  have hfits := (h.fits hmax).2
  have hlen := h.bufLen_eq
  have hpos := h.cursor
  have hinside := e.line.inside
  unfold eraseChar Line.backspace
  rw [hpos]
  by_cases hat : 0 < e.line.cursor
  · rw [if_pos hat, if_pos hat, moveBytes_eq _ (by omega) (by omega)]
    refine ⟨_, rfl, h.removed hmax (by omega) ?_ ?_ rfl, rfl⟩
    · intro k hk
      rw [memmove_apply, if_neg (by omega)]
    · intro k hk hkl
      rw [memmove_apply, if_pos (by omega)]
      congr 1
      omega
  · rw [if_neg hat, if_neg hat]
    exact ⟨r, rfl, h, rfl⟩

theorem killAfter_leaves (h : Shows maxSize r e) (hmax : 2 ≤ maxSize) :
    Leaves maxSize r (killAfter maxSize r) (e.edit e.line.cutAfter) := by
  have hfits := h.fits hmax
  have hlen := h.bufLen_eq
  have hpos := h.cursor
  have hinside := e.line.inside
  have htake : (e.line.text.take e.line.cursor).length = e.line.cursor := by
    rw [List.length_take, Nat.min_eq_left hinside]
  have hshort : Fits maxSize (e.line.text.take e.line.cursor) :=
    ⟨fun hmem => hfits.1 (List.mem_of_mem_take hmem), by have := hfits.2; omega⟩
  unfold killAfter
  by_cases hat : r.pos < r.bufLen
  · have hroom := hfits.2
    rw [if_pos hat, putByte_eq _ _ (by omega)]
    refine ⟨_, rfl, h.edit (h.stored.take hinside ?_ ?_) hshort ?_ ?_, rfl⟩
    · intro k hk
      rw [Function.update_of_ne (by omega)]
    · rw [← hpos, Function.update_self]
    · exact hpos.trans htake.symm
    · exact hpos.trans htake.symm
  · have hend : e.line.cutAfter = e.line := by
      have hcursor : e.line.cursor = e.line.text.length := by omega
      apply Line.ext
      · simp [Line.cutAfter, Line.atEnd, hcursor]
      · exact htake
    rw [if_neg hat, hend]
    exact ⟨r, rfl, h, rfl⟩

theorem killBefore_leaves (h : Shows maxSize r e) (hmax : 2 ≤ maxSize) :
    Leaves maxSize r (killBefore maxSize r) (e.edit e.line.cutBefore) := by
  have hfits := h.fits hmax
  have hlen := h.bufLen_eq
  have hpos := h.cursor
  have hinside := e.line.inside
  unfold killBefore
  rw [hpos]
  by_cases hat : 0 < e.line.cursor
  · have hroom := hfits.2
    rw [if_pos hat, moveBytes_eq _ (by omega) (by omega)]
    refine ⟨_, rfl, h.edit (h.stored.drop hinside ?_) ⟨?_, ?_⟩ rfl ?_, rfl⟩
    · intro k hk
      rw [memmove_apply, if_pos (by omega)]
      congr 1
      omega
    · exact fun hmem => hfits.1 (List.mem_of_mem_drop hmem)
    · rw [Line.cutBefore, List.length_drop]
      omega
    · rw [Line.cutBefore, List.length_drop, hlen]
  · have hstart : e.line.cutBefore = e.line := by
      have hcursor : e.line.cursor = 0 := by omega
      apply Line.ext
      · simp [Line.cutBefore, hcursor]
      · exact hcursor.symm
    rw [if_neg hat, hstart]
    exact ⟨r, rfl, h, rfl⟩

/-- A cursor that moves. -/
theorem Shows.moved (h : Shows maxSize r e) (hmax : 2 ≤ maxSize) {pos : Nat}
    {line : Line (BitVec 8)} (htext : line.text = e.line.text) (hpos : pos = line.cursor) :
    Shows maxSize { r with pos := pos } (e.edit line) := by
  apply h.edit
  · rw [htext]
    exact h.stored
  · rw [htext]
    exact h.fits hmax
  · exact hpos
  · rw [htext]
    exact h.bufLen_eq

theorem moveLeft_leaves (h : Shows maxSize r e) (hmax : 2 ≤ maxSize) :
    Leaves maxSize r (some (moveLeft r)) (e.edit e.line.left) := by
  have hpos := h.cursor
  refine ⟨_, rfl, ?_⟩
  unfold moveLeft
  split_ifs with hat
  · exact ⟨h.moved hmax rfl (congrArg (· - 1) hpos), rfl⟩
  · exact ⟨h.moved hmax rfl (by simp only [Line.left]; omega), rfl⟩

theorem moveRight_leaves (h : Shows maxSize r e) (hmax : 2 ≤ maxSize) :
    Leaves maxSize r (some (moveRight r)) (e.edit e.line.right) := by
  have hpos := h.cursor
  have hlen := h.bufLen_eq
  have hinside := e.line.inside
  refine ⟨_, rfl, ?_⟩
  unfold moveRight
  split_ifs with hat
  · exact ⟨h.moved hmax rfl (by simp only [Line.right]; omega), rfl⟩
  · exact ⟨h.moved hmax rfl (by simp only [Line.right]; omega), rfl⟩

theorem moveHome_leaves (h : Shows maxSize r e) (hmax : 2 ≤ maxSize) :
    Leaves maxSize r (some (moveHome r)) (e.edit e.line.home) := by
  refine ⟨_, rfl, ?_⟩
  unfold moveHome
  split_ifs with hat
  · exact ⟨h.moved hmax rfl rfl, rfl⟩
  · exact ⟨h.moved hmax rfl (not_not.mp hat), rfl⟩

theorem moveEnd_leaves (h : Shows maxSize r e) (hmax : 2 ≤ maxSize) :
    Leaves maxSize r (some (moveEnd r)) (e.edit e.line.toEnd) := by
  refine ⟨_, rfl, ?_⟩
  unfold moveEnd
  split_ifs with hat
  · exact ⟨h.moved hmax rfl h.bufLen_eq, rfl⟩
  · exact ⟨h.moved hmax rfl ((not_not.mp hat).trans h.bufLen_eq), rfl⟩

end InPlace

section Recall

variable {maxSize : Nat} {r : Readline} {e : Editor}

/-- Another line is recalled. -/
theorem Shows.recall (h : Shows maxSize r e) {history : ShellHistory} {buffer : Bytes}
    {bufLen view : Nat} {text saved : List (BitVec 8)} (hstored : Stored buffer 0 text)
    (hfits : Fits maxSize text) (hlen : bufLen = text.length)
    (hlines : history.lines = r.history.lines) (hview : history.view = view)
    (hle : view ≤ r.history.lines.length)
    (hsaved : view < r.history.lines.length →
      history.scratch = saved ∧ Fits maxSize saved ∧ history.scratchLen = saved.length) :
    Shows maxSize { r with history := history, buffer := buffer, pos := bufLen, bufLen := bufLen }
      { e with line := .atEnd text, view := view, saved := saved } where
  ok := hlen ▸ lineOk_stored (.atEnd text) hstored hfits
  text := hlen ▸ hstored.range_map
  cursor := hlen
  history := {
    fits := hlines ▸ h.history.fits
    view_le := by rw [hlines, hview]; exact hle
    saved := fun hlt => by
      rw [hlines, hview] at hlt
      obtain ⟨hscratch, hfits, hlength⟩ := hsaved hlt
      exact ⟨hscratch ▸ hfits, hscratch ▸ hlength⟩ }
  entries := hlines.trans h.entries
  view := hview
  saved := fun hlt => (hsaved (h.entries ▸ hlt)).1

theorem showLine_eq (hfits : Fits maxSize (r.history.lines.getD r.history.view [])) :
    ∃ buffer, Stored buffer 0 (r.history.lines.getD r.history.view []) ∧
      showLine maxSize r = some { r with
        buffer := buffer
        bufLen := (r.history.lines.getD r.history.view []).length
        pos := (r.history.lines.getD r.history.view []).length } := by
  obtain ⟨buffer, hcopy, hstored⟩ := copyLine_eq r.buffer hfits
  refine ⟨buffer, hstored, ?_⟩
  rw [showLine, hcopy]
  simp only [Option.bind_eq_bind, Option.bind_some]
  rw [lineLength_eq hstored hfits]
  rfl

theorem HistoryOk.entry_fits {history : ShellHistory} (h : HistoryOk maxSize history) {i : Nat}
    (hi : i < history.lines.length) : Fits maxSize (history.lines.getD i []) := by
  rw [List.getD_eq_getElem?_getD, List.getElem?_eq_getElem hi, Option.getD_some]
  exact h.fits _ (List.getElem_mem hi)

/-- An entry is shown. -/
theorem Shows.showLine (h : Shows maxSize r e) {history : ShellHistory}
    {saved : List (BitVec 8)} (hlines : history.lines = r.history.lines)
    (hview : history.view < r.history.lines.length)
    (hsaved : history.scratch = saved ∧ Fits maxSize saved ∧ history.scratchLen = saved.length) :
    Leaves maxSize r (showLine maxSize { r with history := history })
      { e with
        line := .atEnd (e.entries.getD history.view [])
        view := history.view
        saved := saved } := by
  have hfits := h.history.entry_fits hview
  rw [← hlines] at hfits
  obtain ⟨buffer, hstored, hshow⟩ := showLine_eq (r := { r with history := history }) hfits
  refine ⟨_, hshow, ?_, rfl⟩
  have hentry : e.entries.getD history.view [] = history.lines.getD history.view [] := by
    rw [hlines, h.entries]
  rw [hentry]
  exact h.recall hstored hfits rfl hlines rfl hview.le fun _ => hsaved

/-- Up, if `scratch` holds the line that it saves. -/
theorem historyUp_leaves (h : Shows maxSize r e) (hmax : 2 ≤ maxSize)
    (hsave : e.view = e.entries.length → 0 < e.view → e.line.text.length < scratchSize) :
    Leaves maxSize r (historyUp maxSize r) e.up := by
  have hfits := h.fits hmax
  have hle := h.history.view_le
  have hview := h.view
  have hentries := congrArg List.length h.entries
  unfold historyUp Editor.up
  by_cases hat : 0 < e.view
  · rw [if_pos (hview ▸ hat), if_pos hat]
    by_cases hown : e.view = e.entries.length
    · have hroom := hsave hown hat
      rw [if_pos (by omega), if_pos hown, saveScratch, lineString_eq h.stored hfits]
      simp only [Option.bind_eq_bind, Option.bind_some]
      rw [if_pos hroom, Option.bind_some, ← hview]
      apply h.showLine
      · rfl
      · change r.history.view - 1 < _
        omega
      · exact ⟨rfl, hfits, h.bufLen_eq⟩
    · have hback : e.view < e.entries.length := by omega
      obtain ⟨hscratch, hlength⟩ := h.history.saved (by omega)
      rw [h.saved hback] at hscratch hlength
      rw [if_neg (by omega), if_neg hown, Option.bind_eq_bind, Option.bind_some, ← hview]
      apply h.showLine
      · rfl
      · change r.history.view - 1 < _
        omega
      · exact ⟨h.saved hback, hscratch, hlength⟩
  · rw [if_neg (hview ▸ hat), if_neg hat]
    exact ⟨r, rfl, h, rfl⟩

theorem historyDown_leaves (h : Shows maxSize r e) :
    Leaves maxSize r (historyDown maxSize r) e.down := by
  have hview := h.view
  have hentries := congrArg List.length h.entries
  unfold historyDown Editor.down
  by_cases hat : e.view < e.entries.length
  · obtain ⟨hscratch, hlength⟩ := h.history.saved (by omega)
    rw [h.saved hat] at hscratch hlength
    rw [if_pos (by omega), if_pos hat]
    by_cases hlast : e.view + 1 = e.entries.length
    · have hcount : r.history.view + 1 = r.history.lines.length := by omega
      obtain ⟨buffer, hcopy, hstored⟩ := copyLine_eq r.buffer hscratch
      simp only [hcount, if_true, hlast]
      rw [h.saved hat, hcopy]
      refine ⟨_, rfl, ?_, rfl⟩
      apply h.recall hstored hscratch hlength
      · rfl
      · exact hentries
      · exact hentries.ge
      · intro hlt
        omega
    · have hcount : r.history.view + 1 ≠ r.history.lines.length := by omega
      simp only [hcount, if_false, hlast]
      rw [← hview]
      apply h.showLine
      · rfl
      · change r.history.view + 1 < _
        omega
      · exact ⟨h.saved hat, hscratch, hlength⟩
  · rw [if_neg (by omega), if_neg hat]
    exact ⟨r, rfl, h, rfl⟩

/-- Ctrl-C. -/
theorem Shows.interrupt (h : Shows maxSize r e) (hmax : 2 ≤ maxSize) :
    Shows maxSize
      { r with
        buffer := Function.update r.buffer 0 0
        bufLen := 0
        pos := 0
        history := { r.history with view := r.history.lines.length } }
      { e with line := .empty, view := e.entries.length } := by
  have hstored : Stored (Function.update r.buffer 0 0) 0 (Line.empty : Line (BitVec 8)).text := by
    intro k hk
    rw [Nat.le_zero.mp hk, Function.update_self]
    rfl
  exact {
    ok := lineOk_stored .empty hstored ⟨List.not_mem_nil, (by omega : 0 < maxSize)⟩
    text := rfl
    cursor := rfl
    history := ⟨h.history.fits, le_rfl, fun hlt => absurd hlt (lt_irrefl _)⟩
    entries := h.entries
    view := congrArg List.length h.entries
    saved := fun hlt => absurd hlt (lt_irrefl _) }

end Recall

section Bytes

variable {maxSize : Nat} {r : Readline} {e : Editor}

/-- A byte was read, and its key was pressed. -/
def Lands (maxSize : Nat) (d : Decoder) (result : Option ReadResult) (p : Pressed) : Prop :=
  ∃ result', result = some result' ∧ Agrees maxSize d result' p

/-- `scratch` holds the line if this key saves it. -/
def SaveFits (e : Editor) (key : Key) : Prop :=
  key = .up → 0 < e.view → e.view = e.entries.length → e.line.text.length < scratchSize

theorem Shows.decode (h : Shows maxSize r e) (state : ReadState) (csiBuf : List (BitVec 8)) :
    Shows maxSize { r with state := state, csiBuf := csiBuf } e :=
  ⟨h.ok, h.text, h.cursor, h.history, h.entries, h.view, h.saved⟩

theorem Leaves.lands {result : Option Readline} (h : Leaves maxSize r result e) :
    Lands maxSize r.decoder (result.map .reading) (.editing e) := by
  obtain ⟨r', hr', hshows, hdecoder⟩ := h
  exact ⟨.reading r', by rw [hr', Option.map_some], .editing hshows hdecoder⟩

theorem Shows.lands (h : Shows maxSize r e) :
    Lands maxSize r.decoder (some (.reading r)) (.editing e) :=
  ⟨.reading r, rfl, .editing h rfl⟩

theorem csiByte_lands (h : Shows maxSize r e) (hmax : 2 ≤ maxSize) (c : BitVec 8)
    (hsave : SaveFits e (Decoder.csiKey r.csiBuf c)) :
    Lands maxSize r.decoder ((csiByte maxSize r c).map .reading)
      (e.press maxSize (Decoder.csiKey r.csiBuf c)) := by
  unfold csiByte Decoder.csiKey at *
  split_ifs at *
  · exact (historyUp_leaves h hmax fun hown hat => hsave rfl hat hown).lands
  · exact (historyDown_leaves h).lands
  · exact (moveRight_leaves h hmax).lands
  · exact (moveLeft_leaves h hmax).lands
  · exact (moveHome_leaves h hmax).lands
  · exact (moveEnd_leaves h hmax).lands
  · exact (deleteChar_leaves h hmax).lands
  · exact h.lands

theorem controlByte_lands (h : Shows maxSize r e) (hmax : 2 ≤ maxSize) (c : BitVec 8) :
    Lands maxSize r.decoder (controlByte maxSize r c)
      (e.press maxSize (Decoder.controlKey c)) := by
  unfold controlByte Decoder.controlKey
  split_ifs with hhome hinterrupt hdelete hempty
  · exact (moveHome_leaves h hmax).lands
  · rw [putByte_eq _ _ (by omega)]
    exact ⟨_, rfl, .ended 0 (h.interrupt hmax)⟩
  · have htext : e.line.text = [] := List.length_eq_zero_iff.mp (h.bufLen_eq.symm.trans hempty)
    rw [Editor.press, if_pos htext]
    exact ⟨_, rfl, .ended (-1) h⟩
  · have htext : e.line.text ≠ [] := by
      intro hnil
      rw [h.bufLen_eq, hnil] at hempty
      exact hempty rfl
    rw [Editor.press, if_neg htext]
    exact (deleteChar_leaves h hmax).lands
  · exact (moveEnd_leaves h hmax).lands
  · exact (killAfter_leaves h hmax).lands
  · exact (killBefore_leaves h hmax).lands
  · exact h.lands

theorem normalByte_lands (h : Shows maxSize r e) (hmax : 2 ≤ maxSize) (c : BitVec 8)
    (hstate : r.state = .normal) :
    Lands maxSize (Decoder.plainNext r.csiBuf c) (normalByte maxSize r c)
      (e.press maxSize (Decoder.plainKey c)) := by
  have hd : c ≠ 0x1B → Decoder.plainNext r.csiBuf c = r.decoder := by
    intro hc
    rw [Decoder.plainNext, if_neg hc, Readline.decoder, hstate]
  unfold normalByte Decoder.plainKey
  split_ifs with hesc henter herase hcontrol hprintable
  · exact ⟨_, rfl, .editing (h.decode .esc r.csiBuf) (by rw [Decoder.plainNext, if_pos hesc]; rfl)⟩
  · have hroom := h.ok.room
    have hsame : Function.update r.buffer r.bufLen 0 = r.buffer :=
      Function.update_eq_self_iff.mpr h.ok.nul.symm
    rw [putByte_eq _ _ (by omega), hsame]
    exact ⟨_, rfl, .ended 0 h⟩
  · rw [hd hesc]
    exact (eraseChar_leaves h hmax).lands
  · rw [hd hesc]
    exact controlByte_lands h hmax c
  · rw [hd hesc]
    refine (insertChar_leaves h hmax ?_).lands
    rintro rfl
    exact hcontrol (by decide)
  · rw [hd hesc]
    exact h.lands

/-- A byte does to the variables of a call what its key does to the line. -/
theorem readByte_press (h : Shows maxSize r e) (hmax : 2 ≤ maxSize) (c : BitVec 8)
    (hsave : SaveFits e (r.decoder.key c)) :
    Lands maxSize (r.decoder.next c) (readByte maxSize r c)
      (e.press maxSize (r.decoder.key c)) := by
  have hd : r.decoder = ⟨r.state, r.csiBuf⟩ := rfl
  cases hstate : r.state with
  | normal =>
    simp only [readByte, Decoder.next, Decoder.key, hd, hstate]
    exact normalByte_lands h hmax c hstate
  | esc =>
    simp only [readByte, Decoder.next, Decoder.key, hd, hstate]
    split_ifs with hbracket
    · exact (h.decode .csi []).lands
    · exact normalByte_lands (h.decode .normal r.csiBuf) hmax c rfl
  | csi =>
    simp only [Decoder.key, hd, hstate] at hsave
    simp only [readByte, Decoder.next, Decoder.key, hd, hstate]
    by_cases hparameter : isCsiParameter c
    · rw [if_pos hparameter, if_pos hparameter, if_pos hparameter]
      exact (h.decode .csi _).lands
    · rw [if_neg hparameter] at hsave
      rw [if_neg hparameter, if_neg hparameter, if_neg hparameter]
      split_ifs at hsave ⊢
      · exact csiByte_lands (h.decode .normal r.csiBuf) hmax c hsave
      · exact (h.decode .normal r.csiBuf).lands

theorem Shows.saveFits (h : Shows maxSize r e) (hmax : 2 ≤ maxSize)
    (hscratch : maxSize ≤ scratchSize) (key : Key) : SaveFits e key :=
  fun _ _ _ => (h.fits hmax).2.trans_le hscratch

theorem readBytes_press (h : Shows maxSize r e) (hmax : 2 ≤ maxSize)
    (hscratch : maxSize ≤ scratchSize) (reads : List (Option (BitVec 8))) :
    ∃ d, Lands maxSize d (readBytes maxSize r reads) (e.pressKeys maxSize r.decoder reads) := by
  induction reads generalizing r e with
  | nil => exact ⟨r.decoder, h.lands⟩
  | cons read reads ih =>
    cases read with
    | none => exact ih h
    | some c =>
      obtain ⟨result, hresult, hagrees⟩ :=
        readByte_press h hmax c (h.saveFits hmax hscratch _)
      rw [readBytes, hresult, Editor.pressKeys]
      generalize e.press maxSize (r.decoder.key c) = pressed at hagrees ⊢
      cases hagrees with
      | editing hshows hdecoder => exact hdecoder ▸ ih hshows
      | ended value hshows => exact ⟨r.decoder, _, rfl, .ended value hshows⟩

theorem Shows.start {history : ShellHistory} (hhistory : HistoryOk maxSize history)
    (buffer : Bytes) : Shows maxSize (.start history buffer) (.start history) where
  ok := ⟨le_rfl, Nat.zero_le _, Function.update_self 0 0 buffer,
    fun k hk => absurd hk (Nat.not_lt_zero k)⟩
  text := rfl
  cursor := rfl
  history := hhistory
  entries := rfl
  view := rfl
  saved := fun _ => rfl

/-- At every moment between two bytes, or at its end, a call of `readline` has edited its line
as a line with a cursor. -/
theorem readline_edits {maxSize : Nat} (hmax : 2 ≤ maxSize) (hscratch : maxSize ≤ cmdBufferSize)
    {history : ShellHistory} (hhistory : HistoryOk maxSize history) (buffer : Bytes)
    (reads : List (Option (BitVec 8))) :
    ∃ d, Lands maxSize d (readBytes maxSize (.start history buffer) reads)
      ((Editor.start history).pressKeys maxSize ⟨.normal, []⟩ reads) :=
  readBytes_press (Shows.start hhistory buffer) hmax hscratch reads

theorem readline_edits_recall :
    ∃ d, Lands 4 d
      (readBytes 4 (.start ⟨[[ascii 'a', ascii 'b']], 1, [], 0⟩ fun _ => 0xFF)
        [some (ascii 'c'), none, some 0x1B, some (ascii '['), some (ascii 'A'), some 8])
      ((Editor.start ⟨[[ascii 'a', ascii 'b']], 1, [], 0⟩).pressKeys 4 ⟨.normal, []⟩
        [some (ascii 'c'), none, some 0x1B, some (ascii '['), some (ascii 'A'), some 8]) := by
  refine readline_edits (by decide) (by decide) ⟨?_, le_rfl, fun hlt => absurd hlt (by decide)⟩ _ _
  intro text htext
  rw [List.mem_singleton.mp htext]
  exact ⟨by decide, by decide⟩

theorem plainKey_char {c : BitVec 8} (hlow : ¬ c < 32) (hhigh : c < 127) :
    Decoder.plainKey c = .char c := by
  have hne : ∀ d < (32 : BitVec 8), c ≠ d := by
    rintro d hd rfl
    exact hlow hd
  have hdel : c ≠ 127 := by
    rintro rfl
    exact absurd hhigh (by decide)
  rw [Decoder.plainKey, if_neg (hne _ (by decide)), if_neg, if_neg, if_neg hlow, if_pos hhigh]
  · exact not_or.mpr ⟨hne _ (by decide), hdel⟩
  · exact not_or.mpr ⟨hne _ (by decide), hne _ (by decide)⟩

theorem Line.insert_atEnd {limit : Nat} {text : List (BitVec 8)} (c : BitVec 8)
    (hroom : text.length < limit) :
    (Line.atEnd text).insert limit c = .atEnd (text ++ [c]) := by
  apply Line.ext
  · simp [Line.insert, Line.atEnd, hroom]
  · simp [Line.insert, Line.atEnd, hroom]

/-- Characters that are typed one after the other. -/
theorem readBytes_chars (reads : List (Option (BitVec 8))) {typed text : List (BitVec 8)}
    (hmax : 2 ≤ maxSize) (hdecoder : r.decoder = ⟨.normal, []⟩)
    (h : Shows maxSize r (e.edit (.atEnd typed))) (hchars : ∀ c ∈ text, ¬ c < 32 ∧ c < 127)
    (hroom : typed.length + text.length ≤ maxSize - 1) :
    ∃ r', readBytes maxSize r (text.map some ++ reads) = readBytes maxSize r' reads ∧
      r'.decoder = ⟨.normal, []⟩ ∧ Shows maxSize r' (e.edit (.atEnd (typed ++ text))) := by
  induction text generalizing r typed with
  | nil =>
    refine ⟨r, rfl, hdecoder, ?_⟩
    rw [List.append_nil]
    exact h
  | cons c text ih =>
    obtain ⟨⟨hlow, hhigh⟩, hchars⟩ := List.forall_mem_cons.mp hchars
    rw [List.length_cons] at hroom
    have hkey : r.decoder.key c = .char c := by
      rw [hdecoder]
      exact plainKey_char hlow hhigh
    have hnext : r.decoder.next c = ⟨.normal, []⟩ := by
      have hesc : c ≠ 0x1B := by
        rintro rfl
        exact hlow (by decide)
      rw [hdecoder]
      exact congrArg (fun state => (⟨state, []⟩ : Decoder)) (if_neg hesc)
    have hbyte := readByte_press h hmax c (by rw [hkey]; intro hup; cases hup)
    rw [hkey, hnext] at hbyte
    obtain ⟨result, hresult, hagrees⟩ := hbyte
    cases hagrees with
    | editing hshows hdecoder' =>
      have hline : pressLine maxSize (e.edit (.atEnd typed)).line (.char c) =
          .atEnd (typed ++ [c]) := Line.insert_atEnd c (by omega)
      rw [hline] at hshows
      rw [List.map_cons, List.cons_append, readBytes, hresult]
      have hrest := ih hdecoder' hshows hchars (by
        rw [List.length_append, List.length_singleton]
        omega)
      rwa [List.append_assoc, List.singleton_append] at hrest

/-- Up on a line that is longer than `scratch`. -/
theorem readline_overflows {history : ShellHistory} {text : List (BitVec 8)}
    (hhistory : HistoryOk maxSize history) (hlines : history.lines ≠ [])
    (hview : history.view = history.lines.length) (buffer : Bytes)
    (hchars : ∀ c ∈ text, ¬ c < 32 ∧ c < 127) (hlong : scratchSize ≤ text.length)
    (hfits : text.length ≤ maxSize - 1) :
    readBytes maxSize (.start history buffer)
      (text.map some ++ [some 0x1B, some (ascii '['), some (ascii 'A')]) = none := by
  have hsize : scratchSize = 256 := rfl
  have hmax : 2 ≤ maxSize := by omega
  have hstart : Shows maxSize (.start history buffer) ((Editor.start history).edit (.atEnd [])) :=
    Shows.start hhistory buffer
  obtain ⟨r, hread, hdecoder, hshows⟩ := readBytes_chars
    [some 0x1B, some (ascii '['), some (ascii 'A')] hmax rfl hstart hchars (by simpa using hfits)
  rw [hread]
  have hstate : r.state = .normal := congrArg Decoder.state hdecoder
  have hcount : r.history.view = r.history.lines.length := by
    rw [hshows.view, hshows.entries]
    exact hview
  have hpos : 0 < r.history.view := by
    rw [hcount, hshows.entries]
    exact List.length_pos_of_ne_nil hlines
  have htext : lineString maxSize r.buffer = some text :=
    lineString_eq hshows.stored (hshows.fits hmax)
  have hup : historyUp maxSize { r with state := .normal, csiBuf := [] } = none := by
    unfold historyUp
    rw [if_pos hpos, if_pos hcount, saveScratch]
    change ((lineString maxSize r.buffer).bind _).bind _ = _
    rw [htext, Option.bind_some, if_neg (by omega)]
    rfl
  have hesc : readByte maxSize r 0x1B = some (.reading { r with state := .esc }) := by
    rw [readByte, hstate]
    rfl
  have hbracket : readByte maxSize { r with state := .esc } (ascii '[') =
      some (.reading { r with state := .csi, csiBuf := [] }) := rfl
  have hletter : readByte maxSize { r with state := .csi, csiBuf := [] } (ascii 'A') =
      (historyUp maxSize { r with state := .normal, csiBuf := [] }).map .reading := rfl
  simp only [readBytes, hesc, hbracket, hletter, hup, Option.map_none]

/-- A buffer of 257 bytes and a line of 256 characters; a buffer of two bytes, and two characters
that an earlier call saved. -/
theorem readline_overflows_small :
    (HistoryOk 257 ⟨[[ascii 'x']], 1, [], 0⟩ ∧
      readBytes 257 (.start ⟨[[ascii 'x']], 1, [], 0⟩ fun _ => 0)
        ((List.replicate 256 (ascii 'a')).map some ++
          [some 0x1B, some (ascii '['), some (ascii 'A')]) = none) ∧
    readBytes 2 (.start ⟨[[ascii 'x']], 0, [ascii 'a', ascii 'b'], 2⟩ fun _ => 0)
      [some 0x1B, some (ascii '['), some (ascii 'B')] = none := by
  have hhistory : HistoryOk 257 ⟨[[ascii 'x']], 1, [], 0⟩ := by
    refine ⟨?_, le_rfl, fun hlt => absurd hlt (by decide)⟩
    intro text htext
    rw [List.mem_singleton.mp htext]
    exact ⟨by decide, by decide⟩
  refine ⟨⟨hhistory, readline_overflows hhistory (by decide) rfl _ ?_ ?_ ?_⟩, rfl⟩
  · intro c hc
    rw [List.eq_of_mem_replicate hc]
    decide
  · rw [List.length_replicate]
    rfl
  · rw [List.length_replicate]

end Bytes

end EnclaveOS
