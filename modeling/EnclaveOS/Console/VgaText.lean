import Mathlib.Logic.Function.Iterate
import Mathlib.Tactic.Common

/-!
# VgaText - the text console in VGA memory

Without a framebuffer the kernel prints into the 80 × 50 cells of VGA text memory, and scrolls by
copying every row one up.  What is on the screen is a window on an endless roll of paper, which
is written at a single position and never copied.
-/

namespace EnclaveOS

/-- A character with its colour. -/
abbrev VgaCell := BitVec 16

/-- The state of `vga.c`, and the two cursor registers of the CRT controller.  `VGA_WIDTH` is 80
and `VGA_HEIGHT` is 50. -/
structure Vga where
  vgaBuffer : Nat → VgaCell
  currentColor : BitVec 8
  cursorX : Nat
  cursorY : Nat
  cursorHigh : BitVec 8
  cursorLow : BitVec 8

/-- A character in a colour. -/
def vgaCell (color c : BitVec 8) : VgaCell :=
  c.setWidth 16 ||| (color.setWidth 16 <<< 8)

/-- A space in a colour. -/
def vgaBlank (color : BitVec 8) : VgaCell := vgaCell color 0x20#8

namespace Vga

variable (v : Vga)

/-- A loop that stores one cell at every index. -/
def fill (indices : List Nat) (cell : VgaCell) : Vga :=
  { v with vgaBuffer := indices.foldl (fun buffer i => Function.update buffer i cell) v.vgaBuffer }

theorem fill_currentColor (indices : List Nat) (cell : VgaCell) :
    (v.fill indices cell).currentColor = v.currentColor := rfl

def vgaScroll : Vga :=
  let moved := { v with
    vgaBuffer := (List.range (49 * 80)).foldl
      (fun buffer i => Function.update buffer i (buffer (i + 80))) v.vgaBuffer }
  { moved.fill (List.range' (49 * 80) 80) (vgaBlank v.currentColor) with
    cursorY := 49 }

def vgaUpdateHwCursor : Vga :=
  let pos := BitVec.ofNat 16 (v.cursorY * 80 + v.cursorX)
  { v with cursorHigh := (pos >>> 8).setWidth 8, cursorLow := pos.setWidth 8 }

/-- A cell is stored under the cursor. -/
def store (cell : VgaCell) : Vga :=
  { v with vgaBuffer := Function.update v.vgaBuffer (v.cursorY * 80 + v.cursorX) cell }

/-- `cursor_x++`, and the wrap to the next row; both counters are bytes. -/
def advance : Vga :=
  if 80 ≤ (v.cursorX + 1) % 256 then { v with cursorX := 0, cursorY := (v.cursorY + 1) % 256 }
  else { v with cursorX := (v.cursorX + 1) % 256 }

def vgaPutc (c : BitVec 8) : Vga :=
  let put :=
    if c = 0x0A#8 then { v with cursorX := 0, cursorY := (v.cursorY + 1) % 256 }
    else if c = 0x0D#8 then { v with cursorX := 0 }
    else if c = 0x08#8 then
      if 0 < v.cursorX then
        { v with cursorX := v.cursorX - 1 }.store (vgaBlank v.currentColor)
      else v
    else if c = 0x09#8 then
      (fun v => (v.store (vgaBlank v.currentColor)).advance)^[4 - v.cursorX % 4] v
    else (v.store (vgaCell v.currentColor c)).advance
  (if 50 ≤ put.cursorY then put.vgaScroll else put).vgaUpdateHwCursor

def clear : Vga :=
  { v.fill (List.range (80 * 50)) (vgaBlank v.currentColor) with
    cursorX := 0, cursorY := 0 }.vgaUpdateHwCursor

def vgaSetColor (fg bg : BitVec 8) : Vga := { v with currentColor := fg ||| (bg <<< 4) }

/-- `vga_set_cursor`, which clamps its arguments. -/
def vgaSetCursor (row col : Int) : Vga :=
  let row := if row < 0 then 0 else row
  let row := if 50 ≤ row then 49 else row
  let col := if col < 0 then 0 else col
  let col := if 80 ≤ col then 79 else col
  { v with cursorY := row.toNat, cursorX := col.toNat }.vgaUpdateHwCursor

end Vga

/-- A call of the driver. -/
inductive VgaOp
  | vgaPutc (c : BitVec 8)
  | clear
  | vgaSetColor (fg bg : BitVec 8)
  | vgaSetCursor (row col : Int)

def VgaOp.run (v : Vga) : VgaOp → Vga
  | .vgaPutc c => v.vgaPutc c
  | .clear => v.clear
  | .vgaSetColor fg bg => v.vgaSetColor fg bg
  | .vgaSetCursor row col => v.vgaSetCursor row col

/-! ## The roll -/

/-- An endless roll of paper, 80 cells wide, and the first line that is still in view. -/
structure Roll where
  cells : Nat → VgaCell
  color : BitVec 8
  pos : Nat
  top : Nat

namespace Roll

variable (r : Roll)

/-- A cell is written at the position, which moves on. -/
def write (cell : VgaCell) : Roll :=
  { r with cells := Function.update r.cells r.pos cell, pos := r.pos + 1 }

/-- The paper moves on by a line when the position has left the view. -/
def reveal : Roll :=
  if 80 * (r.top + 50) ≤ r.pos then
    { r with
      cells := fun k => if k / 80 = r.top + 50 then vgaBlank r.color else r.cells k
      top := r.top + 1 }
  else r

def putc (c : BitVec 8) : Roll :=
  (if c = 0x0A#8 then { r with pos := (r.pos / 80 + 1) * 80 }
  else if c = 0x0D#8 then { r with pos := r.pos / 80 * 80 }
  else if c = 0x08#8 then
    if r.pos % 80 = 0 then r
    else
      { r with
        cells := Function.update r.cells (r.pos - 1) (vgaBlank r.color)
        pos := r.pos - 1 }
  else if c = 0x09#8 then (fun r => r.write (vgaBlank r.color))^[4 - r.pos % 4] r
  else r.write (vgaCell r.color c)).reveal

/-- A fresh roll. -/
def blank (color : BitVec 8) : Roll := ⟨fun _ => vgaBlank color, color, 0, 0⟩

end Roll

def VgaOp.write (r : Roll) : VgaOp → Roll
  | .vgaPutc c => r.putc c
  | .clear => .blank r.color
  | .vgaSetColor fg bg => { r with color := fg ||| (bg <<< 4) }
  | .vgaSetCursor row col =>
    { r with
      pos := (r.top + min row.toNat 49) * 80 + min col.toNat 79 }

/-! ## The screen is a window on the roll -/

/-- Between the two halves of a call: the view has not moved yet.  Memory behind the screen is
that of `memory`. -/
structure Drawn (memory : Nat → VgaCell) (v : Vga) (r : Roll) : Prop where
  color : v.currentColor = r.color
  column : v.cursorX < 80
  row : v.cursorY < 50 ∨ v.cursorY = 50 ∧ v.cursorX = 0
  pos : r.pos = (r.top + v.cursorY) * 80 + v.cursorX
  cells : ∀ k < 4000, v.vgaBuffer k = r.cells (r.top * 80 + k)
  beyond : ∀ k, 4000 ≤ k → v.vgaBuffer k = memory k

/-- Between two calls: the screen shows the roll from `top` on, the cursor is in view, and the
hardware cursor blinks there. -/
structure ShowsRoll (memory : Nat → VgaCell) (v : Vga) (r : Roll) : Prop extends
    Drawn memory v r where
  inView : v.cursorY < 50
  hardware : v.cursorHigh.toNat * 256 + v.cursorLow.toNat = v.cursorY * 80 + v.cursorX

section Window

variable {memory : Nat → VgaCell} {v : Vga} {r : Roll}

theorem foldl_fill (indices : List Nat) (buffer : Nat → VgaCell) (cell : VgaCell) (k : Nat) :
    indices.foldl (fun buffer i => Function.update buffer i cell) buffer k =
      if k ∈ indices then cell else buffer k := by
  induction indices generalizing buffer with
  | nil => simp
  | cons i rest ih =>
    rw [List.foldl_cons, ih]
    by_cases hk : k = i
    · simp [hk]
    · simp [hk]

theorem fill_vgaBuffer (indices : List Nat) (cell : VgaCell) (k : Nat) :
    (v.fill indices cell).vgaBuffer k = if k ∈ indices then cell else v.vgaBuffer k :=
  foldl_fill indices v.vgaBuffer cell k

/-- The loop that copies the rows up reads no cell that it has written. -/
theorem foldl_moved (buffer : Nat → VgaCell) (n k : Nat) :
    (List.range n).foldl (fun buffer i => Function.update buffer i (buffer (i + 80)))
      buffer k = if k < n then buffer (k + 80) else buffer k := by
  induction n generalizing k with
  | zero => simp
  | succ n ih =>
    rw [List.range_succ, List.foldl_append, List.foldl_cons, List.foldl_nil]
    by_cases hk : k = n
    · rw [hk, Function.update_self, ih, if_neg (by omega), if_pos (by omega)]
    · rw [Function.update_of_ne hk, ih]
      simp only [Nat.lt_succ_iff_lt_or_eq, hk, or_false]

theorem vgaUpdateHwCursor_hardware (hcol : v.cursorX < 80) (hrow : v.cursorY < 50) :
    v.vgaUpdateHwCursor.cursorHigh.toNat * 256 + v.vgaUpdateHwCursor.cursorLow.toNat =
      v.cursorY * 80 + v.cursorX := by
  simp only [Vga.vgaUpdateHwCursor, BitVec.toNat_setWidth, BitVec.toNat_ushiftRight,
    BitVec.toNat_ofNat, Nat.shiftRight_eq_div_pow]
  omega

/-- The next cell, in the row or at the start of the next row. -/
theorem advance_eq (hcol : v.cursorX < 80) (hrow : v.cursorY < 50) :
    v.advance = { v with
      cursorX := (v.cursorX + 1) % 80
      cursorY := v.cursorY + (v.cursorX + 1) / 80 } := by
  unfold Vga.advance
  split_ifs with hwrap
  · rw [show (v.cursorX + 1) % 80 = 0 by omega, show (v.cursorX + 1) / 80 = 1 by omega,
      Nat.mod_eq_of_lt (by omega)]
  · rw [Nat.mod_eq_of_lt (b := 80) (by omega), Nat.mod_eq_of_lt (by omega),
      show v.cursorY + (v.cursorX + 1) / 80 = v.cursorY by omega]

namespace Drawn

/-- A cell under the cursor is the cell at the position. -/
theorem write (h : Drawn memory v r) (hrow : v.cursorY < 50) (cell : VgaCell) :
    Drawn memory (v.store cell).advance (r.write cell) := by
  obtain ⟨hcolor, hcol, -, hpos, hcells, hbeyond⟩ := h
  rw [advance_eq (v := v.store cell) hcol hrow]
  unfold Vga.store Roll.write
  constructor
  · exact hcolor
  · exact Nat.mod_lt _ (by decide)
  · dsimp only
    omega
  · dsimp only
    omega
  · intro k hk
    dsimp only
    rw [hpos, Nat.add_mul, Nat.add_assoc, Function.update_apply, Function.update_apply,
      hcells k hk]
    simp only [Nat.add_right_inj]
  · intro k hk
    rw [← hbeyond k hk]
    apply Function.update_of_ne
    omega

/-- A tab stays in its row, since its stops divide the width. -/
theorem blanks (h : Drawn memory v r) (hrow : v.cursorY < 50) {n : Nat}
    (hn : v.cursorX + n ≤ 80) :
    Drawn memory ((fun v => (v.store (vgaBlank v.currentColor)).advance)^[n] v)
      ((fun r => r.write (vgaBlank r.color))^[n] r) := by
  induction n generalizing v r with
  | zero => exact h
  | succ n ih =>
    rw [Function.iterate_succ_apply, Function.iterate_succ_apply, h.color]
    have h' := h.write hrow (vgaBlank r.color)
    cases n with
    | zero => exact h'
    | succ n =>
      apply ih h'
      · rw [advance_eq (v := v.store _) h.column hrow]
        dsimp only [Vga.store]
        omega
      · rw [advance_eq (v := v.store _) h.column hrow]
        dsimp only [Vga.store]
        omega

/-- Scrolling moves the view by a line. -/
theorem reveal (h : Drawn memory v r) :
    Drawn memory (if 50 ≤ v.cursorY then v.vgaScroll else v) r.reveal ∧
      (if 50 ≤ v.cursorY then v.vgaScroll else v).cursorY < 50 := by
  obtain ⟨hcolor, hcol, hrow, hpos, hcells, hbeyond⟩ := h
  unfold Roll.reveal
  by_cases hin : v.cursorY < 50
  · rw [if_neg (Nat.not_le.mpr hin), if_neg (by omega)]
    exact ⟨⟨hcolor, hcol, hrow, hpos, hcells, hbeyond⟩, hin⟩
  · rw [if_pos (Nat.le_of_not_lt hin), if_pos (by omega)]
    have hlast : v.vgaScroll.cursorY < 50 := Nat.lt_succ_self 49
    refine ⟨⟨hcolor, hcol, Or.inl hlast, ?_, fun k hk => ?_, fun k hk => ?_⟩, hlast⟩
    · dsimp only [Vga.vgaScroll, Vga.fill]
      omega
    · dsimp only [Vga.vgaScroll, Vga.fill]
      rw [foldl_fill, foldl_moved, hcolor]
      by_cases hbottom : 49 * 80 ≤ k
      · rw [if_pos (List.mem_range'_1.mpr ⟨hbottom, by omega⟩), if_pos (by omega)]
      · rw [if_neg (fun hmem => hbottom (List.mem_range'_1.mp hmem).1),
          if_pos (Nat.lt_of_not_le hbottom), if_neg (by omega), hcells _ (by omega), Nat.add_mul,
          Nat.one_mul, Nat.add_right_comm, Nat.add_assoc]
    · dsimp only [Vga.vgaScroll, Vga.fill]
      rw [foldl_fill, foldl_moved, ← hbeyond k hk, if_neg, if_neg]
      · omega
      · rw [List.mem_range'_1]
        omega

end Drawn

namespace ShowsRoll

theorem of_drawn (h : Drawn memory v r) (hrow : v.cursorY < 50) :
    ShowsRoll memory v.vgaUpdateHwCursor r :=
  ⟨⟨h.color, h.column, h.row, h.pos, h.cells, h.beyond⟩, hrow,
    vgaUpdateHwCursor_hardware h.column hrow⟩

theorem putc (h : ShowsRoll memory v r) (c : BitVec 8) :
    ShowsRoll memory (v.vgaPutc c) (r.putc c) := by
  obtain ⟨hdrawn, hrow, -⟩ := h
  have hcol := hdrawn.column
  have hpos := hdrawn.pos
  unfold Vga.vgaPutc Roll.putc
  -- what each character does before the view moves
  suffices hput : Drawn memory _ _ from of_drawn hput.reveal.1 hput.reveal.2
  split_ifs with hnewline hreturn hback hleft hzero hzero htab
  · refine ⟨hdrawn.color, Nat.zero_lt_succ _, ?_, ?_, hdrawn.cells, hdrawn.beyond⟩
    · dsimp only
      omega
    · dsimp only
      omega
  · refine ⟨hdrawn.color, Nat.zero_lt_succ _, Or.inl hrow, ?_, hdrawn.cells, hdrawn.beyond⟩
    dsimp only
    omega
  · omega
  · refine ⟨hdrawn.color, ?_, Or.inl hrow, ?_, fun k hk => ?_, fun k hk => ?_⟩
    · exact Nat.lt_of_le_of_lt (Nat.sub_le _ _) hcol
    · dsimp only [Vga.store]
      omega
    · dsimp only [Vga.store]
      rw [Function.update_apply, Function.update_apply, hdrawn.cells k hk, hdrawn.color]
      congr 1
      exact propext (by omega)
    · rw [← hdrawn.beyond k hk]
      apply Function.update_of_ne
      dsimp only
      omega
  · exact hdrawn
  · omega
  · rw [show r.pos % 4 = v.cursorX % 4 by omega]
    exact hdrawn.blanks hrow (by omega)
  · rw [← hdrawn.color]
    exact hdrawn.write hrow _

theorem clear (h : ∀ k, 4000 ≤ k → v.vgaBuffer k = memory k) :
    ShowsRoll memory v.clear (.blank v.currentColor) := by
  have hcolor := v.fill_currentColor (List.range (80 * 50)) (vgaBlank v.currentColor)
  have hbuffer : ∀ k, (v.fill (List.range (80 * 50))
      (vgaBlank v.currentColor)).vgaBuffer k =
      if k < 4000 then vgaBlank v.currentColor else v.vgaBuffer k := by
    intro k
    rw [fill_vgaBuffer]
    simp only [List.mem_range]
  unfold Vga.clear
  generalize v.fill (List.range (80 * 50)) (vgaBlank v.currentColor) = w
    at hcolor hbuffer
  refine of_drawn ⟨hcolor, Nat.zero_lt_succ _, Or.inl (Nat.zero_lt_succ _), by simp [Roll.blank],
    fun k hk => ?_, fun k hk => ?_⟩ (Nat.zero_lt_succ _)
  · exact (hbuffer k).trans (if_pos hk)
  · exact ((hbuffer k).trans (if_neg (Nat.not_lt.mpr hk))).trans (h k hk)

theorem setCursor (h : ShowsRoll memory v r) (row col : Int) :
    ShowsRoll memory (v.vgaSetCursor row col) (VgaOp.write r (.vgaSetCursor row col)) := by
  unfold Vga.vgaSetCursor VgaOp.write
  obtain ⟨hdrawn, -, -⟩ := h
  apply of_drawn
  · refine ⟨hdrawn.color, ?_, Or.inl ?_, ?_, hdrawn.cells, hdrawn.beyond⟩
    · dsimp only
      split_ifs <;> omega
    · dsimp only
      split_ifs <;> omega
    · dsimp only
      split_ifs <;> omega
  · dsimp only
    split_ifs <;> omega

end ShowsRoll

/-- After a `clear`, whatever is called, the screen is a window of the roll that the same calls
write, the hardware cursor is at the position, and the memory behind the screen is untouched. -/
theorem vga_shows_roll (v : Vga) (ops : List VgaOp) :
    ShowsRoll v.vgaBuffer (ops.foldl VgaOp.run v.clear)
      (ops.foldl VgaOp.write (.blank v.currentColor)) := by
  have hstart : ShowsRoll v.vgaBuffer v.clear (.blank v.currentColor) := .clear fun _ _ => rfl
  generalize v.clear = w, Roll.blank v.currentColor = r at hstart
  induction ops generalizing w r with
  | nil => exact hstart
  | cons op rest ih =>
    apply ih
    cases op with
    | vgaPutc c => exact hstart.putc c
    | clear =>
      have hcleared := ShowsRoll.clear hstart.beyond
      rwa [hstart.color] at hcleared
    | vgaSetColor fg bg =>
      obtain ⟨⟨-, hcol, hrow, hpos, hcells, hbeyond⟩, hin, hhardware⟩ := hstart
      exact ⟨⟨rfl, hcol, hrow, hpos, hcells, hbeyond⟩, hin, hhardware⟩
    | vgaSetCursor row col => exact hstart.setCursor row col

end Window

end EnclaveOS
