import EnclaveOS.Console.Framebuffer

/-!
# TextCursor - the text cursor stays on the screen

A byte moves the cursor by one cell, to the next tab stop or to the next line; a line past the last
one is scrolled away before `fb_putc` returns.
-/

namespace EnclaveOS

open PageWord

namespace Framebuffer

/-- The cursor is on the screen, or `below` lines under it; the decoder waits for three bytes at
most; no glyph was lost. -/
structure TextOk (below : Nat) (s : Framebuffer) : Prop where
  oneRow : 0 < s.rows
  cursorX : s.cursorX < s.cols
  cursorY : s.cursorY.toNat < s.rows.toNat + below
  utf8State : s.utf8State ≤ 3
  shown : ∀ call ∈ s.asked, s.GlyphShown call

/-- A cell that starts before the end of a line lies inside it. -/
theorem cell_le {c d n : Word} (h : c.toNat < n.toNat / d.toNat) :
    (c * d).toNat + d.toNat ≤ n.toNat := by
  have hmul : (c.toNat + 1) * d.toNat ≤ n.toNat :=
    (Nat.mul_le_mul_right _ h).trans (Nat.div_mul_le_self _ _)
  have hn := n.isLt
  rw [Nat.succ_mul] at hmul
  rw [BitVec.toNat_mul, Nat.mod_eq_of_lt (by omega)]
  exact hmul

theorem cell_shown {c d n : Word} (h : c.toNat < n.toNat / d.toNat) : ¬n < c * d + d := by
  have hle := cell_le h
  have hn := n.isLt
  rw [BitVec.lt_def, BitVec.toNat_add, Nat.mod_eq_of_lt (by omega)]
  omega

namespace TextOk

variable {s : Framebuffer} {below : Nat}

theorem weaken (h : TextOk 0 s) : TextOk below s :=
  ⟨h.oneRow, h.cursorX, by have := h.cursorY; omega, h.utf8State, h.shown⟩

theorem cols_pos (h : TextOk below s) : 0 < s.cols.toNat := by
  have hx := BitVec.lt_def.mp h.cursorX
  omega

theorem drawAtCursor (h : TextOk 0 s) (glyph : Nat) : TextOk 0 (s.drawAtCursor glyph) := by
  obtain ⟨frame, back, dirty, hdraw⟩ := s.drawAtCursor_eq glyph
  rw [hdraw]
  refine ⟨h.oneRow, h.cursorX, h.cursorY, h.utf8State, ?_⟩
  intro call hcall
  obtain hcall | hcall := List.mem_append.mp hcall
  · exact h.shown call hcall
  · have hx := BitVec.lt_def.mp h.cursorX
    have hy := h.cursorY
    unfold cols at hx
    unfold rows at hy
    rw [BitVec.toNat_udiv] at hx hy
    rw [List.mem_singleton.mp hcall]
    rintro (hwide | hhigh)
    · exact cell_shown hx hwide
    · exact cell_shown hy hhigh

/-- The next line at the end of one. -/
theorem wrap {x : Word} (h : TextOk 0 s) : TextOk 1 { s with cursorX := x }.wrap := by
  have hy := h.cursorY
  have hrows := s.rows.isLt
  unfold Framebuffer.wrap
  split
  · refine ⟨h.oneRow, BitVec.lt_def.mpr h.cols_pos, ?_, h.utf8State, h.shown⟩
    change (s.cursorY + 1).toNat < s.rows.toNat + 1
    rw [BitVec.toNat_add, Nat.mod_eq_of_lt (by simp; omega)]
    simpa using hy
  · rename_i hx
    exact ⟨h.oneRow, BitVec.not_le.mp hx, Nat.lt_succ_of_lt hy, h.utf8State, h.shown⟩

theorem advance (h : TextOk 0 s) : TextOk 1 s.advance :=
  h.wrap

theorem glyph (h : TextOk 0 s) (n : Nat) : TextOk 1 (s.drawAtCursor n).advance :=
  (h.drawAtCursor n).advance

/-- Inside a sequence. -/
theorem putContinuation (h : TextOk 0 s) (hstate : 0 < s.utf8State) (byte : BitVec 8) :
    TextOk 1 (s.putContinuation byte) := by
  have hpos := BitVec.lt_def.mp hstate
  have hle := BitVec.le_def.mp h.utf8State
  have hnext : s.utf8State - 1 ≤ 3 := by bv_omega
  have hmid : TextOk 0
      { s with
        utf8Codepoint := s.utf8Codepoint <<< 6 ||| (byte &&& 0x3F).setWidth 32
        utf8State := s.utf8State - 1 } :=
    ⟨h.oneRow, h.cursorX, h.cursorY, hnext, h.shown⟩
  unfold Framebuffer.putContinuation
  dsimp only
  split
  · exact hmid.glyph _
  · exact hmid.weaken

theorem putAscii (h : TextOk 0 s) (byte : BitVec 8) : TextOk 1 (s.putAscii byte) := by
  unfold Framebuffer.putAscii
  split_ifs with hnewline hreturn htab hback hpos
  · have hy := h.cursorY
    have hrows := s.rows.isLt
    refine ⟨h.oneRow, BitVec.lt_def.mpr h.cols_pos, ?_, h.utf8State, h.shown⟩
    change (s.cursorY + 1).toNat < s.rows.toNat + 1
    rw [BitVec.toNat_add, Nat.mod_eq_of_lt (by simp; omega)]
    simpa using hy
  · exact weaken ⟨h.oneRow, BitVec.lt_def.mpr h.cols_pos, h.cursorY, h.utf8State, h.shown⟩
  · exact h.wrap
  · have hx := BitVec.lt_def.mp h.cursorX
    have hgt := BitVec.lt_def.mp hpos
    have hleft : s.cursorX - 1 < s.cols := by bv_omega
    have hmoved : TextOk 0 { s with cursorX := s.cursorX - 1 } :=
      ⟨h.oneRow, hleft, h.cursorY, h.utf8State, h.shown⟩
    exact (hmoved.drawAtCursor _).weaken
  · exact h.weaken
  · exact h.glyph _

theorem putLead (h : TextOk 0 s) (byte : BitVec 8) : TextOk 1 (s.putLead byte) := by
  have hsequence : ∀ state codepoint : Word, state ≤ 3 →
      TextOk 1 { s with utf8Codepoint := codepoint, utf8State := state } :=
    fun state codepoint hstate => weaken ⟨h.oneRow, h.cursorX, h.cursorY, hstate, h.shown⟩
  unfold Framebuffer.putLead
  split_ifs
  · exact h.putAscii byte
  · exact hsequence _ _ (by decide)
  · exact hsequence _ _ (by decide)
  · exact hsequence _ _ (by decide)
  · exact h.glyph _

theorem scrollLoop_of_lt (h : TextOk 0 s) (rounds : Nat) : scrollLoop (rounds + 1) s = some s := by
  have hy : ¬s.rows ≤ s.cursorY := BitVec.not_le.mpr (BitVec.lt_def.mpr h.cursorY)
  rw [scrollLoop, if_neg hy]

/-- One scroll brings the line below the screen back. -/
theorem scrollUp (h : TextOk 1 s) (hbelow : s.rows ≤ s.cursorY) :
    TextOk 0 { s.scrollUp with cursorY := s.scrollUp.cursorY - 1 } := by
  have hpos := BitVec.lt_def.mp h.oneRow
  have hle := BitVec.le_def.mp hbelow
  have hy := h.cursorY
  have hup : (s.cursorY - 1).toNat < s.rows.toNat := by bv_omega
  obtain ⟨frame, back, dirty, hscroll⟩ := s.scrollUp_eq
  rw [hscroll]
  exact ⟨h.oneRow, h.cursorX, hup, h.utf8State, h.shown⟩

theorem scrollLoop (h : TextOk 1 s) :
    ∃ t, scrollLoop (s.cursorY.toNat + 1) s = some t ∧ TextOk 0 t := by
  by_cases hbelow : s.rows ≤ s.cursorY
  · have hnext := h.scrollUp hbelow
    have hpos := BitVec.lt_def.mp h.oneRow
    have hle := BitVec.le_def.mp hbelow
    obtain ⟨n, hn⟩ : ∃ n, s.cursorY.toNat = n + 1 := by
      apply Nat.exists_eq_succ_of_ne_zero
      simp at hpos
      omega
    rw [Framebuffer.scrollLoop, if_pos hbelow, hn, hnext.scrollLoop_of_lt]
    exact ⟨_, rfl, hnext⟩
  · have hy := BitVec.lt_def.mp (BitVec.not_le.mp hbelow)
    have hrest : TextOk 0 s := ⟨h.oneRow, h.cursorX, hy, h.utf8State, h.shown⟩
    exact ⟨s, hrest.scrollLoop_of_lt _, hrest⟩

/-- One byte, whatever came before it. -/
theorem putc (h : TextOk 0 s) (c : BitVec 8) : ∃ t, s.putc c = some t ∧ TextOk 0 t := by
  unfold Framebuffer.putc
  dsimp only
  split
  · rename_i hsequence
    exact (h.putContinuation hsequence.1 c).scrollLoop
  · have hidle : TextOk 0 { s with utf8State := 0 } :=
      ⟨h.oneRow, h.cursorX, h.cursorY, (by decide : (0 : Word) ≤ 3), h.shown⟩
    exact (hidle.putLead c).scrollLoop

end TextOk

/-- The calls that use the cursor, and those that change what it draws with. -/
inductive TextOp
  | putc (c : BitVec 8)
  | setCursor (x y : Word)
  | clear (color : Word)
  | setColor (fg bg : Word)
  | enableDoubleBuffering (block : Option PixelBuffer)
  | flush

/-- One call; `none` when it does not return. -/
def TextOp.step (s : Framebuffer) : TextOp → Option Framebuffer
  | .putc c => s.putc c
  | .setCursor x y => some (s.setCursor x y)
  | .clear color => some (s.clear color)
  | .setColor fg bg => some (s.setColor fg bg)
  | .enableDoubleBuffering block => some (s.enableDoubleBuffering block)
  | .flush => some s.flush

namespace TextOk

variable {s : Framebuffer}

theorem setCursor (h : TextOk 0 s) (x y : Word) : TextOk 0 (s.setCursor x y) := by
  refine ⟨h.oneRow, ?_, ?_, h.utf8State, h.shown⟩
  · change (if x < s.cols then x else s.cursorX) < s.cols
    split
    · assumption
    · exact h.cursorX
  · change (if y < s.rows then y else s.cursorY).toNat < s.rows.toNat
    split
    · exact BitVec.lt_def.mp (by assumption)
    · exact h.cursorY

theorem clear (h : TextOk 0 s) (color : Word) : TextOk 0 (s.clear color) := by
  obtain ⟨frame, back, dirty, hclear⟩ := s.clear_eq color
  rw [hclear]
  exact ⟨h.oneRow, BitVec.lt_def.mpr h.cols_pos, BitVec.lt_def.mp h.oneRow, h.utf8State, h.shown⟩

theorem enableDoubleBuffering (h : TextOk 0 s) (block : Option PixelBuffer) :
    TextOk 0 (s.enableDoubleBuffering block) := by
  unfold Framebuffer.enableDoubleBuffering
  split
  · exact h
  · cases block with
    | none => exact h
    | some contents => exact ⟨h.oneRow, h.cursorX, h.cursorY, h.utf8State, h.shown⟩

theorem flush (h : TextOk 0 s) : TextOk 0 s.flush := by
  unfold Framebuffer.flush
  split
  · exact h
  · exact ⟨h.oneRow, h.cursorX, h.cursorY, h.utf8State, h.shown⟩

theorem step (h : TextOk 0 s) (op : TextOp) : ∃ t, op.step s = some t ∧ TextOk 0 t := by
  cases op with
  | putc c => exact h.putc c
  | setCursor x y => exact ⟨_, rfl, h.setCursor x y⟩
  | clear color => exact ⟨_, rfl, h.clear color⟩
  | setColor fg bg => exact ⟨_, rfl, h.oneRow, h.cursorX, h.cursorY, h.utf8State, h.shown⟩
  | enableDoubleBuffering block => exact ⟨_, rfl, h.enableDoubleBuffering block⟩
  | flush => exact ⟨_, rfl, h.flush⟩

theorem run (h : TextOk 0 s) (ops : List TextOp) :
    ∃ t, ops.foldlM TextOp.step s = some t ∧ TextOk 0 t := by
  induction ops generalizing s with
  | nil => exact ⟨s, rfl, h⟩
  | cons op ops ih =>
    obtain ⟨t, hstep, ht⟩ := h.step op
    obtain ⟨u, hrun, hu⟩ := ih ht
    exact ⟨u, by simp [hstep, hrun], hu⟩

theorem fbInit {screen : Screen} {font : Font} {frame : PixelBuffer}
    (hcols : 0 < (fbInit screen font frame).cols) (hrows : 0 < (fbInit screen font frame).rows) :
    TextOk 0 (fbInit screen font frame) :=
  ⟨hrows, hcols, BitVec.lt_def.mp hrows, (by decide : (0 : Word) ≤ 3), fun _ h => absurd h List.not_mem_nil⟩

end TextOk

/-- After every run of calls the cursor is on the screen, the decoder waits for three bytes at most,
and `render_glyph` has drawn every glyph it was asked for. -/
theorem text_cursor_stays (screen : Screen) (font : Font) (frame : PixelBuffer)
    (hcols : 0 < (fbInit screen font frame).cols) (hrows : 0 < (fbInit screen font frame).rows)
    (ops : List TextOp) :
    ∃ s, ops.foldlM TextOp.step (fbInit screen font frame) = some s ∧
      s.cursorX < s.cols ∧ s.cursorY < s.rows ∧ s.utf8State ≤ 3 ∧
      ∀ call ∈ s.asked, s.GlyphShown call := by
  obtain ⟨s, hrun, h⟩ := (TextOk.fbInit hcols hrows).run ops
  exact ⟨s, hrun, h.cursorX, BitVec.lt_def.mpr h.cursorY, h.utf8State, h.shown⟩

/-- A screen of two cells, on which a cut sequence, a wrap and a scroll meet. -/
theorem text_cursor_sample :
    ∃ s, [.putc 0x41, .putc 0xE2, .putc 0x0A, .setCursor 7 0, .putc 0xFF, .putc 0x42].foldlM
        TextOp.step (fbInit ⟨16, 16, 16, by decide, by decide⟩ ⟨16, 0, 0, 0, none, by simp⟩ 0) =
          some s ∧
      s.cursorX < s.cols ∧ s.cursorY < s.rows ∧ s.utf8State ≤ 3 ∧
      ∀ call ∈ s.asked, s.GlyphShown call :=
  text_cursor_stays _ _ _ (by decide) (by decide) _

end Framebuffer

end EnclaveOS
