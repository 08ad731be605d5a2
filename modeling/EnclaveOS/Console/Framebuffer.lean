import EnclaveOS.Foundation.PageWord
import EnclaveOS.Foundation.Raster

/-!
# Framebuffer - the screen, its second buffer and the text cursor

`framebuffer.c` after `fb_init` has found a screen: `fb_ready` is 1 from there on, so its
tests are left out.  Memory is two buffers of words, each by the index from its own start.  Where the
direct and the double-buffered branch of a function run the same loop over their buffer, the loop is
written once; without double buffering `mark_dirty` does nothing.  The bytes of a font are those
of the loaded file, or of `fallback_font`, whatever they are.

`fb_dbg_count` only counts for a message that is commented out.  The list of the calls of
`render_glyph` is not in the source: it is what the statements look at.
-/

namespace EnclaveOS

open PageWord

/-- The words of a buffer; the address space has `2 ^ 30` of them. -/
abbrev PixelBuffer := BitVec 30 → Word

/-- `fb_width`, `fb_height` and `fb_pitch` of a screen that lies in the address space. -/
structure Screen where
  width : Word
  height : Word
  /-- In words. -/
  pitch : Word
  width_le_pitch : width.toNat ≤ pitch.toNat
  fits : height.toNat * pitch.toNat < 2 ^ 30

/-- `y * fb_pitch + x` -/
def Screen.index (scr : Screen) (x y : Word) : BitVec 30 :=
  (y * scr.pitch + x).setWidth 30

namespace Screen

variable (scr : Screen)

/-- The word of column `i` in row `j`. -/
def pixel (i j : Nat) : BitVec 30 :=
  pixelAt 30 scr.pitch.toNat i j

/-- Sums that wrap in a coordinate do not change the word. -/
theorem index_add (x a y b : Word) :
    scr.index (x + a) (y + b) = scr.pixel (x.toNat + a.toNat) (y.toNat + b.toNat) := by
  apply BitVec.eq_of_toNat_eq
  have hdvd : 2 ^ 30 ∣ 2 ^ 32 := Nat.pow_dvd_pow 2 (by decide)
  simp only [index, pixel, pixelAt, BitVec.toNat_setWidth, BitVec.toNat_ofNat, BitVec.toNat_add,
    BitVec.toNat_mul]
  rw [Nat.mod_mod_of_dvd _ hdvd]
  simp [Nat.add_mod, Nat.mul_mod]

theorem index_eq (x y : Word) : scr.index x y = scr.pixel x.toNat y.toNat := by
  simpa using scr.index_add x 0 y 0

theorem size_toNat : (scr.height * scr.pitch).toNat = scr.height.toNat * scr.pitch.toNat := by
  have hfits := scr.fits
  rw [BitVec.toNat_mul, Nat.mod_eq_of_lt (by omega)]

variable {scr} {i i' j j' : Nat}

theorem pixel_toNat (hi : i < scr.width.toNat) (hj : j < scr.height.toNat) :
    (scr.pixel i j).toNat = j * scr.pitch.toNat + i :=
  pixelAt_toNat scr.fits.le (hi.trans_le scr.width_le_pitch) hj

theorem pixel_inj (hi : i < scr.width.toNat) (hi' : i' < scr.width.toNat)
    (hj : j < scr.height.toNat) (hj' : j' < scr.height.toNat) :
    scr.pixel i j = scr.pixel i' j' ↔ i = i' ∧ j = j' :=
  pixelAt_inj scr.fits.le (hi.trans_le scr.width_le_pitch) (hi'.trans_le scr.width_le_pitch) hj hj'

theorem run_iff {x w : Nat} (hx : x + w ≤ scr.width.toNat) (hj : j < scr.height.toNat)
    (b : BitVec 30) :
    (b - scr.pixel x j).toNat < w ↔ ∃ i, x ≤ i ∧ i < x + w ∧ b = scr.pixel i j :=
  pixelAt_run_iff scr.fits.le (hx.trans scr.width_le_pitch) hj b

/-- A screen with a row is narrower than the address space. -/
theorem width_lt (hj : j < scr.height.toNat) : scr.width.toNat < 2 ^ 30 := by
  have hle := Nat.mul_le_mul_right scr.pitch.toNat (show 1 ≤ scr.height.toNat by omega)
  have hfits := scr.fits
  have hpitch := scr.width_le_pitch
  omega

end Screen

/-- A font: the glyphs of the loaded file and its Unicode table, which is `none` when
`font_initialized` or `font_unicode_table` is 0. -/
structure Font where
  height : Word
  glyphCount : Nat
  glyphs : Nat → BitVec 8
  /-- The bytes from `fallback_font` on. -/
  fallback : Nat → BitVec 8
  unicodeTable : Option (List (BitVec 16))
  /-- The codes of every glyph end with 0xFFFF. -/
  table_complete : ∀ table ∈ unicodeTable, glyphCount ≤ table.count 0xFFFF

/-- `dirty_rect_t` -/
structure DirtyRect where
  minX : Word
  minY : Word
  maxX : Word
  maxY : Word
deriving DecidableEq, Repr

/-- The arguments of one call of `render_glyph`. -/
structure GlyphCall where
  glyph : Nat
  px : Word
  py : Word
  fg : Word
  bg : Word
deriving DecidableEq, Repr

/-- The static variables of `framebuffer.c` and the two buffers. -/
structure Framebuffer where
  screen : Screen
  font : Font
  cursorX : Word
  cursorY : Word
  utf8State : Word
  utf8Codepoint : Word
  currentFg : Word
  currentBg : Word
  doubleBuffering : Bool
  dirty : DirtyRect
  frame : PixelBuffer
  back : PixelBuffer
  /-- The calls of `render_glyph` so far. -/
  asked : List GlyphCall

/-- `font_width`: every assignment sets it to 8. -/
def fontWidth : Word := 8

/-- `COLOR_LIGHT_GREY` and `COLOR_BLACK` of the framebuffer. -/
def fbLightGrey : Word := 0x00C0C0C0
def fbBlack : Word := 0x00000000

namespace Font

/-- The walk of `find_glyph_index`.  The table of a font does not end before its last glyph. -/
def searchTable (count : Nat) (code : Word) : Nat → List (BitVec 16) → Option Nat
  | _, [] => none
  | glyph, charCode :: rest =>
    if count ≤ glyph then none
    else if charCode = 0xFFFF then searchTable count code (glyph + 1) rest
    else if charCode = 0xFFFE ∨ charCode = 0 then searchTable count code glyph rest
    else if charCode.setWidth 32 = code then some glyph
    else searchTable count code glyph rest

/-- `find_glyph_index`, with `none` for -1. -/
def findGlyphIndex (font : Font) (code : Word) : Option Nat :=
  font.unicodeTable.bind (searchTable font.glyphCount code 0)

/-- One row of a glyph, from the loaded font or from the fallback. -/
def glyphRow (font : Font) (glyph : Nat) (row : Word) : BitVec 8 :=
  if font.unicodeTable.isSome ∧ glyph < font.glyphCount then
    font.glyphs (glyph * font.height.toNat + row.toNat)
  else if 32 ≤ glyph ∧ glyph ≤ 126 then font.fallback ((glyph - 32) * 16 + row.toNat)
  else font.fallback ((0x3F - 32) * 16 + row.toNat)

/-- `(bits & (1 << (7 - col))) ? fg : bg` -/
def glyphColor (font : Font) (glyph : Nat) (fg bg row col : Word) : Word :=
  if (font.glyphRow glyph row).getLsbD (7 - col.toNat) then fg else bg

/-- The glyph that `fb_put_char`, `fb_put_unicode_char` and `fb_draw_string` take. -/
def stringGlyph (font : Font) (code : Word) : Nat :=
  ((font.findGlyphIndex code).or (font.findGlyphIndex 0x3F)).getD 0

/-- The glyph that `fb_putc` takes. -/
def putcGlyph (font : Font) (code : Word) : Nat :=
  if font.unicodeTable.isSome then
    ((font.findGlyphIndex code).or (font.findGlyphIndex 0x3F)).getD 0x3F
  else if code < 128 then code.toNat else 0x3F

end Font

namespace Framebuffer

/-- `fb_get_cols` and `fb_get_rows`. -/
def cols (s : Framebuffer) : Word := s.screen.width / fontWidth
def rows (s : Framebuffer) : Word := s.screen.height / s.font.height

/-- `reset_dirty` -/
def resetDirty (s : Framebuffer) : Framebuffer :=
  { s with dirty := ⟨s.screen.width, s.screen.height, 0, 0⟩ }

/-- `is_dirty` -/
def isDirty (s : Framebuffer) : Bool :=
  s.dirty.minX < s.dirty.maxX && s.dirty.minY < s.dirty.maxY

/-- `mark_dirty` -/
def markDirty (s : Framebuffer) (x y w h : Word) : Framebuffer :=
  if s.doubleBuffering = false ∨ w = 0 ∨ h = 0 then s
  else
    { s with
      dirty :=
        { minX := if x < s.dirty.minX then x else s.dirty.minX
          minY := if y < s.dirty.minY then y else s.dirty.minY
          maxX := if s.dirty.maxX < x + w then x + w else s.dirty.maxX
          maxY := if s.dirty.maxY < y + h then y + h else s.dirty.maxY } }

/-- `fb_init` of a screen that shows some contents, over the static variables as they start, with
the font of `fb_init_font`. -/
def fbInit (screen : Screen) (font : Font) (frame : PixelBuffer) : Framebuffer :=
  resetDirty
    { screen := screen, font := font, cursorX := 0, cursorY := 0, utf8State := 0,
      utf8Codepoint := 0, currentFg := fbLightGrey, currentBg := fbBlack, doubleBuffering := false,
      dirty := ⟨0, 0, 0, 0⟩, frame := frame, back := fun _ => 0, asked := [] }

/-- `fb_set_cursor` -/
def setCursor (s : Framebuffer) (x y : Word) : Framebuffer :=
  { s with
    cursorX := if x < s.cols then x else s.cursorX
    cursorY := if y < s.rows then y else s.cursorY }

/-- `fb_set_color` -/
def setColor (s : Framebuffer) (fg bg : Word) : Framebuffer :=
  { s with currentFg := fg, currentBg := bg }

/-- The buffer that is drawn into. -/
def target (s : Framebuffer) : PixelBuffer :=
  if s.doubleBuffering then s.back else s.frame

/-- A loop over the buffer that is drawn into. -/
def onTarget (s : Framebuffer) (f : PixelBuffer → PixelBuffer) : Framebuffer :=
  if s.doubleBuffering then { s with back := f s.back } else { s with frame := f s.frame }

/-- `fb_enable_double_buffering`, with the block that `kmalloc` returns. -/
def enableDoubleBuffering (s : Framebuffer) (block : Option PixelBuffer) : Framebuffer :=
  if s.doubleBuffering then s
  else
    match block with
    | some contents =>
      resetDirty
        { s with
          doubleBuffering := true
          back := copyFrom s.frame contents 0 0 (s.screen.height * s.screen.pitch).toNat }
    | none => s

/-- The loop of `fb_flush` over the rows of the dirty rectangle. -/
def flushRows (s : Framebuffer) (d : DirtyRect) : PixelBuffer :=
  forRange d.minY d.maxY
    (fun y fb =>
      copyFrom s.back fb (s.screen.index d.minX y) (s.screen.index d.minX y) (d.maxX - d.minX).toNat)
    s.frame

/-- The dirty rectangle cut at the edges of the screen. -/
def clipDirty (s : Framebuffer) : DirtyRect :=
  { s.dirty with
    maxX := if s.screen.width < s.dirty.maxX then s.screen.width else s.dirty.maxX
    maxY := if s.screen.height < s.dirty.maxY then s.screen.height else s.dirty.maxY }

/-- `fb_flush` -/
def flush (s : Framebuffer) : Framebuffer :=
  if s.doubleBuffering = false ∨ s.isDirty = false then s
  else resetDirty { s with frame := s.flushRows s.clipDirty }

/-- The two loops of `render_glyph`. -/
def glyphLoop (s : Framebuffer) (call : GlyphCall) (fb : PixelBuffer) : PixelBuffer :=
  forRange 0 s.font.height
    (fun row fb =>
      forRange 0 fontWidth
        (fun col fb =>
          Function.update fb (s.screen.index (call.px + col) (call.py + row))
            (s.font.glyphColor call.glyph call.fg call.bg row col))
        fb)
    fb

/-- The bounds check of `render_glyph`. -/
def GlyphShown (s : Framebuffer) (call : GlyphCall) : Prop :=
  ¬(s.screen.width < call.px + fontWidth ∨ s.screen.height < call.py + s.font.height)

instance (s : Framebuffer) (call : GlyphCall) : Decidable (s.GlyphShown call) := by
  unfold GlyphShown
  infer_instance

/-- `render_glyph` -/
def renderGlyph (s : Framebuffer) (call : GlyphCall) : Framebuffer :=
  let s := { s with asked := s.asked ++ [call] }
  if s.GlyphShown call then
    (s.onTarget (s.glyphLoop call)).markDirty call.px call.py fontWidth s.font.height
  else s

/-- `fb_put_pixel` -/
def putPixel (s : Framebuffer) (x y color : Word) : Framebuffer :=
  if s.screen.width ≤ x ∨ s.screen.height ≤ y then s
  else (s.onTarget fun fb => Function.update fb (s.screen.index x y) color).markDirty x y 1 1

/-- `fb_clear` -/
def clear (s : Framebuffer) (color : Word) : Framebuffer :=
  let s :=
    (s.onTarget fun fb => fillWords fb 0 color (s.screen.height * s.screen.pitch).toNat).markDirty
      0 0 s.screen.width s.screen.height
  { s with cursorX := 0, cursorY := 0 }

/-- The loop of `fb_fill_rect` over the rows. -/
def fillLoop (scr : Screen) (x y w h color : Word) (fb : PixelBuffer) : PixelBuffer :=
  forRange y (y + h) (fun row fb => fillWords fb (scr.index x row) color w.toNat) fb

/-- `fb_fill_rect` -/
def fillRect (s : Framebuffer) (x y w h color : Word) : Framebuffer :=
  if s.screen.width ≤ x ∨ s.screen.height ≤ y then s
  else
    let w := if s.screen.width < x + w then s.screen.width - x else w
    let h := if s.screen.height < y + h then s.screen.height - y else h
    (s.onTarget (fillLoop s.screen x y w h color)).markDirty x y w h

/-- `fb_draw_rect` -/
def drawRect (s : Framebuffer) (x y w h color : Word) : Framebuffer :=
  let s := s.fillRect x y w 1 color
  let s := s.fillRect x (y + h - 1) w 1 color
  let s := s.fillRect x (y + 1) 1 (h - 2) color
  s.fillRect (x + w - 1) (y + 1) 1 (h - 2) color

/-- `fb_put_unicode_char` -/
def putUnicodeChar (s : Framebuffer) (unicode x y fg bg : Word) : Framebuffer :=
  s.renderGlyph ⟨s.font.stringGlyph unicode, x * fontWidth, y * s.font.height, fg, bg⟩

/-- `fb_put_char` -/
def putChar (s : Framebuffer) (c : BitVec 8) (x y fg bg : Word) : Framebuffer :=
  s.putUnicodeChar (c.setWidth 32) x y fg bg

/-- The move and the fill of `fb_scroll_up` in the second buffer. -/
def scrollBack (s : Framebuffer) : PixelBuffer :=
  let fontPx := s.font.height
  let srcOffset := fontPx * s.screen.pitch
  let wordsToCopy := (s.rows - 1) * fontPx * s.screen.pitch
  let moved := moveWords s.back 0 (srcOffset.setWidth 30) wordsToCopy.toNat
  let lastYOffset := (s.rows - 1) * fontPx * s.screen.pitch
  let lineWords := fontPx * s.screen.pitch
  fillWords moved (lastYOffset.setWidth 30) s.currentBg lineWords.toNat

/-- The loops of `fb_scroll_up` on the screen itself: one line of text moves up. -/
def moveLine (s : Framebuffer) (line : Word) (fb : PixelBuffer) : PixelBuffer :=
  let srcY := (line + 1) * s.font.height
  let dstY := line * s.font.height
  forRange 0 s.font.height
    (fun row (fb : PixelBuffer) =>
      forRange 0 s.screen.width
        (fun col (fb : PixelBuffer) =>
          Function.update fb (s.screen.index col (dstY + row)) (fb (s.screen.index col (srcY + row))))
        fb)
    fb

/-- The last line of text is cleared. -/
def clearLastLine (s : Framebuffer) (fb : PixelBuffer) : PixelBuffer :=
  let lastY := (s.rows - 1) * s.font.height
  forRange 0 s.font.height
    (fun row (fb : PixelBuffer) =>
      forRange 0 s.screen.width
        (fun col (fb : PixelBuffer) =>
          Function.update fb (s.screen.index col (lastY + row)) s.currentBg)
        fb)
    fb

/-- `fb_scroll_up` without double buffering. -/
def scrollFrame (s : Framebuffer) : PixelBuffer :=
  s.clearLastLine (forRange 0 (s.rows - 1) s.moveLine s.frame)

/-- `fb_scroll_up` -/
def scrollUp (s : Framebuffer) : Framebuffer :=
  if s.doubleBuffering then
    { s with back := s.scrollBack }.markDirty 0 0 s.screen.width s.screen.height
  else { s with frame := s.scrollFrame }

/-- A glyph at the cursor. -/
def drawAtCursor (s : Framebuffer) (glyph : Nat) : Framebuffer :=
  s.renderGlyph
    ⟨glyph, s.cursorX * fontWidth, s.cursorY * s.font.height, s.currentFg, s.currentBg⟩

/-- The end of a line: `if (cursor_x >= max_cols)`. -/
def wrap (s : Framebuffer) : Framebuffer :=
  if s.cols ≤ s.cursorX then { s with cursorX := 0, cursorY := s.cursorY + 1 } else s

/-- `cursor_x++` -/
def advance (s : Framebuffer) : Framebuffer :=
  { s with cursorX := s.cursorX + 1 }.wrap

/-- `fb_putc` inside a sequence of several bytes. -/
def putContinuation (s : Framebuffer) (byte : BitVec 8) : Framebuffer :=
  let s :=
    { s with
      utf8Codepoint := s.utf8Codepoint <<< 6 ||| (byte &&& 0x3F).setWidth 32
      utf8State := s.utf8State - 1 }
  if s.utf8State = 0 then (s.drawAtCursor (s.font.putcGlyph s.utf8Codepoint)).advance else s

/-- `fb_putc` on a byte below 0x80. -/
def putAscii (s : Framebuffer) (byte : BitVec 8) : Framebuffer :=
  if byte = 0x0A then { s with cursorX := 0, cursorY := s.cursorY + 1 }
  else if byte = 0x0D then { s with cursorX := 0 }
  else if byte = 0x09 then { s with cursorX := (s.cursorX + 4) &&& ~~~3 }.wrap
  else if byte = 0x08 then
    if 0 < s.cursorX then { s with cursorX := s.cursorX - 1 }.drawAtCursor 0x20 else s
  else (s.drawAtCursor (s.font.putcGlyph (byte.setWidth 32))).advance

/-- `fb_putc` on the first byte of a character. -/
def putLead (s : Framebuffer) (byte : BitVec 8) : Framebuffer :=
  if byte < 0x80 then s.putAscii byte
  else if byte &&& 0xE0 = 0xC0 then
    { s with utf8Codepoint := (byte &&& 0x1F).setWidth 32, utf8State := 1 }
  else if byte &&& 0xF0 = 0xE0 then
    { s with utf8Codepoint := (byte &&& 0x0F).setWidth 32, utf8State := 2 }
  else if byte &&& 0xF8 = 0xF0 then
    { s with utf8Codepoint := (byte &&& 0x07).setWidth 32, utf8State := 3 }
  else (s.drawAtCursor 0x3F).advance

/-- The loop at `check_scroll`, for some rounds; `none` when they do not end it. -/
def scrollLoop : Nat → Framebuffer → Option Framebuffer
  | 0, _ => none
  | rounds + 1, s =>
    if s.rows ≤ s.cursorY then
      scrollLoop rounds { s.scrollUp with cursorY := s.scrollUp.cursorY - 1 }
    else some s

/-- `fb_putc`.  A screen that has a row scrolls `cursor_y` times at most; without one, the
loop does not end. -/
def putc (s : Framebuffer) (c : BitVec 8) : Option Framebuffer :=
  let s :=
    if 0 < s.utf8State ∧ c &&& 0xC0 = 0x80 then s.putContinuation c
    else { s with utf8State := 0 }.putLead c
  scrollLoop (s.cursorY.toNat + 1) s

/-- `fb_print` -/
def print (s : Framebuffer) : List (BitVec 8) → Option Framebuffer
  | [] => some s
  | c :: rest => (s.putc c).bind fun s => s.print rest

variable (s : Framebuffer)

theorem onTarget_eq (f : PixelBuffer → PixelBuffer) :
    ∃ frame back, s.onTarget f = { s with frame := frame, back := back } := by
  unfold onTarget
  split
  · exact ⟨s.frame, f s.back, rfl⟩
  · exact ⟨f s.frame, s.back, rfl⟩

theorem markDirty_eq (x y w h : Word) :
    ∃ dirty, s.markDirty x y w h = { s with dirty := dirty } := by
  unfold markDirty
  split
  · exact ⟨s.dirty, rfl⟩
  · exact ⟨_, rfl⟩

theorem draw_eq (f : PixelBuffer → PixelBuffer) (x y w h : Word) :
    ∃ frame back dirty, (s.onTarget f).markDirty x y w h =
      { s with frame := frame, back := back, dirty := dirty } := by
  obtain ⟨frame, back, htarget⟩ := s.onTarget_eq f
  obtain ⟨dirty, hdirty⟩ := (s.onTarget f).markDirty_eq x y w h
  exact ⟨frame, back, dirty, by rw [hdirty, htarget]⟩

theorem renderGlyph_eq (call : GlyphCall) :
    ∃ frame back dirty, s.renderGlyph call =
      { s with frame := frame, back := back, dirty := dirty, asked := s.asked ++ [call] } := by
  unfold renderGlyph
  dsimp only
  split
  · exact draw_eq _ _ _ _ _ _
  · exact ⟨s.frame, s.back, s.dirty, rfl⟩

theorem clear_eq (color : Word) :
    ∃ frame back dirty, s.clear color =
      { s with frame := frame, back := back, dirty := dirty, cursorX := 0, cursorY := 0 } := by
  obtain ⟨frame, back, dirty, h⟩ :=
    s.draw_eq (fun fb => fillWords fb 0 color (s.screen.height * s.screen.pitch).toNat)
      0 0 s.screen.width s.screen.height
  exact ⟨frame, back, dirty, by rw [clear, h]⟩

theorem scrollUp_eq :
    ∃ frame back dirty, s.scrollUp =
      { s with frame := frame, back := back, dirty := dirty } := by
  unfold scrollUp
  split
  · obtain ⟨dirty, h⟩ :=
      markDirty_eq { s with back := s.scrollBack } 0 0 s.screen.width s.screen.height
    exact ⟨s.frame, s.scrollBack, dirty, h⟩
  · exact ⟨s.scrollFrame, s.back, s.dirty, rfl⟩

theorem drawAtCursor_eq (glyph : Nat) :
    ∃ frame back dirty, s.drawAtCursor glyph =
      { s with
        frame := frame, back := back, dirty := dirty
        asked := s.asked ++
          [⟨glyph, s.cursorX * fontWidth, s.cursorY * s.font.height, s.currentFg, s.currentBg⟩] } :=
  s.renderGlyph_eq _

end Framebuffer

end EnclaveOS
