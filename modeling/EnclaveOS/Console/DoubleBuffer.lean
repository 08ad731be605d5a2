import EnclaveOS.Console.Rectangles

/-!
# DoubleBuffer - double buffering shows what direct drawing shows

What the screen is for is a picture: a colour for every visible pixel.  Every drawing function does one
thing to the picture, in whichever buffer it draws; with double buffering the screen lags behind
inside the dirty rectangle only.
-/

namespace EnclaveOS

open PageWord

/-- A colour for every column and row. -/
abbrev Picture := Nat → Nat → Word

namespace Picture

/-- The pixels of a rectangle get new colours. -/
def paintRect (pic : Picture) (x y w h : Nat) (color : Picture) : Picture := fun i j =>
  if x ≤ i ∧ i < x + w ∧ y ≤ j ∧ j < y + h then color i j else pic i j

/-- A rectangle that is painted row by row, up to some row and column of it. -/
def scan (pic : Picture) (x y w : Nat) (color : Picture) (row col : Nat) : Picture := fun i j =>
  if x ≤ i ∧ i < x + w ∧ y ≤ j ∧ (j < y + row ∨ j = y + row ∧ i < x + col) then color i j
  else pic i j

/-- The text moves up by one line. -/
def scrollUp (pic : Picture) (lines height : Nat) (bg : Word) : Picture := fun i j =>
  if j < (lines - 1) * height then pic i (j + height)
  else if j < lines * height then bg
  else pic i j

end Picture

/-- The visible pixels of a buffer. -/
def Screen.Shows (scr : Screen) (fb : PixelBuffer) (pic : Picture) : Prop :=
  ∀ i j, i < scr.width.toNat → j < scr.height.toNat → fb (scr.pixel i j) = pic i j

namespace Screen.Shows

variable {scr : Screen} {fb : PixelBuffer} {pic pic' : Picture}

theorem congr (h : scr.Shows fb pic)
    (heq : ∀ i j, i < scr.width.toNat → j < scr.height.toNat → pic i j = pic' i j) :
    scr.Shows fb pic' := by
  intro i j hi hj
  rw [h i j hi hj, heq i j hi hj]

/-- One visible pixel. -/
theorem update (h : scr.Shows fb pic) {x y : Nat} (hx : x < scr.width.toNat)
    (hy : y < scr.height.toNat) (color : Word) :
    scr.Shows (Function.update fb (scr.pixel x y) color)
      fun i j => if i = x ∧ j = y then color else pic i j := by
  intro i j hi hj
  by_cases hp : i = x ∧ j = y
  · obtain ⟨rfl, rfl⟩ := hp
    simp
  · have hne : scr.pixel i j ≠ scr.pixel x y := fun heq => hp ((pixel_inj hi hx hj hy).mp heq)
    rw [Function.update_of_ne hne]
    simp only [if_neg hp]
    exact h i j hi hj

theorem scan_next {x y w row col : Nat} {color : Picture} (hx : x + w ≤ scr.width.toNat)
    (hrow : y + row < scr.height.toNat) (hcol : col < w)
    (h : scr.Shows fb (pic.scan x y w color row col)) :
    scr.Shows (Function.update fb (scr.pixel (x + col) (y + row)) (color (x + col) (y + row)))
      (pic.scan x y w color row (col + 1)) := by
  apply (h.update (by omega) hrow _).congr
  intro i j hi hj
  unfold Picture.scan
  split
  · rename_i hij
    obtain ⟨rfl, rfl⟩ := hij
    rw [if_pos (by omega)]
  · congr 1
    apply propext
    omega

/-- A loop over the rows and one over the columns of a visible rectangle.  The colour may depend on
what the buffer shows at its turn. -/
theorem scanLoops {x y : Nat} {ww hh : Word} {color : Picture} {cell : Word → Word → BitVec 30}
    {value : Word → Word → PixelBuffer → Word} (hx : x + ww.toNat ≤ scr.width.toNat)
    (hy : y + hh.toNat ≤ scr.height.toNat)
    (hcell : ∀ r < hh.toNat, ∀ c < ww.toNat,
      cell (BitVec.ofNat 32 r) (BitVec.ofNat 32 c) = scr.pixel (x + c) (y + r))
    (hvalue : ∀ r < hh.toNat, ∀ c < ww.toNat, ∀ fb,
      scr.Shows fb (pic.scan x y ww.toNat color r c) →
        value (BitVec.ofNat 32 r) (BitVec.ofNat 32 c) fb = color (x + c) (y + r))
    (h : scr.Shows fb pic) :
    scr.Shows
      (forRange 0 hh
        (fun row (fb : PixelBuffer) =>
          forRange 0 ww
            (fun col (fb : PixelBuffer) =>
              Function.update fb (cell row col) (value row col fb))
            fb)
        fb)
      (pic.paintRect x y ww.toNat hh.toNat color) := by
  have hfinal : ∀ i j, i < scr.width.toNat → j < scr.height.toNat →
      pic.scan x y ww.toNat color (hh.toNat - (0 : Word).toNat) 0 i j =
        pic.paintRect x y ww.toNat hh.toNat color i j := by
    intro i j _ _
    unfold Picture.scan Picture.paintRect
    congr 1
    simp
    omega
  refine congr ?_ hfinal
  apply forRange_rule fun row (fb : PixelBuffer) =>
    scr.Shows fb (pic.scan x y ww.toNat color row 0)
  · apply h.congr
    intro i j _ _
    unfold Picture.scan
    rw [if_neg (by omega)]
  · intro r fb hr hshow
    have hr : r < hh.toNat := by simpa using hr
    have hrow : ∀ i j, i < scr.width.toNat → j < scr.height.toNat →
        pic.scan x y ww.toNat color r (ww.toNat - (0 : Word).toNat) i j =
          pic.scan x y ww.toNat color (r + 1) 0 i j := by
      intro i j _ _
      unfold Picture.scan
      congr 1
      simp
      omega
    refine congr ?_ hrow
    apply forRange_rule fun col (fb : PixelBuffer) =>
      scr.Shows fb (pic.scan x y ww.toNat color r col)
    · exact hshow
    · intro c fb hc hshow
      have hc : c < ww.toNat := by simpa using hc
      rw [zero_add, zero_add, hcell r hr c hc, hvalue r hr c hc fb hshow]
      exact scan_next hx (by omega) hc hshow

end Screen.Shows

/-- A run of words in one row, at a visible pixel. -/
theorem Screen.run_mem_iff {scr : Screen} {x w r i j : Nat} (hx : x + w ≤ scr.width.toNat)
    (hr : r < scr.height.toNat) (hi : i < scr.width.toNat) (hj : j < scr.height.toNat) :
    (scr.pixel i j - scr.pixel x r).toNat < w ↔ x ≤ i ∧ i < x + w ∧ j = r := by
  rw [run_iff hx hr]
  constructor
  · rintro ⟨k, hle, hlt, heq⟩
    obtain ⟨rfl, rfl⟩ := (pixel_inj hi (by omega) hj hr).mp heq
    exact ⟨hle, hlt, rfl⟩
  · rintro ⟨hle, hlt, rfl⟩
    exact ⟨i, hle, hlt, rfl⟩

/-- The pixels of a dirty rectangle. -/
def DirtyRect.Mem (d : DirtyRect) (i j : Nat) : Prop :=
  d.minX.toNat ≤ i ∧ i < d.maxX.toNat ∧ d.minY.toNat ≤ j ∧ j < d.maxY.toNat

namespace Framebuffer

variable {s : Framebuffer} {fb : PixelBuffer} {pic : Picture}

theorem ofNat_toNat {n : Nat} {m : Word} (h : n < m.toNat) : (BitVec.ofNat 32 n).toNat = n := by
  have hm := m.isLt
  rw [BitVec.toNat_ofNat, Nat.mod_eq_of_lt (by omega)]

/-- The colours of a glyph. -/
def glyphPicture (font : Font) (call : GlyphCall) : Picture := fun i j =>
  font.glyphColor call.glyph call.fg call.bg (BitVec.ofNat 32 (j - call.py.toNat))
    (BitVec.ofNat 32 (i - call.px.toNat))

/-- A glyph that is drawn lies on the screen: its sums do not wrap. -/
def GlyphStraight (s : Framebuffer) (call : GlyphCall) : Prop :=
  s.GlyphShown call → call.px.toNat + 8 < 2 ^ 32 ∧ call.py.toNat + s.font.height.toNat < 2 ^ 32

theorem GlyphShown.le {call : GlyphCall} (h : s.GlyphShown call) (hstraight : s.GlyphStraight call) :
    call.px.toNat + 8 ≤ s.screen.width.toNat ∧
      call.py.toNat + s.font.height.toNat ≤ s.screen.height.toNat := by
  obtain ⟨hx, hy⟩ := hstraight h
  simp only [GlyphShown, not_or, BitVec.not_lt] at h
  obtain ⟨hwide, hhigh⟩ := h
  have height : fontWidth.toNat = 8 := rfl
  rw [BitVec.le_def, BitVec.toNat_add, Nat.mod_eq_of_lt (by omega)] at hwide
  rw [BitVec.le_def, BitVec.toNat_add, Nat.mod_eq_of_lt (by omega)] at hhigh
  exact ⟨hwide, hhigh⟩

theorem glyphLoop_shows {call : GlyphCall} (hx : call.px.toNat + 8 ≤ s.screen.width.toNat)
    (hy : call.py.toNat + s.font.height.toNat ≤ s.screen.height.toNat)
    (h : s.screen.Shows fb pic) :
    s.screen.Shows (s.glyphLoop call fb)
      (pic.paintRect call.px.toNat call.py.toNat 8 s.font.height.toNat
        (glyphPicture s.font call)) := by
  apply Screen.Shows.scanLoops hx hy _ _ h
  · intro r hr c hc
    rw [Screen.index_add, ofNat_toNat hr, ofNat_toNat hc]
  · intro r _ c _ fb _
    unfold glyphPicture
    rw [Nat.add_sub_cancel_left, Nat.add_sub_cancel_left]

/-- `fb_fill_rect` within its sums. -/
theorem fillLoop_shows {scr : Screen} {x y w h color : Word} {n : Nat}
    (hx : x.toNat + w.toNat ≤ scr.width.toNat) (hn : (y + h).toNat - y.toNat = n)
    (hy : y.toNat + n ≤ scr.height.toNat) (hshow : scr.Shows fb pic) :
    scr.Shows (fillLoop scr x y w h color fb)
      (pic.paintRect x.toNat y.toNat w.toNat n fun _ _ => color) := by
  intro i j hi hj
  have hloop := fillLoop_apply scr x y w h color fb (scr.pixel i j)
  rw [hn, Screen.rowsTouch_iff hx hy] at hloop
  unfold Picture.paintRect
  split
  · rename_i hin
    exact hloop.1 ⟨i, j, hin.1, hin.2.1, hin.2.2.1, hin.2.2.2, rfl⟩
  · rename_i hout
    rw [hloop.2, hshow i j hi hj]
    rintro ⟨i', j', hxi, hiw, hyj, hjn, heq⟩
    obtain ⟨rfl, rfl⟩ := (Screen.pixel_inj hi (by omega) hj (by omega)).mp heq
    exact hout ⟨hxi, hiw, hyj, hjn⟩

/-- The whole buffer in one colour. -/
theorem clear_shows (scr : Screen) (fb : PixelBuffer) (color : Word) :
    scr.Shows (fillWords fb 0 color (scr.height * scr.pitch).toNat) fun _ _ => color := by
  intro i j hi hj
  rw [fillWords_apply, sub_zero, Screen.pixel_toNat hi hj, scr.size_toNat, if_pos]
  exact (row_lt_iff (hi.trans_le scr.width_le_pitch) _).mpr hj

/-- The lines of text fit the screen. -/
theorem rows_mul_le (s : Framebuffer) :
    s.rows.toNat * s.font.height.toNat ≤ s.screen.height.toNat := by
  unfold rows
  rw [BitVec.toNat_udiv]
  exact Nat.div_mul_le_self _ _

theorem line_mul_toNat {n : Nat} {line : Word} (hline : line.toNat = n)
    (hfits : n * s.font.height.toNat ≤ s.screen.height.toNat) :
    (line * s.font.height).toNat = n * s.font.height.toNat := by
  have hlt := s.screen.height.isLt
  rw [BitVec.toNat_mul, hline, Nat.mod_eq_of_lt (by omega)]

theorem rows_sub_one_toNat (hrows : 0 < s.rows) : (s.rows - 1).toNat = s.rows.toNat - 1 := by
  have hpos := BitVec.lt_def.mp hrows
  bv_omega

theorem height_pos (hrows : 0 < s.rows) : 0 < s.font.height.toNat := by
  have hpos : 0 < s.rows.toNat := BitVec.lt_def.mp hrows
  unfold rows at hpos
  rw [BitVec.toNat_udiv] at hpos
  exact Nat.pos_of_ne_zero fun hzero => by simp [hzero] at hpos

/-- The last line and those before it. -/
theorem rows_mul_eq (hrows : 0 < s.rows) : s.rows.toNat * s.font.height.toNat =
    (s.rows.toNat - 1) * s.font.height.toNat + s.font.height.toNat := by
  have hpos := BitVec.lt_def.mp hrows
  obtain ⟨n, hn⟩ : ∃ n, s.rows.toNat = n + 1 :=
    Nat.exists_eq_succ_of_ne_zero (Nat.ne_of_gt hpos)
  rw [hn, Nat.succ_mul, Nat.add_sub_cancel]

/-- One line of text takes the place of the one above it. -/
theorem moveLine_shows {line : Word} {n : Nat} (hline : line.toNat = n)
    (hfits : (n + 2) * s.font.height.toNat ≤ s.screen.height.toNat) (h : s.screen.Shows fb pic) :
    s.screen.Shows (s.moveLine line fb)
      (pic.paintRect 0 (n * s.font.height.toNat) s.screen.width.toNat s.font.height.toNat
        fun i j => pic i (j + s.font.height.toNat)) := by
  have hwidth := s.screen.width.isLt
  have hheight := s.font.height.isLt
  rw [Nat.add_mul] at hfits
  have hone : (line + 1).toNat = n + 1 ∨ s.font.height.toNat = 0 := by
    by_cases hzero : s.font.height.toNat = 0
    · exact Or.inr hzero
    · have hlt := s.screen.height.isLt
      have hn : n ≤ n * s.font.height.toNat := Nat.le_mul_of_pos_right n (by omega)
      refine Or.inl ?_
      bv_omega
  have hdst := line_mul_toNat (s := s) hline (by omega)
  unfold moveLine
  dsimp only
  apply Screen.Shows.scanLoops (by omega) (by omega) _ _ h
  · intro r hr c hc
    rw [Screen.index_row _ _ _ (by omega), hdst, ofNat_toNat hc, Nat.zero_add]
  · intro r hr c hc fb hshow
    have hsrc := line_mul_toNat (s := s) (hone.resolve_right (by omega))
      (by rw [Nat.succ_mul]; omega)
    rw [Nat.succ_mul] at hsrc
    rw [Screen.index_row _ _ _ (by omega), hsrc, ofNat_toNat hc, hshow c _ hc (by omega)]
    unfold Picture.scan
    rw [if_neg (by omega), Nat.zero_add]
    congr 1
    omega

theorem clearLastLine_shows (hrows : 0 < s.rows) (h : s.screen.Shows fb pic) :
    s.screen.Shows (s.clearLastLine fb)
      (pic.paintRect 0 ((s.rows.toNat - 1) * s.font.height.toNat) s.screen.width.toNat
        s.font.height.toNat fun _ _ => s.currentBg) := by
  have hle := s.rows_mul_le
  have hlast := rows_mul_eq hrows
  have hy := line_mul_toNat (s := s) (rows_sub_one_toNat hrows) (by omega)
  have hheight := s.font.height.isLt
  unfold clearLastLine
  dsimp only
  apply Screen.Shows.scanLoops (by omega) (by omega) _ _ h
  · intro r hr c hc
    rw [Screen.index_row _ _ _ (by omega), hy, ofNat_toNat hc, Nat.zero_add]
  · exact fun _ _ _ _ _ _ => rfl

/-- The lines of text but the last one, after the first `n` moves. -/
theorem moveLines_shows (hrows : 0 < s.rows) (h : s.screen.Shows s.frame pic) :
    s.screen.Shows (forRange 0 (s.rows - 1) s.moveLine s.frame) fun i j =>
      if j < (s.rows.toNat - 1) * s.font.height.toNat then pic i (j + s.font.height.toNat)
      else pic i j := by
  have hcount : (s.rows - 1).toNat - (0 : Word).toNat = s.rows.toNat - 1 := by
    rw [rows_sub_one_toNat hrows]
    simp
  rw [← hcount]
  apply forRange_rule fun n (fb : PixelBuffer) => s.screen.Shows fb fun i j =>
    if j < n * s.font.height.toNat then pic i (j + s.font.height.toNat) else pic i j
  · simpa using h
  · intro n fb hn hshow
    rw [hcount] at hn
    have hsmall : (0 + BitVec.ofNat 32 n : Word).toNat = n := by
      rw [zero_add, ofNat_toNat (show n < s.rows.toNat by omega)]
    have hfits : (n + 2) * s.font.height.toNat ≤ s.screen.height.toNat :=
      (Nat.mul_le_mul_right _ (show n + 2 ≤ s.rows.toNat by omega)).trans s.rows_mul_le
    apply (moveLine_shows hsmall hfits hshow).congr
    intro i j hi _
    unfold Picture.paintRect
    dsimp only
    rw [Nat.succ_mul]
    split_ifs
    all_goals first | rfl | omega

/-- `fb_scroll_up` on the screen itself. -/
theorem scrollFrame_shows (hrows : 0 < s.rows) (h : s.screen.Shows s.frame pic) :
    s.screen.Shows s.scrollFrame
      (pic.scrollUp s.rows.toNat s.font.height.toNat s.currentBg) := by
  apply (clearLastLine_shows hrows (moveLines_shows hrows h)).congr
  intro i j hi _
  have hlast := rows_mul_eq hrows
  unfold Picture.paintRect Picture.scrollUp
  dsimp only
  split_ifs
  all_goals first | rfl | omega

/-- The offset of a line of text. -/
theorem offset_toNat {n : Nat} (rows : Word) (hrows : rows.toNat = n)
    (hn : n ≤ s.screen.height.toNat) :
    ((rows * s.screen.pitch).setWidth 30).toNat = n * s.screen.pitch.toNat ∧
      (rows * s.screen.pitch).toNat = n * s.screen.pitch.toNat := by
  have hfits := s.screen.fits
  have hle := Nat.mul_le_mul_right s.screen.pitch.toNat hn
  rw [BitVec.toNat_setWidth, BitVec.toNat_mul, hrows, Nat.mod_eq_of_lt (by omega),
    Nat.mod_eq_of_lt (by omega)]
  exact ⟨rfl, rfl⟩

/-- A pixel some lines further down. -/
theorem offset_add_pixel (rows : Word) (i j : Nat) :
    (rows * s.screen.pitch).setWidth 30 + s.screen.pixel i j =
      s.screen.pixel i (j + rows.toNat) := by
  apply BitVec.eq_of_toNat_eq
  have hdvd : 2 ^ 30 ∣ 2 ^ 32 := Nat.pow_dvd_pow 2 (by decide)
  simp only [Screen.pixel, pixelAt, BitVec.toNat_add, BitVec.toNat_setWidth, BitVec.toNat_mul,
    BitVec.toNat_ofNat]
  rw [Nat.mod_mod_of_dvd _ hdvd, ← Nat.add_mod]
  congr 1
  ring

/-- `fb_scroll_up` in the second buffer. -/
theorem scrollBack_shows (hrows : 0 < s.rows) (h : s.screen.Shows s.back pic) :
    s.screen.Shows s.scrollBack
      (pic.scrollUp s.rows.toNat s.font.height.toNat s.currentBg) := by
  intro i j hi hj
  have hle := s.rows_mul_le
  have hlast := rows_mul_eq hrows
  have hip := hi.trans_le s.screen.width_le_pitch
  have hpixel := Screen.pixel_toNat hi hj
  have hfits := s.screen.fits
  have hmid := row_lt_iff (j := j) hip ((s.rows.toNat - 1) * s.font.height.toNat)
  have hend := row_lt_iff (j := j) hip (s.rows.toNat * s.font.height.toNat)
  have hwords := Nat.mul_le_mul_right s.screen.pitch.toNat hle
  obtain ⟨hline₃₀, hline⟩ := offset_toNat (s := s) s.font.height rfl (by omega)
  obtain ⟨hmoved₃₀, hmoved⟩ := offset_toNat (s := s) ((s.rows - 1) * s.font.height)
    (line_mul_toNat (s := s) (rows_sub_one_toNat hrows) (by omega)) (by omega)
  rw [hlast, Nat.add_mul] at hend hwords
  unfold scrollBack Picture.scrollUp
  have hfill : (s.screen.pixel i j -
        ((s.rows - 1) * s.font.height * s.screen.pitch).setWidth 30).toNat <
          s.font.height.toNat * s.screen.pitch.toNat ↔
      (s.rows.toNat - 1) * s.font.height.toNat ≤ j ∧
        j < (s.rows.toNat - 1) * s.font.height.toNat + s.font.height.toNat := by
    rw [toNat_sub_lt_iff (by omega), hpixel, hmoved₃₀]
    omega
  have hmove : moveWords s.back 0 ((s.font.height * s.screen.pitch).setWidth 30)
      ((s.rows - 1) * s.font.height * s.screen.pitch).toNat (s.screen.pixel i j) =
      if j < (s.rows.toNat - 1) * s.font.height.toNat then pic i (j + s.font.height.toNat)
      else pic i j := by
    have hsrc : ((s.font.height * s.screen.pitch).setWidth 30) ≠ 0 := by
      intro hzero
      have hmul := Nat.mul_pos (height_pos hrows) (Nat.zero_lt_of_lt hip)
      rw [hzero] at hline₃₀
      simp only [BitVec.toNat_zero, BitVec.ofNat_eq_ofNat] at hline₃₀
      omega
    rw [moveWords_apply (by rw [sub_zero, hline₃₀, hmoved]; omega) hsrc, sub_zero, hpixel, hmoved,
      offset_add_pixel]
    simp only [hmid]
    split
    · exact h _ _ hi (by omega)
    · exact h _ _ hi hj
  rw [fillWords_apply, hline, hmove]
  simp only [hfill]
  split_ifs
  all_goals first | rfl | omega

/-- The rows of a rectangle on the screen are copied, and nothing else. -/
theorem flushRows_apply (s : Framebuffer) {d : DirtyRect} (hx : d.minX.toNat ≤ d.maxX.toNat)
    (hwidth : d.maxX.toNat ≤ s.screen.width.toNat)
    (hheight : d.maxY.toNat ≤ s.screen.height.toNat) {i j : Nat} (hi : i < s.screen.width.toNat)
    (hj : j < s.screen.height.toNat) :
    (d.Mem i j → s.flushRows d (s.screen.pixel i j) = s.back (s.screen.pixel i j)) ∧
      (¬d.Mem i j → s.flushRows d (s.screen.pixel i j) = s.frame (s.screen.pixel i j)) := by
  have hmax := d.maxY.isLt
  have hrun : (d.maxX - d.minX).toNat = d.maxX.toNat - d.minX.toNat :=
    BitVec.toNat_sub_of_le (BitVec.le_def.mpr hx)
  have hrows : s.flushRows d (s.screen.pixel i j) =
      if d.minX.toNat ≤ i ∧ i < d.maxX.toNat ∧ d.minY.toNat ≤ j ∧
          j < d.minY.toNat + (d.maxY.toNat - d.minY.toNat) then s.back (s.screen.pixel i j)
      else s.frame (s.screen.pixel i j) := by
    unfold flushRows
    apply forRange_rule fun n (fb : PixelBuffer) => fb (s.screen.pixel i j) =
      if d.minX.toNat ≤ i ∧ i < d.maxX.toNat ∧ d.minY.toNat ≤ j ∧ j < d.minY.toNat + n then
        s.back (s.screen.pixel i j)
      else s.frame (s.screen.pixel i j)
    · rw [if_neg (by omega)]
    · intro n fb hn hshow
      have hrow : (s.screen.pixel i j - s.screen.pixel d.minX.toNat (d.minY.toNat + n)).toNat <
          d.maxX.toNat - d.minX.toNat ↔
            d.minX.toNat ≤ i ∧ i < d.maxX.toNat ∧ j = d.minY.toNat + n := by
        rw [Screen.run_mem_iff (by omega) (by omega) hi hj]
        omega
      rw [copyFrom_apply, Screen.index_row _ _ _ (by omega), hrun, add_sub_cancel, hshow]
      simp only [hrow]
      split_ifs
      all_goals first | rfl | omega
  unfold DirtyRect.Mem
  rw [hrows]
  constructor
  · intro hin
    rw [if_pos (by omega)]
  · intro hout
    rw [if_neg (by omega)]

/-- The whole screen is copied into a new block. -/
theorem copy_shows {scr : Screen} (contents : PixelBuffer) (h : scr.Shows fb pic) :
    scr.Shows (copyFrom fb contents 0 0 (scr.height * scr.pitch).toNat) pic := by
  intro i j hi hj
  have hin := (row_lt_iff (hi.trans_le scr.width_le_pitch) scr.height.toNat).mpr hj
  rw [copyFrom_apply, sub_zero, zero_add, Screen.pixel_toNat hi hj, scr.size_toNat, if_pos hin]
  exact h i j hi hj

end Framebuffer

namespace Framebuffer

/-- The buffer that is drawn into shows the picture.  With double buffering the screen shows it too,
outside the dirty rectangle. -/
structure Buffered (start s : Framebuffer) (pic : Picture) : Prop where
  screen : s.screen = start.screen
  font : s.font = start.font
  currentBg : s.currentBg = start.currentBg
  shows : s.screen.Shows s.target pic
  minX_le : s.doubleBuffering = true → s.dirty.minX.toNat ≤ s.screen.width.toNat
  clean : s.doubleBuffering = true → ∀ i j, i < s.screen.width.toNat → j < s.screen.height.toNat →
    ¬s.dirty.Mem i j → s.frame (s.screen.pixel i j) = s.back (s.screen.pixel i j)

/-- The marked rectangle covers the old one and the new one. -/
theorem markDirty_mem {s : Framebuffer} {x y w h : Word} (hdouble : s.doubleBuffering = true)
    (hx : x.toNat + w.toNat < 2 ^ 32) (hy : y.toNat + h.toNat < 2 ^ 32) {i j : Nat}
    (hij : s.dirty.Mem i j ∨
      x.toNat ≤ i ∧ i < x.toNat + w.toNat ∧ y.toNat ≤ j ∧ j < y.toNat + h.toNat) :
    (s.markDirty x y w h).dirty.Mem i j := by
  have hxw : (x + w).toNat = x.toNat + w.toNat := by
    rw [BitVec.toNat_add, Nat.mod_eq_of_lt hx]
  have hyh : (y + h).toNat = y.toNat + h.toNat := by
    rw [BitVec.toNat_add, Nat.mod_eq_of_lt hy]
  unfold markDirty
  split
  · rename_i hnone
    obtain hold | hnew := hij
    · exact hold
    obtain hoff | rfl | rfl := hnone
    · simp [hdouble] at hoff
    · simp only [BitVec.ofNat_eq_ofNat, BitVec.toNat_ofNat, Nat.zero_mod] at hnew
      omega
    · simp only [BitVec.ofNat_eq_ofNat, BitVec.toNat_ofNat, Nat.zero_mod] at hnew
      omega
  · unfold DirtyRect.Mem at hij ⊢
    simp only [BitVec.lt_def, hxw, hyh]
    refine ⟨?_, ?_, ?_, ?_⟩
    all_goals
      split
      all_goals omega

theorem markDirty_minX_le {s : Framebuffer} {x y w h : Word} :
    (s.markDirty x y w h).dirty.minX.toNat ≤ s.dirty.minX.toNat := by
  unfold markDirty
  split
  · exact le_rfl
  · dsimp only
    split
    · rename_i hlt
      exact (BitVec.lt_def.mp hlt).le
    · exact le_rfl

namespace Buffered

variable {start s : Framebuffer} {pic pic' : Picture}

/-- Without double buffering a function draws on the screen. -/
theorem drawFrame (h : Buffered start s pic) (hdirect : s.doubleBuffering = false)
    {fb : PixelBuffer} (hfb : s.screen.Shows fb pic') :
    Buffered start { s with frame := fb } pic' := by
  refine ⟨h.screen, h.font, h.currentBg, ?_, ?_, ?_⟩
  · simpa [target, hdirect] using hfb
  · intro htrue
    simp [hdirect] at htrue
  · intro htrue
    simp [hdirect] at htrue

/-- With double buffering it draws in the second buffer and marks what it changes. -/
theorem drawBack (h : Buffered start s pic) (hdouble : s.doubleBuffering = true)
    {fb : PixelBuffer} {x y w h' : Word} (hfb : s.screen.Shows fb pic')
    (hx : x.toNat + w.toNat < 2 ^ 32) (hy : y.toNat + h'.toNat < 2 ^ 32)
    (hout : ∀ i j, i < s.screen.width.toNat → j < s.screen.height.toNat →
      ¬(x.toNat ≤ i ∧ i < x.toNat + w.toNat ∧ y.toNat ≤ j ∧ j < y.toNat + h'.toNat) →
        pic' i j = pic i j) :
    Buffered start ({ s with back := fb }.markDirty x y w h') pic' := by
  have hshows : s.screen.Shows s.back pic := by
    simpa [target, hdouble] using h.shows
  have hmem : ∀ i j, _ → DirtyRect.Mem _ i j := fun i j =>
    markDirty_mem (s := { s with back := fb }) hdouble hx hy
  have hminX : _ ≤ s.dirty.minX.toNat :=
    markDirty_minX_le (s := { s with back := fb }) (x := x) (y := y) (w := w) (h := h')
  obtain ⟨dirty, hmark⟩ := markDirty_eq { s with back := fb } x y w h'
  rw [hmark] at hmem hminX ⊢
  refine ⟨h.screen, h.font, h.currentBg, ?_, ?_, ?_⟩
  · simpa [target, hdouble] using hfb
  · exact fun _ => hminX.trans (h.minX_le hdouble)
  · intro _ i j hi hj hno
    have hclean := h.clean hdouble i j hi hj fun hold => hno (hmem i j (Or.inl hold))
    have hsame := hout i j hi hj fun hin => hno (hmem i j (Or.inr hin))
    change s.frame (s.screen.pixel i j) = fb (s.screen.pixel i j)
    rw [hclean, hshows i j hi hj, hfb i j hi hj, hsame]

/-- A loop over the buffer that is drawn into, with its mark. -/
theorem draw (h : Buffered start s pic) {f : PixelBuffer → PixelBuffer} {x y w h' : Word}
    (hf : ∀ fb, s.screen.Shows fb pic → s.screen.Shows (f fb) pic')
    (hx : x.toNat + w.toNat < 2 ^ 32) (hy : y.toNat + h'.toNat < 2 ^ 32)
    (hout : ∀ i j, i < s.screen.width.toNat → j < s.screen.height.toNat →
      ¬(x.toNat ≤ i ∧ i < x.toNat + w.toNat ∧ y.toNat ≤ j ∧ j < y.toNat + h'.toNat) →
        pic' i j = pic i j) :
    Buffered start ((s.onTarget f).markDirty x y w h') pic' := by
  have hshows := h.shows
  cases hdouble : s.doubleBuffering
  · have hdirect : (s.onTarget f).markDirty x y w h' = { s with frame := f s.frame } := by
      simp [onTarget, markDirty, hdouble]
    rw [target, if_neg (by simp [hdouble])] at hshows
    rw [hdirect]
    exact h.drawFrame hdouble (hf _ hshows)
  · have hback : s.onTarget f = { s with back := f s.back } := by
      simp [onTarget, hdouble]
    rw [target, if_pos hdouble] at hshows
    rw [hback]
    exact h.drawBack hdouble (hf _ hshows) hx hy hout

end Buffered

/-- The call of `render_glyph` that `fb_put_unicode_char` makes. -/
def charCall (s : Framebuffer) (unicode x y fg bg : Word) : GlyphCall :=
  ⟨s.font.stringGlyph unicode, x * fontWidth, y * s.font.height, fg, bg⟩

/-- The drawing calls.  Every function that draws text does it by `render_glyph`. -/
inductive FbOp
  | putPixel (x y color : Word)
  | fillRect (x y w h color : Word)
  | renderGlyph (call : GlyphCall)
  | putChar (c : BitVec 8) (x y fg bg : Word)
  | putUnicodeChar (unicode x y fg bg : Word)
  | scrollUp
  | clear (color : Word)
  | flush

/-- One call. -/
def FbOp.step (s : Framebuffer) : FbOp → Framebuffer
  | .putPixel x y color => s.putPixel x y color
  | .fillRect x y w h color => s.fillRect x y w h color
  | .renderGlyph call => s.renderGlyph call
  | .putChar c x y fg bg => s.putChar c x y fg bg
  | .putUnicodeChar unicode x y fg bg => s.putUnicodeChar unicode x y fg bg
  | .scrollUp => s.scrollUp
  | .clear color => s.clear color
  | .flush => s.flush

/-- A rectangle keeps its sums below `2 ^ 32`, and so does a glyph that passes the bounds check. -/
def FbOp.Straight (s : Framebuffer) : FbOp → Prop
  | .fillRect x y w h _ => x.toNat + w.toNat < 2 ^ 32 ∧ y.toNat + h.toNat < 2 ^ 32
  | .renderGlyph call => s.GlyphStraight call
  | .putChar c x y fg bg => s.GlyphStraight (s.charCall (c.setWidth 32) x y fg bg)
  | .putUnicodeChar unicode x y fg bg => s.GlyphStraight (s.charCall unicode x y fg bg)
  | _ => True

/-- A glyph on a picture. -/
def paintGlyph (s : Framebuffer) (pic : Picture) (call : GlyphCall) : Picture :=
  if s.GlyphShown call then
    pic.paintRect call.px.toNat call.py.toNat 8 s.font.height.toNat (glyphPicture s.font call)
  else pic

/-- What a call does to the picture. -/
def FbOp.paint (s : Framebuffer) (pic : Picture) : FbOp → Picture
  | .putPixel x y color => pic.paintRect x.toNat y.toNat 1 1 fun _ _ => color
  | .fillRect x y w h color => pic.paintRect x.toNat y.toNat w.toNat h.toNat fun _ _ => color
  | .renderGlyph call => s.paintGlyph pic call
  | .putChar c x y fg bg => s.paintGlyph pic (s.charCall (c.setWidth 32) x y fg bg)
  | .putUnicodeChar unicode x y fg bg => s.paintGlyph pic (s.charCall unicode x y fg bg)
  | .scrollUp => pic.scrollUp s.rows.toNat s.font.height.toNat s.currentBg
  | .clear color => fun _ _ => color
  | .flush => pic

namespace Buffered

variable {start s : Framebuffer} {pic pic' : Picture}

theorem congr (h : Buffered start s pic)
    (heq : ∀ i j, i < s.screen.width.toNat → j < s.screen.height.toNat → pic i j = pic' i j) :
    Buffered start s pic' :=
  ⟨h.screen, h.font, h.currentBg, h.shows.congr heq, h.minX_le, h.clean⟩

theorem rows (h : Buffered start s pic) : s.rows = start.rows := by
  unfold Framebuffer.rows
  rw [h.screen, h.font]

theorem shown_iff (h : Buffered start s pic) (call : GlyphCall) :
    s.GlyphShown call ↔ start.GlyphShown call := by
  unfold GlyphShown
  rw [h.screen, h.font]

theorem charCall_eq (h : Buffered start s pic) (unicode x y fg bg : Word) :
    s.charCall unicode x y fg bg = start.charCall unicode x y fg bg := by
  unfold charCall
  rw [h.font]

theorem putPixel (h : Buffered start s pic) (x y color : Word) :
    Buffered start (s.putPixel x y color)
      (pic.paintRect x.toNat y.toNat 1 1 fun _ _ => color) := by
  have hwidth := s.screen.width.isLt
  have hheight := s.screen.height.isLt
  have hone : (1 : Word).toNat = 1 := rfl
  unfold Framebuffer.putPixel
  split
  · rename_i hout
    rw [BitVec.le_def, BitVec.le_def] at hout
    apply h.congr
    intro i j hi hj
    unfold Picture.paintRect
    rw [if_neg (by omega)]
  · rename_i hin
    simp only [not_or, BitVec.not_le, BitVec.lt_def] at hin
    apply h.draw
    · intro fb hshow
      rw [Screen.index_eq]
      apply (hshow.update hin.1 hin.2 color).congr
      intro i j _ _
      unfold Picture.paintRect
      congr 1
      apply propext
      omega
    · omega
    · omega
    · intro i j _ _ hno
      unfold Picture.paintRect
      rw [hone] at hno
      rw [if_neg hno]

theorem fillRect (h : Buffered start s pic) {x y w h' : Word} (color : Word)
    (hx : x.toNat + w.toNat < 2 ^ 32) (hy : y.toNat + h'.toNat < 2 ^ 32) :
    Buffered start (s.fillRect x y w h' color)
      (pic.paintRect x.toNat y.toNat w.toNat h'.toNat fun _ _ => color) := by
  have hwidth := s.screen.width.isLt
  have hheight := s.screen.height.isLt
  unfold Framebuffer.fillRect
  dsimp only
  split
  · rename_i hout
    rw [BitVec.le_def, BitVec.le_def] at hout
    apply h.congr
    intro i j hi hj
    unfold Picture.paintRect
    rw [if_neg (by omega)]
  · rename_i hin
    simp only [not_or, BitVec.not_le] at hin
    have hxlt := BitVec.lt_def.mp hin.1
    have hylt := BitVec.lt_def.mp hin.2
    have hclipX := Screen.clip_toNat hin.1 hx
    have hclipY := Screen.clip_toNat hin.2 hy
    have hrows := Screen.rows_toNat hin.2 hy
    apply h.draw
    · intro fb hshow
      apply (fillLoop_shows (by rw [hclipX]; omega) hrows (by omega) hshow).congr
      intro i j hi hj
      unfold Picture.paintRect
      rw [hclipX]
      congr 1
      apply propext
      omega
    · omega
    · omega
    · intro i j hi hj hno
      unfold Picture.paintRect
      rw [hclipX, hclipY] at hno
      rw [if_neg (by omega)]

theorem renderGlyph (h : Buffered start s pic) {call : GlyphCall}
    (hstraight : start.GlyphStraight call) :
    Buffered start (s.renderGlyph call) (start.paintGlyph pic call) := by
  have hasked : Buffered start { s with asked := s.asked ++ [call] } pic :=
    ⟨h.screen, h.font, h.currentBg, h.shows, h.minX_le, h.clean⟩
  unfold Framebuffer.renderGlyph paintGlyph
  dsimp only
  split
  · rename_i hshown
    have hstart : start.GlyphShown call := (hasked.shown_iff call).mp hshown
    have hle := GlyphShown.le hstart hstraight
    rw [← h.screen, ← h.font] at hle
    have hwidth := s.screen.width.isLt
    have hheight := s.screen.height.isLt
    rw [if_pos hstart, ← h.font]
    apply hasked.draw
    · intro fb hshow
      exact glyphLoop_shows (s := { s with asked := s.asked ++ [call] }) hle.1 hle.2 hshow
    · exact hle.1.trans_lt hwidth
    · exact hle.2.trans_lt hheight
    · intro i j _ _ hno
      exact if_neg hno
  · rename_i hhidden
    rw [if_neg fun hstart => hhidden ((hasked.shown_iff call).mpr hstart)]
    exact hasked

theorem clear (h : Buffered start s pic) (color : Word) :
    Buffered start (s.clear color) fun _ _ => color := by
  have hwidth := s.screen.width.isLt
  have hheight := s.screen.height.isLt
  have hzero : (0 : Word).toNat = 0 := rfl
  have hdrawn : Buffered start
      ((s.onTarget fun fb => fillWords fb 0 color (s.screen.height * s.screen.pitch).toNat).markDirty
        0 0 s.screen.width s.screen.height) fun _ _ => color := by
    apply h.draw
    · exact fun fb _ => clear_shows s.screen fb color
    · omega
    · omega
    · intro i j hi hj hno
      omega
  exact ⟨hdrawn.screen, hdrawn.font, hdrawn.currentBg, hdrawn.shows, hdrawn.minX_le, hdrawn.clean⟩

theorem scrollUp (h : Buffered start s pic) (hrows : 0 < start.rows) :
    Buffered start s.scrollUp
      (pic.scrollUp start.rows.toNat start.font.height.toNat start.currentBg) := by
  have hwidth := s.screen.width.isLt
  have hheight := s.screen.height.isLt
  have hzero : (0 : Word).toNat = 0 := rfl
  have hshows := h.shows
  rw [← h.rows] at hrows
  rw [← h.rows, ← h.font, ← h.currentBg]
  unfold Framebuffer.scrollUp
  split
  · rename_i hdouble
    rw [target, if_pos hdouble] at hshows
    apply h.drawBack hdouble (scrollBack_shows hrows hshows)
    · omega
    · omega
    · intro i j hi hj hno
      omega
  · rename_i hdirect
    rw [target, if_neg hdirect] at hshows
    exact h.drawFrame (by simpa using hdirect) (scrollFrame_shows hrows hshows)

/-- A screen that has been flushed shows the picture. -/
theorem flush_shows (h : Buffered start s pic) : s.screen.Shows s.flush.frame pic := by
  have hshows := h.shows
  unfold Framebuffer.flush
  split
  · rename_i hnone
    cases hdouble : s.doubleBuffering
    · rwa [target, if_neg (by simp [hdouble])] at hshows
    · rw [target, if_pos hdouble] at hshows
      have hempty : s.isDirty = false := by simpa [hdouble] using hnone
      intro i j hi hj
      rw [h.clean hdouble i j hi hj, hshows i j hi hj]
      rintro ⟨hminX, hmaxX, hminY, hmaxY⟩
      have hdirty : s.isDirty = true := by
        unfold isDirty
        simp only [BitVec.lt_def, Bool.and_eq_true, decide_eq_true_eq]
        omega
      simp [hdirty] at hempty
  · rename_i hdirty
    simp only [not_or, Bool.not_eq_false] at hdirty
    obtain ⟨hdouble, hdirty⟩ := hdirty
    rw [target, if_pos hdouble] at hshows
    unfold isDirty at hdirty
    simp only [BitVec.lt_def, Bool.and_eq_true, decide_eq_true_eq] at hdirty
    have hminX := h.minX_le hdouble
    have hmaxX : s.clipDirty.maxX.toNat = min s.screen.width.toNat s.dirty.maxX.toNat := by
      simp only [clipDirty, BitVec.lt_def]
      split <;> omega
    have hmaxY : s.clipDirty.maxY.toNat = min s.screen.height.toNat s.dirty.maxY.toNat := by
      simp only [clipDirty, BitVec.lt_def]
      split <;> omega
    have hmin : s.clipDirty.minX = s.dirty.minX ∧ s.clipDirty.minY = s.dirty.minY := ⟨rfl, rfl⟩
    intro i j hi hj
    change s.flushRows s.clipDirty (s.screen.pixel i j) = pic i j
    have hflush := s.flushRows_apply (d := s.clipDirty) (by rw [hmin.1]; omega) (by omega)
      (by omega) hi hj
    by_cases hmem : s.clipDirty.Mem i j
    · rw [hflush.1 hmem, hshows i j hi hj]
    · rw [hflush.2 hmem, h.clean hdouble i j hi hj, hshows i j hi hj]
      intro hold
      apply hmem
      unfold DirtyRect.Mem at hold ⊢
      rw [hmaxX, hmaxY, hmin.1, hmin.2]
      omega

theorem flush (h : Buffered start s pic) : Buffered start s.flush pic := by
  have hframe := h.flush_shows
  have hshows := h.shows
  unfold Framebuffer.flush at hframe ⊢
  split
  · exact h
  · rename_i hdirty
    simp only [not_or, Bool.not_eq_false] at hdirty
    rw [if_neg (by simp [hdirty])] at hframe
    rw [target, if_pos hdirty.1] at hshows
    refine ⟨h.screen, h.font, h.currentBg, ?_, fun _ => le_rfl, ?_⟩
    · simpa [target, resetDirty, hdirty.1] using hshows
    · intro _ i j hi hj _
      exact (hframe i j hi hj).trans (hshows i j hi hj).symm

theorem step (h : Buffered start s pic) (hrows : 0 < start.rows) {op : FbOp}
    (hstraight : op.Straight start) : Buffered start (op.step s) (op.paint start pic) := by
  cases op with
  | putPixel x y color => exact h.putPixel x y color
  | fillRect x y w h' color => exact h.fillRect color hstraight.1 hstraight.2
  | renderGlyph call => exact h.renderGlyph hstraight
  | putChar c x y fg bg =>
    change Buffered start (s.renderGlyph (s.charCall _ x y fg bg)) _
    rw [h.charCall_eq]
    exact h.renderGlyph hstraight
  | putUnicodeChar unicode x y fg bg =>
    change Buffered start (s.renderGlyph (s.charCall unicode x y fg bg)) _
    rw [h.charCall_eq]
    exact h.renderGlyph hstraight
  | scrollUp => exact h.scrollUp hrows
  | clear color => exact h.clear color
  | flush => exact h.flush

theorem run (h : Buffered start s pic) (hrows : 0 < start.rows) {ops : List FbOp}
    (hstraight : ∀ op ∈ ops, op.Straight start) :
    Buffered start (ops.foldl FbOp.step s) (ops.foldl (FbOp.paint start) pic) := by
  induction ops generalizing s pic with
  | nil => exact h
  | cons op ops ih =>
    exact ih (h.step hrows (hstraight op List.mem_cons_self)) fun op' hop =>
      hstraight op' (List.mem_cons_of_mem op hop)

/-- A screen without double buffering shows what it shows. -/
theorem ofDirect (hdirect : s.doubleBuffering = false) :
    Buffered s s fun i j => s.frame (s.screen.pixel i j) := by
  refine ⟨rfl, rfl, rfl, ?_, ?_, ?_⟩
  · rw [target, if_neg (by simp [hdirect])]
    exact fun _ _ _ _ => rfl
  · intro htrue
    simp [hdirect] at htrue
  · intro htrue
    simp [hdirect] at htrue

/-- `fb_enable_double_buffering` starts with two equal buffers. -/
theorem enableDoubleBuffering (h : Buffered start s pic) (contents : PixelBuffer) :
    Buffered start (s.enableDoubleBuffering (some contents)) pic := by
  have hshows := h.shows
  unfold Framebuffer.enableDoubleBuffering
  split
  · exact h
  · rename_i hdirect
    rw [target, if_neg hdirect] at hshows
    have hback := copy_shows contents hshows
    refine ⟨h.screen, h.font, h.currentBg, ?_, fun _ => le_rfl, ?_⟩
    · exact hback
    · intro _ i j hi hj _
      exact (hshows i j hi hj).trans (hback i j hi hj).symm

end Buffered

/-- Double buffering is switched on somewhere in a run of drawing calls, and the run ends with
`fb_flush`: every visible pixel is the one that the run shows without double buffering. -/
theorem double_buffering_shows (s : Framebuffer) (hdirect : s.doubleBuffering = false)
    (hrows : 0 < s.rows) (contents : PixelBuffer) (before after : List FbOp)
    (hstraight : ∀ op ∈ before ++ after, op.Straight s) (i j : Nat)
    (hi : i < s.screen.width.toNat) (hj : j < s.screen.height.toNat) :
    (after.foldl FbOp.step
        ((before.foldl FbOp.step s).enableDoubleBuffering (some contents))).flush.frame
          (s.screen.pixel i j) =
      ((before ++ after).foldl FbOp.step s).flush.frame (s.screen.pixel i j) := by
  have hbefore := (Buffered.ofDirect hdirect).run hrows fun op hop =>
    hstraight op (List.mem_append_left after hop)
  have hdouble := (hbefore.enableDoubleBuffering contents).run hrows fun op hop =>
    hstraight op (List.mem_append_right before hop)
  have hall := (Buffered.ofDirect hdirect).run hrows hstraight
  have hleft := hdouble.flush_shows
  have hright := hall.flush_shows
  rw [hdouble.screen] at hleft
  rw [hall.screen] at hright
  rw [hleft i j hi hj, hright i j hi hj, List.foldl_append]

/-- A rectangle before, a glyph and a scroll after. -/
theorem double_buffering_sample :
    let s := fbInit ⟨8, 32, 8, by decide, by decide⟩ ⟨16, 0, 0, 0, none, by simp⟩ 0
    ([FbOp.putChar 0x41 0 1 1 0, FbOp.scrollUp].foldl FbOp.step
        (([FbOp.fillRect 1 2 3 40 7].foldl FbOp.step s).enableDoubleBuffering
          (some 0))).flush.frame (s.screen.pixel 2 9) =
      (([FbOp.fillRect 1 2 3 40 7] ++ [FbOp.putChar 0x41 0 1 1 0, FbOp.scrollUp]).foldl
        FbOp.step s).flush.frame (s.screen.pixel 2 9) := by
  intro s
  apply double_buffering_shows s rfl (by decide) 0 [.fillRect 1 2 3 40 7]
    [.putChar 0x41 0 1 1 0, .scrollUp] _ 2 9 (by decide) (by decide)
  intro op hop
  simp only [List.singleton_append, List.mem_cons, List.not_mem_nil, or_false] at hop
  obtain rfl | rfl | rfl := hop
  · exact ⟨by decide, by decide⟩
  · exact fun _ => ⟨by decide, by decide⟩
  · trivial

/-- A glyph at the column before the first one is drawn into the row above, and not flushed. -/
theorem wrapped_glyph_not_flushed :
    let s := fbInit ⟨8, 32, 8, by decide, by decide⟩ ⟨16, 0, 0, 0, none, by simp⟩ 1
    let op := FbOp.putChar 0x41 0x1FFFFFFF 1 0 0
    (op.step (s.enableDoubleBuffering (some 0))).flush.frame (s.screen.pixel 0 15) ≠
      (op.step s).flush.frame (s.screen.pixel 0 15) := by
  decide +kernel

end Framebuffer

end EnclaveOS
