import EnclaveOS.Console.Framebuffer

/-!
# Rectangles - which words fb_fill_rect and fb_draw_rect write

The clipping adds a width to a column modulo `2 ^ 32`.  A sum that wraps passes the test: in a
row the whole width is then stored, which is more than there are words, and over the rows the loop
does not start.
-/

namespace EnclaveOS

open PageWord

/-- The words of a set get the colour, and no other word of the two buffers changes. -/
structure Framebuffer.Paints (s t : Framebuffer) (words : BitVec 30 → Prop) (color : Word) :
    Prop where
  screen : t.screen = s.screen
  doubleBuffering : t.doubleBuffering = s.doubleBuffering
  painted : ∀ b, words b → t.target b = color
  kept : ∀ b, ¬words b → t.target b = s.target b
  frame_kept : s.doubleBuffering = true → t.frame = s.frame
  back_kept : s.doubleBuffering = false → t.back = s.back

namespace Framebuffer.Paints

variable {s t u : Framebuffer} {words words' : BitVec 30 → Prop} {color : Word}

theorem refl (s : Framebuffer) (color : Word) : s.Paints s (fun _ => False) color :=
  ⟨rfl, rfl, fun _ h => h.elim, fun _ _ => rfl, fun _ => rfl, fun _ => rfl⟩

theorem congr (h : s.Paints t words color) (heq : ∀ b, words b ↔ words' b) :
    s.Paints t words' color := by
  have hset : words = words' := funext fun b => propext (heq b)
  rwa [← hset]

/-- One painting after another. -/
theorem trans (h : s.Paints t words color) (h' : t.Paints u words' color) :
    s.Paints u (fun b => words b ∨ words' b) color where
  screen := h'.screen.trans h.screen
  doubleBuffering := h'.doubleBuffering.trans h.doubleBuffering
  painted b hb := by
    by_cases hlast : words' b
    · exact h'.painted b hlast
    · rw [h'.kept b hlast]
      exact h.painted b (hb.resolve_right hlast)
  kept b hb := by
    rw [h'.kept b fun hlast => hb (Or.inr hlast), h.kept b fun hfirst => hb (Or.inl hfirst)]
  frame_kept hdouble := by
    rw [h'.frame_kept (h.doubleBuffering.trans hdouble), h.frame_kept hdouble]
  back_kept hdirect := by
    rw [h'.back_kept (h.doubleBuffering.trans hdirect), h.back_kept hdirect]

/-- A loop over the buffer that is drawn into. -/
theorem onTarget {f : PixelBuffer → PixelBuffer} (x y w h : Word)
    (hpaint : ∀ fb b, words b → f fb b = color) (hkeep : ∀ fb b, ¬words b → f fb b = fb b) :
    s.Paints ((s.onTarget f).markDirty x y w h) words color := by
  obtain ⟨dirty, hdirty⟩ := (s.onTarget f).markDirty_eq x y w h
  rw [hdirty]
  unfold Framebuffer.onTarget
  split
  · rename_i hdouble
    refine ⟨rfl, rfl, ?_, ?_, fun _ => rfl, fun h => by simp [h] at hdouble⟩
    · intro b hb
      simpa [target, hdouble] using hpaint s.back b hb
    · intro b hb
      simpa [target, hdouble] using hkeep s.back b hb
  · rename_i hdirect
    refine ⟨rfl, rfl, ?_, ?_, fun h => absurd h hdirect, fun _ => rfl⟩
    · intro b hb
      simpa [target, hdirect] using hpaint s.frame b hb
    · intro b hb
      simpa [target, hdirect] using hkeep s.frame b hb

end Framebuffer.Paints

/-- The pixels of a rectangle that are on the screen; the sums are those of integers. -/
def Screen.InRect (scr : Screen) (x y w h : Word) (i j : Nat) : Prop :=
  x.toNat ≤ i ∧ i < x.toNat + w.toNat ∧ y.toNat ≤ j ∧ j < y.toNat + h.toNat ∧
    i < scr.width.toNat ∧ j < scr.height.toNat

/-- The pixels of its outline. -/
def Screen.InOutline (scr : Screen) (x y w h : Word) (i j : Nat) : Prop :=
  scr.InRect x y w h i j ∧
    (i = x.toNat ∨ i + 1 = x.toNat + w.toNat ∨ j = y.toNat ∨ j + 1 = y.toNat + h.toNat)

/-- The words of some pixels. -/
def Screen.WordsOf (scr : Screen) (pixels : Nat → Nat → Prop) (b : BitVec 30) : Prop :=
  ∃ i j, pixels i j ∧ b = scr.pixel i j

/-- The words of `n` rows, `w` from a column on. -/
def Screen.RowsTouch (scr : Screen) (x y w : Word) (n : Nat) (b : BitVec 30) : Prop :=
  ∃ k < n, (b - scr.index x (y + BitVec.ofNat 32 k)).toNat < w.toNat

/-- The words that `fb_fill_rect` stores into. -/
def Screen.FillTouches (scr : Screen) (x y w h : Word) (b : BitVec 30) : Prop :=
  let w := if scr.width < x + w then scr.width - x else w
  let h := if scr.height < y + h then scr.height - y else h
  x < scr.width ∧ y < scr.height ∧ scr.RowsTouch x y w ((y + h).toNat - y.toNat) b

/-- The sums do not wrap, or nothing is asked for. -/
def Screen.FillFits (scr : Screen) (x y w h : Word) : Prop :=
  scr.width ≤ x ∨ scr.height ≤ y ∨ w = 0 ∨ h = 0 ∨
    (x.toNat + w.toNat < 2 ^ 32 ∧ y.toNat + h.toNat < 2 ^ 32)

/-- Some word is stored into. -/
def Screen.FillLands (scr : Screen) (x y w h : Word) : Prop :=
  x < scr.width ∧ y < scr.height ∧ w ≠ 0 ∧ h ≠ 0 ∧ y.toNat + h.toNat < 2 ^ 32

/-- The words that `fb_draw_rect` stores into. -/
def Screen.DrawTouches (scr : Screen) (x y w h : Word) (b : BitVec 30) : Prop :=
  ((scr.FillTouches x y w 1 b ∨ scr.FillTouches x (y + h - 1) w 1 b) ∨
    scr.FillTouches x (y + 1) 1 (h - 2) b) ∨
      scr.FillTouches (x + w - 1) (y + 1) 1 (h - 2) b

/-- A rectangle that starts on the screen keeps its sums below `2 ^ 32`; of another one, no side
lands on the screen by wrapping. -/
def Screen.OutlineFits (scr : Screen) (x y w h : Word) : Prop :=
  if x < scr.width ∧ y < scr.height then
    x.toNat + w.toNat < 2 ^ 32 ∧ y.toNat + h.toNat ≤ 2 ^ 32
  else
    ¬scr.FillLands x (y + h - 1) w 1 ∧ ¬scr.FillLands x (y + 1) 1 (h - 2) ∧
      ¬scr.FillLands (x + w - 1) (y + 1) 1 (h - 2)

namespace Framebuffer

theorem fillLoop_apply (scr : Screen) (x y w h color : Word) (fb : PixelBuffer) (b : BitVec 30) :
    (scr.RowsTouch x y w ((y + h).toNat - y.toNat) b →
        fillLoop scr x y w h color fb b = color) ∧
      (¬scr.RowsTouch x y w ((y + h).toNat - y.toNat) b →
        fillLoop scr x y w h color fb b = fb b) := by
  unfold fillLoop
  apply forRange_rule fun n (m : PixelBuffer) =>
    (scr.RowsTouch x y w n b → m b = color) ∧ (¬scr.RowsTouch x y w n b → m b = fb b)
  · constructor
    · rintro ⟨k, hk, -⟩
      omega
    · exact fun _ => rfl
  · intro n m hn ih
    rw [fillWords_apply]
    split
    · rename_i hrow
      exact ⟨fun _ => rfl, fun hno => absurd ⟨n, Nat.lt_succ_self n, hrow⟩ hno⟩
    · rename_i hrow
      constructor
      · rintro ⟨k, hk, hin⟩
        obtain rfl | hlt := Nat.eq_or_lt_of_le (Nat.le_of_lt_succ hk)
        · exact absurd hin hrow
        · exact ih.1 ⟨k, hlt, hin⟩
      · intro hno
        apply ih.2
        rintro ⟨k, hk, hin⟩
        exact hno ⟨k, Nat.lt_succ_of_lt hk, hin⟩

/-- Every word after `fb_fill_rect`. -/
theorem fillRect_paints (s : Framebuffer) (x y w h color : Word) :
    s.Paints (s.fillRect x y w h color) (s.screen.FillTouches x y w h) color := by
  unfold fillRect
  split
  · rename_i hout
    apply (Paints.refl s color).congr
    intro b
    refine ⟨False.elim, fun hb => ?_⟩
    obtain hwide | hhigh := hout
    · exact absurd hb.1 (BitVec.not_lt.mpr hwide)
    · exact absurd hb.2.1 (BitVec.not_lt.mpr hhigh)
  · rename_i hin
    simp only [not_or, BitVec.not_le] at hin
    apply Paints.onTarget
    · intro fb b hb
      exact (fillLoop_apply _ _ _ _ _ _ _ _).1 hb.2.2
    · intro fb b hb
      apply (fillLoop_apply _ _ _ _ _ _ _ _).2
      exact fun hrows => hb ⟨hin.1, hin.2, hrows⟩

theorem drawRect_paints (s : Framebuffer) (x y w h color : Word) :
    s.Paints (s.drawRect x y w h color) (s.screen.DrawTouches x y w h) color := by
  have htop := s.fillRect_paints x y w 1 color
  have hbottom := fillRect_paints (s.fillRect x y w 1 color) x (y + h - 1) w 1 color
  rw [htop.screen] at hbottom
  have hleft := fillRect_paints ((s.fillRect x y w 1 color).fillRect x (y + h - 1) w 1 color)
    x (y + 1) 1 (h - 2) color
  rw [(htop.trans hbottom).screen] at hleft
  have hright := fillRect_paints
    (((s.fillRect x y w 1 color).fillRect x (y + h - 1) w 1 color).fillRect
      x (y + 1) 1 (h - 2) color)
    (x + w - 1) (y + 1) 1 (h - 2) color
  rw [((htop.trans hbottom).trans hleft).screen] at hright
  exact ((htop.trans hbottom).trans hleft).trans hright

end Framebuffer

namespace Screen

variable {scr : Screen} {x y w h : Word} {b : BitVec 30}

theorem toNat_pos {n : Word} (h : n ≠ 0) : 0 < n.toNat := by
  rw [Nat.pos_iff_ne_zero]
  exact fun hzero => h (BitVec.eq_of_toNat_eq (by simpa using hzero))

theorem index_row (scr : Screen) (x y : Word) {k : Nat} (hk : k < 2 ^ 32) :
    scr.index x (y + BitVec.ofNat 32 k) = scr.pixel x.toNat (y.toNat + k) := by
  have hadd := scr.index_add x 0 y (BitVec.ofNat 32 k)
  rw [BitVec.toNat_ofNat, Nat.mod_eq_of_lt hk] at hadd
  simpa using hadd

/-- Rows inside the screen are runs of pixels. -/
theorem rowsTouch_iff {n : Nat} (hx : x.toNat + w.toNat ≤ scr.width.toNat)
    (hy : y.toNat + n ≤ scr.height.toNat) :
    scr.RowsTouch x y w n b ↔ ∃ i j, x.toNat ≤ i ∧ i < x.toNat + w.toNat ∧ y.toNat ≤ j ∧
      j < y.toNat + n ∧ b = scr.pixel i j := by
  have hheight := scr.height.isLt
  constructor
  · rintro ⟨k, hk, hin⟩
    rw [index_row scr x y (by omega), run_iff hx (by omega)] at hin
    obtain ⟨i, hle, hlt, rfl⟩ := hin
    exact ⟨i, y.toNat + k, hle, hlt, by omega, by omega, rfl⟩
  · rintro ⟨i, j, hxle, hxlt, hyle, hylt, rfl⟩
    refine ⟨j - y.toNat, by omega, ?_⟩
    rw [index_row scr x y (by omega), run_iff hx (by omega)]
    exact ⟨i, hxle, hxlt, by rw [Nat.add_sub_cancel' hyle]⟩

/-- A clipped length. -/
theorem clip_toNat {a n d : Word} (ha : a < n) (hfits : a.toNat + d.toNat < 2 ^ 32) :
    (if n < a + d then n - a else d).toNat = min d.toNat (n.toNat - a.toNat) := by
  have hlt := BitVec.lt_def.mp ha
  have hsum : (a + d).toNat = a.toNat + d.toNat := by
    rw [BitVec.toNat_add, Nat.mod_eq_of_lt hfits]
  simp only [BitVec.lt_def, hsum]
  split
  · rw [BitVec.toNat_sub_of_le (BitVec.le_of_lt ha)]
    omega
  · omega

theorem rows_toNat (hy : y < scr.height) (hfits : y.toNat + h.toNat < 2 ^ 32) :
    (y + if scr.height < y + h then scr.height - y else h).toNat - y.toNat =
      min h.toNat (scr.height.toNat - y.toNat) := by
  have hclip := clip_toNat hy hfits
  rw [BitVec.toNat_add, Nat.mod_eq_of_lt (by omega), hclip]
  omega

/-- Nothing is stored when nothing is asked for. -/
theorem not_fillTouches_of_zero (hzero : w = 0 ∨ h = 0) : ¬scr.FillTouches x y w h b := by
  rintro ⟨hx, hy, k, hk, hin⟩
  obtain rfl | rfl := hzero
  · have hclip := clip_toNat hx (d := 0) (by simpa using x.isLt)
    rw [hclip] at hin
    simp at hin
  · have hrows := rows_toNat hy (h := 0) (by simpa using y.isLt)
    rw [hrows] at hk
    simp at hk

theorem fillTouches_of_sums (hx : x < scr.width) (hy : y < scr.height)
    (hw : x.toNat + w.toNat < 2 ^ 32) (hh : y.toNat + h.toNat < 2 ^ 32) :
    scr.FillTouches x y w h b ↔ scr.WordsOf (scr.InRect x y w h) b := by
  have hxlt := BitVec.lt_def.mp hx
  have hylt := BitVec.lt_def.mp hy
  have hclip := clip_toNat hx hw
  have hrows : scr.FillTouches x y w h b ↔ _ :=
    (and_iff_right hx).trans ((and_iff_right hy).trans
      (rowsTouch_iff (by rw [hclip]; omega) (by rw [rows_toNat hy hh]; omega)))
  rw [hrows, hclip, rows_toNat hy hh]
  constructor
  · rintro ⟨i, j, hxle, hilt, hyle, hjlt, rfl⟩
    exact ⟨i, j, ⟨hxle, by omega, hyle, by omega, by omega, by omega⟩, rfl⟩
  · rintro ⟨i, j, ⟨hxle, hilt, hyle, hjlt, hi, hj⟩, rfl⟩
    exact ⟨i, j, hxle, by omega, hyle, by omega, rfl⟩

theorem fillTouches_of_fits (hfits : scr.FillFits x y w h) :
    scr.FillTouches x y w h b ↔ scr.WordsOf (scr.InRect x y w h) b := by
  by_cases hin : x < scr.width ∧ y < scr.height ∧ w ≠ 0 ∧ h ≠ 0
  · obtain ⟨hx, hy, hw, hh⟩ := hin
    obtain hwide | hhigh | hzero | hzero | ⟨hxw, hyh⟩ := hfits
    · exact absurd hx (BitVec.not_lt.mpr hwide)
    · exact absurd hy (BitVec.not_lt.mpr hhigh)
    · exact absurd hzero hw
    · exact absurd hzero hh
    · exact fillTouches_of_sums hx hy hxw hyh
  · -- neither side has a word
    constructor
    · intro hb
      have hzero : ¬(w = 0 ∨ h = 0) := fun hzero => not_fillTouches_of_zero hzero hb
      rw [not_or] at hzero
      exact absurd ⟨hb.1, hb.2.1, hzero⟩ hin
    · rintro ⟨i, j, hij, -⟩
      simp only [InRect] at hij
      have hw : w ≠ 0 := by
        rintro rfl
        simp at hij
        omega
      have hh : h ≠ 0 := by
        rintro rfl
        simp at hij
        omega
      exact absurd ⟨BitVec.lt_def.mpr (by omega), BitVec.lt_def.mpr (by omega), hw, hh⟩ hin

/-- The last row wraps: the loop over the rows does not start. -/
theorem not_fillTouches_of_wrap (hh : 2 ^ 32 ≤ y.toNat + h.toNat) :
    ¬scr.FillTouches x y w h b := by
  rintro ⟨hx, hy, k, hk, -⟩
  have hylt := BitVec.lt_def.mp hy
  have hhlt := h.isLt
  have hheight := scr.height.isLt
  have hsum : (y + h).toNat = y.toNat + h.toNat - 2 ^ 32 := by
    rw [BitVec.toNat_add, Nat.mod_eq_sub_mod hh, Nat.mod_eq_of_lt (by omega)]
  have hclip : ¬scr.height < y + h := by
    rw [BitVec.lt_def, hsum]
    omega
  rw [if_neg hclip, hsum] at hk
  omega

/-- The last column wraps: a row takes every word there is. -/
theorem fillTouches_of_wrap (hx : x < scr.width) (hy : y < scr.height) (hpos : h ≠ 0)
    (hh : y.toNat + h.toNat < 2 ^ 32) (hw : 2 ^ 32 ≤ x.toNat + w.toNat) (b : BitVec 30) :
    scr.FillTouches x y w h b := by
  have hxlt := BitVec.lt_def.mp hx
  have hylt := BitVec.lt_def.mp hy
  have hwlt := w.isLt
  have hwidth := width_lt hylt
  have hne := toNat_pos hpos
  have hsum : (x + w).toNat = x.toNat + w.toNat - 2 ^ 32 := by
    rw [BitVec.toNat_add, Nat.mod_eq_sub_mod hw, Nat.mod_eq_of_lt (by omega)]
  have hclip : ¬scr.width < x + w := by
    rw [BitVec.lt_def, hsum]
    omega
  have hrows := rows_toNat hy hh
  refine ⟨hx, hy, 0, by rw [hrows]; omega, ?_⟩
  rw [if_neg hclip]
  exact (b - _).isLt.trans (by omega)

theorem lands_of_fillTouches (hb : scr.FillTouches x y w h b) : scr.FillLands x y w h := by
  refine ⟨hb.1, hb.2.1, ?_, ?_, ?_⟩
  · exact fun hzero => not_fillTouches_of_zero (Or.inl hzero) hb
  · exact fun hzero => not_fillTouches_of_zero (Or.inr hzero) hb
  · exact Nat.lt_of_not_le fun hwrap => not_fillTouches_of_wrap hwrap hb

/-- A call that stores anything stores into the first pixel of the rectangle. -/
theorem FillLands.touches (hlands : scr.FillLands x y w h) :
    scr.FillTouches x y w h (scr.pixel x.toNat y.toNat) := by
  obtain ⟨hx, hy, hw, hh, hsum⟩ := hlands
  by_cases hwrap : x.toNat + w.toNat < 2 ^ 32
  · rw [fillTouches_of_sums hx hy hwrap hsum]
    have hxlt := BitVec.lt_def.mp hx
    have hylt := BitVec.lt_def.mp hy
    have hwpos := toNat_pos hw
    have hhpos := toNat_pos hh
    exact ⟨_, _, ⟨le_rfl, by omega, le_rfl, by omega, hxlt, hylt⟩, rfl⟩
  · exact fillTouches_of_wrap hx hy hh hsum (Nat.le_of_not_lt hwrap) _

/-- A row that takes every word takes some outside the rectangle. -/
theorem not_inRect_zero (hw : 2 ^ 32 ≤ x.toNat + w.toNat) {j : Nat} (h' : Word)
    (hj : j < scr.height.toNat) (hwidth : 0 < scr.width.toNat) :
    ¬scr.WordsOf (scr.InRect x y w h') (scr.pixel 0 j) := by
  have hwlt := w.isLt
  rintro ⟨i, j', ⟨hxle, -, -, -, hi, hj'⟩, heq⟩
  obtain ⟨rfl, -⟩ := (pixel_inj hwidth hi hj hj').mp heq
  omega

/-- The words are the rectangle's exactly when the sums do not wrap. -/
theorem fillTouches_iff_fits :
    (∀ b, scr.FillTouches x y w h b ↔ scr.WordsOf (scr.InRect x y w h) b) ↔
      scr.FillFits x y w h := by
  refine ⟨fun hexact => ?_, fun hfits b => fillTouches_of_fits hfits⟩
  by_contra hfits
  simp only [FillFits, not_or, BitVec.not_le] at hfits
  obtain ⟨hx, hy, hw, hh, hsums⟩ := hfits
  have hxlt := BitVec.lt_def.mp hx
  have hylt := BitVec.lt_def.mp hy
  by_cases hrow : y.toNat + h.toNat < 2 ^ 32
  · have hcol : 2 ^ 32 ≤ x.toNat + w.toNat := by omega
    apply not_inRect_zero (y := y) hcol h hylt (by omega)
    exact (hexact _).mp (fillTouches_of_wrap hx hy hh hrow hcol _)
  · -- the rectangle has its first pixel, and no word is stored
    have hwpos := toNat_pos hw
    have hhpos := toNat_pos hh
    apply not_fillTouches_of_wrap (Nat.le_of_not_lt hrow)
    rw [hexact (scr.pixel x.toNat y.toNat)]
    exact ⟨_, _, ⟨le_rfl, by omega, le_rfl, by omega, hxlt, hylt⟩, rfl⟩

theorem not_wordsOf_of_outside {P : Nat → Nat → Prop} (hout : ¬(x < scr.width ∧ y < scr.height))
    (hP : ∀ i j, P i j → scr.InRect x y w h i j) : ¬scr.WordsOf P b := by
  rintro ⟨i, j, hij, -⟩
  have hin := hP i j hij
  simp only [InRect] at hin
  exact hout ⟨BitVec.lt_def.mpr (by omega), BitVec.lt_def.mpr (by omega)⟩

theorem not_fillTouches_of_outside (hout : ¬(x < scr.width ∧ y < scr.height)) :
    ¬scr.FillTouches x y w h b :=
  fun hb => hout ⟨hb.1, hb.2.1⟩

/-- A rectangle off the screen has an empty outline there. -/
theorem drawTouches_iff_of_outside (hout : ¬(x < scr.width ∧ y < scr.height)) :
    (∀ b, scr.DrawTouches x y w h b ↔ scr.WordsOf (scr.InOutline x y w h) b) ↔
      ¬scr.FillLands x (y + h - 1) w 1 ∧ ¬scr.FillLands x (y + 1) 1 (h - 2) ∧
        ¬scr.FillLands (x + w - 1) (y + 1) 1 (h - 2) := by
  have hempty : ∀ b, ¬scr.WordsOf (scr.InOutline x y w h) b := fun b =>
    not_wordsOf_of_outside hout fun _ _ hij => hij.1
  constructor
  · intro hexact
    have hnone : ∀ b, ¬scr.DrawTouches x y w h b := fun b hb => hempty b ((hexact b).mp hb)
    refine ⟨fun hl => ?_, fun hl => ?_, fun hl => ?_⟩
    · exact hnone _ (Or.inl (Or.inl (Or.inr hl.touches)))
    · exact hnone _ (Or.inl (Or.inr hl.touches))
    · exact hnone _ (Or.inr hl.touches)
  · rintro ⟨hbottom, hleft, hright⟩ b
    refine ⟨fun hb => ?_, fun hb => absurd hb (hempty b)⟩
    obtain ((htop | hb) | hb) | hb := hb
    · exact absurd htop (not_fillTouches_of_outside hout)
    · exact absurd (lands_of_fillTouches hb) hbottom
    · exact absurd (lands_of_fillTouches hb) hleft
    · exact absurd (lands_of_fillTouches hb) hright

/-- The four calls of a rectangle that starts on the screen and does not wrap. -/
theorem drawTouches_of_fits (hx : x < scr.width) (hy : y < scr.height) (hw : 2 ≤ w) (hh : 2 ≤ h)
    (hxw : x.toNat + w.toNat < 2 ^ 32) (hyh : y.toNat + h.toNat ≤ 2 ^ 32) :
    scr.DrawTouches x y w h b ↔ scr.WordsOf (scr.InOutline x y w h) b := by
  have hxlt := BitVec.lt_def.mp hx
  have hylt := BitVec.lt_def.mp hy
  have hwle : 2 ≤ w.toNat := BitVec.le_def.mp hw
  have hhle : 2 ≤ h.toNat := BitVec.le_def.mp hh
  have hwidth := scr.width.isLt
  have hheight := scr.height.isLt
  have hx₂ : (x + w - 1).toNat = x.toNat + w.toNat - 1 := by bv_omega
  have hy₁ : (y + 1).toNat = y.toNat + 1 := by bv_omega
  have hy₂ : (y + h - 1).toNat = y.toNat + h.toNat - 1 := by bv_omega
  have hside : (h - 2).toNat = h.toNat - 2 := by bv_omega
  have htop : scr.FillFits x y w 1 := Or.inr (Or.inr (Or.inr (Or.inr ⟨hxw, by simp; omega⟩)))
  have hbottom : scr.FillFits x (y + h - 1) w 1 := by
    by_cases hlast : y.toNat + h.toNat < 2 ^ 32
    · exact Or.inr (Or.inr (Or.inr (Or.inr ⟨hxw, by simp; omega⟩)))
    · exact Or.inr (Or.inl (BitVec.le_def.mpr (by omega)))
  have hleft : scr.FillFits x (y + 1) 1 (h - 2) :=
    Or.inr (Or.inr (Or.inr (Or.inr ⟨by simp; omega, by omega⟩)))
  have hright : scr.FillFits (x + w - 1) (y + 1) 1 (h - 2) :=
    Or.inr (Or.inr (Or.inr (Or.inr ⟨by simp; omega, by omega⟩)))
  unfold DrawTouches
  rw [fillTouches_of_fits htop, fillTouches_of_fits hbottom, fillTouches_of_fits hleft,
    fillTouches_of_fits hright]
  have hone : (1 : Word).toNat = 1 := rfl
  constructor
  · rintro (((⟨i, j, hij, rfl⟩ | ⟨i, j, hij, rfl⟩) | ⟨i, j, hij, rfl⟩) | ⟨i, j, hij, rfl⟩) <;>
    · simp only [InRect, hx₂, hy₁, hy₂, hside, hone] at hij
      exact ⟨i, j, ⟨⟨by omega, by omega, by omega, by omega, by omega, by omega⟩, by omega⟩, rfl⟩
  · rintro ⟨i, j, ⟨hij, hedge⟩, rfl⟩
    simp only [InRect] at hij
    by_cases hj : j = y.toNat
    · refine Or.inl (Or.inl (Or.inl ⟨i, j, ?_, rfl⟩))
      simp only [InRect, hone]
      omega
    by_cases hj₂ : j + 1 = y.toNat + h.toNat
    · refine Or.inl (Or.inl (Or.inr ⟨i, j, ?_, rfl⟩))
      simp only [InRect, hy₂, hone]
      omega
    by_cases hi : i = x.toNat
    · refine Or.inl (Or.inr ⟨i, j, ?_, rfl⟩)
      simp only [InRect, hy₁, hside, hone]
      omega
    · refine Or.inr ⟨i, j, ?_, rfl⟩
      simp only [InRect, hx₂, hy₁, hside, hone]
      omega

theorem drawTouches_iff_fits (hw : 2 ≤ w) (hh : 2 ≤ h) :
    (∀ b, scr.DrawTouches x y w h b ↔ scr.WordsOf (scr.InOutline x y w h) b) ↔
      scr.OutlineFits x y w h := by
  unfold OutlineFits
  split
  swap
  · rename_i hout
    exact drawTouches_iff_of_outside hout
  rename_i hin
  obtain ⟨hx, hy⟩ := hin
  refine ⟨fun hexact => ?_, fun hsums b => drawTouches_of_fits hx hy hw hh hsums.1 hsums.2⟩
  have hxlt := BitVec.lt_def.mp hx
  have hylt := BitVec.lt_def.mp hy
  have hwle : 2 ≤ w.toNat := BitVec.le_def.mp hw
  have hhle : 2 ≤ h.toNat := BitVec.le_def.mp hh
  have hheight := scr.height.isLt
  have hone : (1 : Word).toNat = 1 := rfl
  have hcol : x.toNat + w.toNat < 2 ^ 32 := by
    -- the top edge takes every word
    by_contra hwrap
    have htop := fillTouches_of_wrap hx hy (h := 1) (by decide) (by omega)
      (Nat.le_of_not_lt hwrap) (scr.pixel 0 y.toNat)
    obtain ⟨i, j, hij, heq⟩ := (hexact _).mp (Or.inl (Or.inl (Or.inl htop)))
    exact not_inRect_zero (y := y) (Nat.le_of_not_lt hwrap) h hylt (by omega) ⟨i, j, hij.1, heq⟩
  refine ⟨hcol, ?_⟩
  -- the bottom edge lands above the rectangle
  by_contra hwrap
  have hhlt := h.isLt
  have hy₂ : (y + h - 1).toNat = y.toNat + h.toNat - 1 - 2 ^ 32 := by bv_omega
  have hlands : scr.FillLands x (y + h - 1) w 1 := by
    refine ⟨hx, BitVec.lt_def.mpr (by omega), ?_, by decide, by omega⟩
    rintro rfl
    simp at hwle
  obtain ⟨i, j, hij, heq⟩ := (hexact _).mp (Or.inl (Or.inl (Or.inr hlands.touches)))
  simp only [InOutline, InRect] at hij
  obtain ⟨-, rfl⟩ := (pixel_inj hxlt hij.1.2.2.2.2.1 (by omega) hij.1.2.2.2.2.2).mp heq
  omega

end Screen

open Framebuffer

/-- Whatever is on the screen: the pixels of `words` get the colour, and no other word changes. -/
def Screen.Exact (scr : Screen) (draw : Framebuffer → Word → Framebuffer)
    (words : BitVec 30 → Prop) : Prop :=
  ∀ (s : Framebuffer) (color : Word), s.screen = scr → s.Paints (draw s color) words color

theorem Screen.exact_iff {scr : Screen} {draw : Framebuffer → Word → Framebuffer}
    {touched words : BitVec 30 → Prop} (hdraw : scr.Exact draw touched) :
    scr.Exact draw words ↔ ∀ b, touched b ↔ words b := by
  constructor
  · intro hexact b
    -- a black screen and white paint tell the words apart
    have htouched := hdraw (fbInit scr ⟨0, 0, 0, 0, none, by simp⟩ 0) 1 rfl
    have hwords := hexact (fbInit scr ⟨0, 0, 0, 0, none, by simp⟩ 0) 1 rfl
    have hblack : (fbInit scr ⟨0, 0, 0, 0, none, by simp⟩ 0).target b = 0 := rfl
    constructor
    · intro hb
      by_contra hno
      have hwhite := htouched.painted b hb
      rw [hwords.kept b hno, hblack] at hwhite
      exact absurd hwhite (by decide)
    · intro hb
      by_contra hno
      have hwhite := hwords.painted b hb
      rw [htouched.kept b hno, hblack] at hwhite
      exact absurd hwhite (by decide)
  · intro heq s color hs
    exact (hdraw s color hs).congr heq

/-- Both functions do what they say for the arguments. -/
def Screen.RectExact (scr : Screen) (x y w h : Word) : Prop :=
  scr.Exact (fun s color => s.fillRect x y w h color) (scr.WordsOf (scr.InRect x y w h)) ∧
    (2 ≤ w → 2 ≤ h →
      scr.Exact (fun s color => s.drawRect x y w h color) (scr.WordsOf (scr.InOutline x y w h)))

/-- On every screen and in both modes `fb_fill_rect` and `fb_draw_rect` paint exactly the
rectangle and its outline if and only if no sum wraps onto the screen. -/
theorem rect_exact_iff (scr : Screen) (x y w h : Word) :
    scr.RectExact x y w h ↔
      scr.FillFits x y w h ∧ (2 ≤ w → 2 ≤ h → scr.OutlineFits x y w h) := by
  have hfill : scr.Exact (fun s color => s.fillRect x y w h color) (scr.FillTouches x y w h) := by
    intro s color hs
    rw [← hs]
    exact s.fillRect_paints x y w h color
  have hdraw : scr.Exact (fun s color => s.drawRect x y w h color) (scr.DrawTouches x y w h) := by
    intro s color hs
    rw [← hs]
    exact s.drawRect_paints x y w h color
  unfold Screen.RectExact
  rw [Screen.exact_iff hfill, Screen.exact_iff hdraw, Screen.fillTouches_iff_fits]
  constructor
  · rintro ⟨hfits, houtline⟩
    exact ⟨hfits, fun hw hh => (Screen.drawTouches_iff_fits hw hh).mp (houtline hw hh)⟩
  · rintro ⟨hfits, houtline⟩
    exact ⟨hfits, fun hw hh => (Screen.drawTouches_iff_fits hw hh).mpr (houtline hw hh)⟩

/-- A width that reaches around paints the column on the left, too. -/
theorem rect_reaches_around :
    ¬(⟨8, 8, 8, by decide, by decide⟩ : Screen).RectExact 1 0 0xFFFFFFFF 1 := by
  rintro ⟨hfill, -⟩
  have hwords := hfill (fbInit ⟨8, 8, 8, by decide, by decide⟩ ⟨0, 0, 0, 0, none, by simp⟩ 0) 1 rfl
  have htouched := fillRect_paints
    (fbInit ⟨8, 8, 8, by decide, by decide⟩ ⟨0, 0, 0, 0, none, by simp⟩ 0) 1 0 0xFFFFFFFF 1 1
  have hin : Screen.FillTouches ⟨8, 8, 8, by decide, by decide⟩ 1 0 0xFFFFFFFF 1 0 :=
    Screen.fillTouches_of_wrap (by decide) (by decide) (by decide) (by decide) (by decide) 0
  have hout : ¬Screen.WordsOf ⟨8, 8, 8, by decide, by decide⟩
      (Screen.InRect ⟨8, 8, 8, by decide, by decide⟩ 1 0 0xFFFFFFFF 1) 0 :=
    Screen.not_inRect_zero (j := 0) (by decide) 1 (by decide) (by decide)
  have hpainted := htouched.painted 0 hin
  rw [hwords.kept 0 hout] at hpainted
  exact absurd hpainted (by decide)

end EnclaveOS
