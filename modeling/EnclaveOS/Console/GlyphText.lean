import EnclaveOS.Console.Framebuffer
import Mathlib.Tactic.IntervalCases

/-!
# GlyphText - the two UTF-8 decoders of the framebuffer

`fb_draw_string` takes the continuation bytes of a character where it finds its first byte, and
`fb_putc` keeps the unfinished character between its calls.  The first one does not look at what
it takes: after a first byte at the end of a string it steps over the NUL.
-/

namespace EnclaveOS

open PageWord

namespace Framebuffer

/-- One turn of the loop of `fb_draw_string` on a character: the glyph at a cell. -/
def drawCell (s : Framebuffer) (fg bg unicode cx cy : Word) : Framebuffer :=
  s.renderGlyph ⟨s.font.stringGlyph unicode, cx * fontWidth, cy * s.font.height, fg, bg⟩

/-- The cell after it. -/
def nextX (s : Framebuffer) (x cx : Word) : Word :=
  if s.screen.width ≤ (cx + 1) * fontWidth then x else cx + 1

def nextY (s : Framebuffer) (cx cy : Word) : Word :=
  if s.screen.width ≤ (cx + 1) * fontWidth then cy + 1 else cy

/-- `(first << 6) | (byte & 0x3F)` -/
def appendBits (first : Word) (byte : BitVec 8) : Word :=
  first <<< 6 ||| (byte &&& 0x3F).setWidth 32

/-- The loop of `fb_draw_string` over the bytes up to the terminating NUL, which is the last of
the list; `none` when it reads a byte after it. -/
@[simp]
def drawStringLoop (x fg bg : Word) :
    List (BitVec 8) → Word → Word → Framebuffer → Option Framebuffer
  | [], _, _, _ => none
  | byte :: rest, cx, cy, s =>
    if byte = 0 then some s
    else if byte = 0x0A then drawStringLoop x fg bg rest x (cy + 1) s
    else if byte = 0x0D then drawStringLoop x fg bg rest x cy s
    else if byte < 0x80 then
      drawStringLoop x fg bg rest (s.nextX x cx) (s.nextY cx cy)
        (s.drawCell fg bg (byte.setWidth 32) cx cy)
    else if byte &&& 0xE0 = 0xC0 then
      match rest with
      | b₁ :: rest =>
        drawStringLoop x fg bg rest (s.nextX x cx) (s.nextY cx cy)
          (s.drawCell fg bg (appendBits ((byte &&& 0x1F).setWidth 32) b₁) cx cy)
      | [] => none
    else if byte &&& 0xF0 = 0xE0 then
      match rest with
      | b₁ :: b₂ :: rest =>
        drawStringLoop x fg bg rest (s.nextX x cx) (s.nextY cx cy)
          (s.drawCell fg bg (appendBits (appendBits ((byte &&& 0x0F).setWidth 32) b₁) b₂) cx cy)
      | _ => none
    else
      drawStringLoop x fg bg rest (s.nextX x cx) (s.nextY cx cy) (s.drawCell fg bg 0x3F cx cy)

/-- `fb_draw_string` of a string without NUL. -/
def drawString (s : Framebuffer) (str : List (BitVec 8)) (x y fg bg : Word) : Option Framebuffer :=
  drawStringLoop x fg bg (str ++ [0]) x y s

end Framebuffer

/-- The string is a sequence of units that are as long as their first bytes say: two bytes from
110xxxxx on, three from 1110xxxx on, and one otherwise. -/
@[simp]
def WholeUnits : List (BitVec 8) → Prop
  | [] => True
  | byte :: rest =>
    if byte &&& 0xE0 = 0xC0 then
      match rest with
      | _ :: rest => WholeUnits rest
      | [] => False
    else if byte &&& 0xF0 = 0xE0 then
      match rest with
      | _ :: _ :: rest => WholeUnits rest
      | _ => False
    else WholeUnits rest

theorem not_lead_of_ascii : ∀ byte : BitVec 8, byte < 0x80 →
    byte &&& 0xE0 ≠ 0xC0 ∧ byte &&& 0xF0 ≠ 0xE0 := by
  decide

theorem not_ascii_of_lead (byte : BitVec 8) (h : byte &&& 0xE0 = 0xC0 ∨ byte &&& 0xF0 = 0xE0) :
    ¬byte < 0x80 := by
  intro hascii
  have hno := not_lead_of_ascii byte hascii
  exact h.elim hno.1 hno.2

namespace Framebuffer

variable {s : Framebuffer} {x fg bg cx cy : Word} {byte : BitVec 8} {rest : List (BitVec 8)}

/-- The control characters are below 0x80. -/
theorem ne_of_not_ascii (h : ¬byte < 0x80) : byte ≠ 0 ∧ byte ≠ 0x0A ∧ byte ≠ 0x0D := by
  refine ⟨?_, ?_, ?_⟩
  all_goals
    rintro rfl
    exact h (by decide)

theorem drawStringLoop_two (htwo : byte &&& 0xE0 = 0xC0) (b₁ : BitVec 8) :
    drawStringLoop x fg bg (byte :: b₁ :: rest) cx cy s =
      drawStringLoop x fg bg rest (s.nextX x cx) (s.nextY cx cy)
        (s.drawCell fg bg (appendBits ((byte &&& 0x1F).setWidth 32) b₁) cx cy) := by
  have hascii := not_ascii_of_lead byte (Or.inl htwo)
  obtain ⟨hnul, hnewline, hreturn⟩ := ne_of_not_ascii hascii
  rw [drawStringLoop, if_neg hnul, if_neg hnewline, if_neg hreturn, if_neg hascii, if_pos htwo]

theorem drawStringLoop_three (htwo : byte &&& 0xE0 ≠ 0xC0) (hthree : byte &&& 0xF0 = 0xE0)
    (b₁ b₂ : BitVec 8) :
    drawStringLoop x fg bg (byte :: b₁ :: b₂ :: rest) cx cy s =
      drawStringLoop x fg bg rest (s.nextX x cx) (s.nextY cx cy)
        (s.drawCell fg bg (appendBits (appendBits ((byte &&& 0x0F).setWidth 32) b₁) b₂) cx cy) := by
  have hascii := not_ascii_of_lead byte (Or.inr hthree)
  obtain ⟨hnul, hnewline, hreturn⟩ := ne_of_not_ascii hascii
  rw [drawStringLoop, if_neg hnul, if_neg hnewline, if_neg hreturn, if_neg hascii, if_neg htwo,
    if_pos hthree]

/-- A unit of one byte is one turn of the loop. -/
theorem drawStringLoop_one (hnul : byte ≠ 0) (htwo : byte &&& 0xE0 ≠ 0xC0)
    (hthree : byte &&& 0xF0 ≠ 0xE0) :
    ∃ cx' cy' s', drawStringLoop x fg bg (byte :: rest) cx cy s =
      drawStringLoop x fg bg rest cx' cy' s' := by
  rw [drawStringLoop.eq_def]
  dsimp only
  rw [if_neg hnul]
  split_ifs
  all_goals exact ⟨_, _, _, rfl⟩

theorem drawStringLoop_cut_two (htwo : byte &&& 0xE0 = 0xC0) :
    drawStringLoop x fg bg [byte, 0] cx cy s = none := by
  rw [drawStringLoop_two htwo, drawStringLoop]

/-- The NUL is taken for the second byte or for the third. -/
theorem drawStringLoop_cut_three (htwo : byte &&& 0xE0 ≠ 0xC0) (hthree : byte &&& 0xF0 = 0xE0) :
    drawStringLoop x fg bg [byte, 0] cx cy s = none ∧
      ∀ b₁, drawStringLoop x fg bg [byte, b₁, 0] cx cy s = none := by
  have hascii := not_ascii_of_lead byte (Or.inr hthree)
  obtain ⟨hnul, hnewline, hreturn⟩ := ne_of_not_ascii hascii
  constructor
  · rw [drawStringLoop, if_neg hnul, if_neg hnewline, if_neg hreturn, if_neg hascii, if_neg htwo,
      if_pos hthree]
  · intro b₁
    rw [drawStringLoop_three htwo hthree, drawStringLoop]

theorem drawStringLoop_returns_iff {str : List (BitVec 8)} (hnul : 0#8 ∉ str) :
    (∃ t, drawStringLoop x fg bg (str ++ [0]) cx cy s = some t) ↔ WholeUnits str := by
  induction hlen : str.length using Nat.strong_induction_on generalizing str cx cy s with
  | _ n ih =>
    subst hlen
    match str with
    | [] => simp [drawStringLoop, WholeUnits]
    | byte :: rest =>
      simp only [List.mem_cons, not_or] at hnul
      have hbyte : byte ≠ 0 := fun h => hnul.1 h.symm
      by_cases htwo : byte &&& 0xE0 = 0xC0
      · match rest with
        | [] =>
          rw [WholeUnits, if_pos htwo, List.singleton_append, drawStringLoop_cut_two htwo]
          simp
        | b₁ :: rest =>
          rw [WholeUnits, if_pos htwo, List.cons_append, List.cons_append, drawStringLoop_two htwo]
          exact ih _ (by simp only [List.length_cons]; omega) (by simp_all) rfl
      by_cases hthree : byte &&& 0xF0 = 0xE0
      · match rest with
        | [] =>
          rw [WholeUnits, if_neg htwo, if_pos hthree, List.singleton_append,
            (drawStringLoop_cut_three htwo hthree).1]
          simp
        | [b₁] =>
          rw [WholeUnits, if_neg htwo, if_pos hthree, List.cons_append, List.singleton_append,
            (drawStringLoop_cut_three htwo hthree).2]
          simp
        | b₁ :: b₂ :: rest =>
          rw [WholeUnits, if_neg htwo, if_pos hthree, List.cons_append, List.cons_append,
            List.cons_append, drawStringLoop_three htwo hthree]
          exact ih _ (by simp only [List.length_cons]; omega) (by simp_all) rfl
      · obtain ⟨cx', cy', s', hstep⟩ : ∃ cx' cy' s',
            drawStringLoop x fg bg (byte :: (rest ++ [0])) cx cy s =
              drawStringLoop x fg bg (rest ++ [0]) cx' cy' s' :=
          drawStringLoop_one hbyte htwo hthree
        rw [WholeUnits.eq_def, List.cons_append, hstep]
        dsimp only
        rw [if_neg htwo, if_neg hthree]
        exact ih _ (by simp) hnul.2 rfl

end Framebuffer

/-- The bytes of a character. -/
def utf8Bytes (c : Char) : List (BitVec 8) :=
  (String.utf8EncodeChar c).map UInt8.toBitVec

/-- Its code. -/
def charCode (c : Char) : Word :=
  BitVec.ofNat 32 c.toNat

/-- The bytes of a code of 16 bits. -/
def codeBytes (code : Nat) : List (BitVec 8) :=
  if code < 0x80 then [BitVec.ofNat 8 code]
  else if code < 0x800 then [BitVec.ofNat 8 (code / 64 + 0xC0), BitVec.ofNat 8 (code % 64 + 0x80)]
  else
    [BitVec.ofNat 8 (code / 4096 + 0xE0), BitVec.ofNat 8 (code / 64 % 64 + 0x80),
      BitVec.ofNat 8 (code % 64 + 0x80)]

theorem utf8Bytes_eq {c : Char} (h : c.toNat < 0x10000) : utf8Bytes c = codeBytes c.toNat := by
  change c.val.toNat < 0x10000 at h
  change utf8Bytes c = codeBytes c.val.toNat
  unfold utf8Bytes String.utf8EncodeChar codeBytes
  dsimp only
  by_cases hone : c.val.toNat < 0x80
  · rw [if_pos (Nat.le_of_lt_succ hone), if_pos hone]
    rfl
  by_cases htwo : c.val.toNat < 0x800
  · have hmod : c.val.toNat / 64 % 32 = c.val.toNat / 64 := Nat.mod_eq_of_lt (by omega)
    rw [if_neg (by omega), if_pos (Nat.le_of_lt_succ htwo), if_neg hone, if_pos htwo, hmod]
    rfl
  · have hmod : c.val.toNat / 4096 % 16 = c.val.toNat / 4096 := Nat.mod_eq_of_lt (by omega)
    rw [if_neg (by omega), if_neg (by omega), if_pos (Nat.le_of_lt_succ h), if_neg hone,
      if_neg htwo, hmod]
    rfl

/-- A byte below 0x80 that is no control character. -/
theorem ascii_byte {n : Nat} (hcontrol : 0x20 ≤ n) (hascii : n < 0x80) :
    BitVec.ofNat 8 n < 0x80 ∧ ∀ b : BitVec 8, b.toNat < 0x20 → BitVec.ofNat 8 n ≠ b := by
  have hbyte : (BitVec.ofNat 8 n).toNat = n := Nat.mod_eq_of_lt (by omega)
  constructor
  · rw [BitVec.lt_def, hbyte]
    exact hascii
  · rintro b hb rfl
    omega

theorem tail_bits : ∀ n < 64, BitVec.ofNat 8 (n + 0x80) &&& 0xC0 = 0x80 ∧
    BitVec.ofNat 8 (n + 0x80) &&& 0x3F = BitVec.ofNat 8 n := by
  decide

theorem two_bits : ∀ n < 32, BitVec.ofNat 8 (n + 0xC0) &&& 0xE0 = 0xC0 ∧
    BitVec.ofNat 8 (n + 0xC0) &&& 0x1F = BitVec.ofNat 8 n := by
  decide

theorem three_bits : ∀ n < 16, BitVec.ofNat 8 (n + 0xE0) &&& 0xE0 ≠ 0xC0 ∧
    BitVec.ofNat 8 (n + 0xE0) &&& 0xF0 = 0xE0 ∧
      BitVec.ofNat 8 (n + 0xE0) &&& 0x0F = BitVec.ofNat 8 n := by
  decide

theorem setWidth_small {n : Nat} (h : n < 256) :
    (BitVec.ofNat 8 n).setWidth 32 = BitVec.ofNat 32 n := by
  apply BitVec.eq_of_toNat_eq
  simp only [BitVec.toNat_setWidth, BitVec.toNat_ofNat]
  omega

/-- Six bits more. -/
theorem appendBits_ofNat {a n : Nat} (ha : a < 2 ^ 26) (hn : n < 64) :
    Framebuffer.appendBits (BitVec.ofNat 32 a) (BitVec.ofNat 8 (n + 0x80)) =
      BitVec.ofNat 32 (a * 64 + n) := by
  unfold Framebuffer.appendBits
  rw [(tail_bits n hn).2, setWidth_small (by omega)]
  apply BitVec.eq_of_toNat_eq
  have hshift : a <<< 6 ||| n = a * 64 + n := by
    rw [← Nat.shiftLeft_add_eq_or_of_lt (show n < 2 ^ 6 from hn), Nat.shiftLeft_eq]
  rw [BitVec.toNat_or, BitVec.toNat_shiftLeft, BitVec.toNat_ofNat, BitVec.toNat_ofNat,
    BitVec.toNat_ofNat, Nat.mod_eq_of_lt (show a < 2 ^ 32 by omega),
    Nat.mod_eq_of_lt (show n < 2 ^ 32 by omega), Nat.mod_eq_of_lt (show a * 64 + n < 2 ^ 32 by omega),
    Nat.mod_eq_of_lt (by rw [Nat.shiftLeft_eq]; omega), hshift]

theorem decode_two {n : Nat} (h : n < 0x800) :
    Framebuffer.appendBits (BitVec.ofNat 32 (n / 64)) (BitVec.ofNat 8 (n % 64 + 0x80)) =
      BitVec.ofNat 32 n := by
  rw [appendBits_ofNat (by omega) (by omega), Nat.div_add_mod']

theorem decode_three {n : Nat} (h : n < 0x10000) :
    Framebuffer.appendBits
        (Framebuffer.appendBits (BitVec.ofNat 32 (n / 4096))
          (BitVec.ofNat 8 (n / 64 % 64 + 0x80)))
        (BitVec.ofNat 8 (n % 64 + 0x80)) = BitVec.ofNat 32 n := by
  have hmid : n / 4096 * 64 + n / 64 % 64 = n / 64 := by omega
  rw [appendBits_ofNat (by omega) (by omega), hmid, appendBits_ofNat (by omega) (by omega),
    Nat.div_add_mod']

/-- The table holds codes of 16 bits. -/
theorem Font.searchTable_lt {count : Nat} {code : Word} {glyph n : Nat}
    {table : List (BitVec 16)} (h : Font.searchTable count code glyph table = some n) :
    code.toNat < 0x10000 := by
  induction table generalizing glyph with
  | nil => simp [Font.searchTable] at h
  | cons charCode rest ih =>
    rw [Font.searchTable] at h
    split_ifs at h with hend hnext hskip hfound
    · exact ih h
    · exact ih h
    · rw [← hfound, BitVec.toNat_setWidth]
      omega
    · exact ih h

theorem Font.findGlyphIndex_lt {font : Font} {code : Word}
    (h : (font.findGlyphIndex code).isSome) : code.toNat < 0x10000 := by
  obtain ⟨n, hn⟩ := Option.isSome_iff_exists.mp h
  obtain ⟨table, -, hsearch⟩ := Option.bind_eq_some_iff.mp hn
  exact Font.searchTable_lt hsearch

namespace Framebuffer

variable {s t u : Framebuffer} {x fg bg cx cy : Word} {byte : BitVec 8} {rest : List (BitVec 8)}
  {c : Char}

theorem charCode_toNat (c : Char) : (charCode c).toNat = c.toNat := by
  have hlt := c.val.toNat_lt
  exact Nat.mod_eq_of_lt hlt

/-- A character of a valid string is one turn of the loop. -/
theorem drawStringLoop_char (hcontrol : 0x20 ≤ c.toNat) (hcode : c.toNat < 0x10000) :
    drawStringLoop x fg bg (utf8Bytes c ++ rest) cx cy s =
      drawStringLoop x fg bg rest (s.nextX x cx) (s.nextY cx cy)
        (s.drawCell fg bg (charCode c) cx cy) := by
  rw [utf8Bytes_eq hcode, codeBytes]
  by_cases hone : c.toNat < 0x80
  · obtain ⟨hascii, hne⟩ := ascii_byte hcontrol hone
    rw [if_pos hone, List.singleton_append, drawStringLoop.eq_def]
    dsimp only
    rw [if_neg (hne 0 (by decide)), if_neg (hne 0x0A (by decide)), if_neg (hne 0x0D (by decide)),
      if_pos hascii, setWidth_small (by omega)]
    rfl
  by_cases htwo : c.toNat < 0x800
  · have hbits := two_bits (c.toNat / 64) (by omega)
    rw [if_neg hone, if_pos htwo, List.cons_append, List.singleton_append,
      drawStringLoop_two hbits.1, hbits.2, setWidth_small (by omega), decode_two htwo]
    rfl
  · have hbits := three_bits (c.toNat / 4096) (by omega)
    rw [if_neg hone, if_neg htwo, List.cons_append, List.cons_append, List.singleton_append,
      drawStringLoop_three hbits.1 hbits.2.1, hbits.2.2, setWidth_small (by omega),
      decode_three hcode]
    rfl

/-- The code that `fb_putc` looks up in the font. -/
def selectedCode (s : Framebuffer) (byte : BitVec 8) : Option Word :=
  if 0 < s.utf8State ∧ byte &&& 0xC0 = 0x80 then
    if s.utf8State - 1 = 0 then some (appendBits s.utf8Codepoint byte) else none
  else if byte < 0x80 ∧ byte ≠ 0x0A ∧ byte ≠ 0x0D ∧ byte ≠ 0x09 ∧ byte ≠ 0x08 then
    some (byte.setWidth 32)
  else none

/-- The codes that `fb_putc` looks up for the bytes of a string. -/
def selectedCodes (s : Framebuffer) : List (BitVec 8) → List Word
  | [] => []
  | byte :: rest =>
    (s.selectedCode byte).toList ++ ((s.putc byte).map fun s => s.selectedCodes rest).getD []

/-- What a step does to the decoder and to the list of glyphs. -/
structure Decodes (s t : Framebuffer) (state codepoint : Word) (glyphs : List Nat) : Prop where
  screen : t.screen = s.screen
  font : t.font = s.font
  state : t.utf8State = state
  codepoint : t.utf8Codepoint = codepoint
  glyphs : t.asked.map GlyphCall.glyph = s.asked.map GlyphCall.glyph ++ glyphs

theorem Decodes.trans {state state' codepoint codepoint' : Word} {glyphs glyphs' : List Nat}
    (h : Decodes s t state codepoint glyphs) (h' : Decodes t u state' codepoint' glyphs') :
    Decodes s u state' codepoint' (glyphs ++ glyphs') :=
  ⟨h'.screen.trans h.screen, h'.font.trans h.font, h'.state, h'.codepoint,
    by rw [h'.glyphs, h.glyphs, List.append_assoc]⟩

theorem decodes_wrap (s : Framebuffer) : Decodes s s.wrap s.utf8State s.utf8Codepoint [] := by
  unfold wrap
  split <;> exact ⟨rfl, rfl, rfl, rfl, by simp⟩

theorem decodes_glyph (s : Framebuffer) (glyph : Nat) :
    Decodes s (s.drawAtCursor glyph).advance s.utf8State s.utf8Codepoint [glyph] := by
  obtain ⟨frame, back, dirty, hdraw⟩ := s.drawAtCursor_eq glyph
  have hwrap := decodes_wrap
    { s.drawAtCursor glyph with cursorX := (s.drawAtCursor glyph).cursorX + 1 }
  refine ⟨?_, ?_, ?_, ?_, ?_⟩
  · exact hwrap.screen.trans (by rw [hdraw])
  · exact hwrap.font.trans (by rw [hdraw])
  · exact hwrap.state.trans (by rw [hdraw])
  · exact hwrap.codepoint.trans (by rw [hdraw])
  · refine hwrap.glyphs.trans ?_
    simp [hdraw]

theorem decodes_scrollUp (s : Framebuffer) (y : Word) :
    Decodes s { s.scrollUp with cursorY := y } s.utf8State s.utf8Codepoint [] := by
  obtain ⟨frame, back, dirty, hscroll⟩ := s.scrollUp_eq
  rw [hscroll]
  exact ⟨rfl, rfl, rfl, rfl, by simp⟩

theorem decodes_scrollLoop {rounds : Nat} (h : scrollLoop rounds s = some t) :
    Decodes s t s.utf8State s.utf8Codepoint [] := by
  induction rounds generalizing s with
  | zero => simp [scrollLoop] at h
  | succ rounds ih =>
    rw [scrollLoop] at h
    split at h
    · have hup := decodes_scrollUp s (s.scrollUp.cursorY - 1)
      have hrest := hup.trans (ih h)
      rwa [hup.state, hup.codepoint] at hrest
    · cases h
      exact ⟨rfl, rfl, rfl, rfl, by simp⟩

/-- On a screen with a row the loop ends. -/
theorem scrollLoop_returns (hrows : 0 < s.rows) {rounds : Nat} (h : s.cursorY.toNat < rounds) :
    ∃ t, scrollLoop rounds s = some t := by
  induction rounds generalizing s with
  | zero => omega
  | succ rounds ih =>
    rw [scrollLoop]
    split
    · rename_i hbelow
      have hpos := BitVec.lt_def.mp hrows
      have hle := BitVec.le_def.mp hbelow
      have hup : (s.cursorY - 1).toNat < rounds := by bv_omega
      obtain ⟨frame, back, dirty, hscroll⟩ := s.scrollUp_eq
      apply ih
      · rw [hscroll]
        exact hrows
      · rw [hscroll]
        exact hup
    · exact ⟨s, rfl⟩

/-- The state that a byte leads to is the one before scrolling. -/
theorem decodes_putc_of_idle {state codepoint : Word} {glyphs : List Nat} (hidle : s.utf8State = 0)
    (hlead : Decodes { s with utf8State := 0 } ({ s with utf8State := 0 }.putLead byte)
      state codepoint glyphs) (h : s.putc byte = some t) :
    Decodes s t state codepoint glyphs := by
  unfold putc at h
  dsimp only at h
  rw [if_neg (by rw [hidle]; exact fun hpos => absurd hpos.1 (by decide))] at h
  have hscroll := decodes_scrollLoop h
  have hall := hlead.trans hscroll
  rw [hlead.state, hlead.codepoint, List.append_nil] at hall
  exact ⟨hall.screen, hall.font, hall.state, hall.codepoint, hall.glyphs⟩

/-- Inside a sequence a continuation byte adds its bits; the last one draws. -/
theorem decodes_putc_tail (hstate : 0 < s.utf8State) (htail : byte &&& 0xC0 = 0x80)
    (h : s.putc byte = some t) :
    Decodes s t (s.utf8State - 1) (appendBits s.utf8Codepoint byte)
      (if s.utf8State - 1 = 0 then [s.font.putcGlyph (appendBits s.utf8Codepoint byte)] else []) := by
  unfold putc at h
  dsimp only at h
  rw [if_pos ⟨hstate, htail⟩] at h
  have hmid : Decodes s (s.putContinuation byte) (s.utf8State - 1) (appendBits s.utf8Codepoint byte)
      (if s.utf8State - 1 = 0 then [s.font.putcGlyph (appendBits s.utf8Codepoint byte)] else []) := by
    unfold putContinuation
    dsimp only
    split
    · have hdrawn := decodes_glyph
        { s with utf8Codepoint := appendBits s.utf8Codepoint byte, utf8State := s.utf8State - 1 }
        (s.font.putcGlyph (appendBits s.utf8Codepoint byte))
      exact ⟨hdrawn.screen, hdrawn.font, hdrawn.state, hdrawn.codepoint, hdrawn.glyphs⟩
    · exact ⟨rfl, rfl, rfl, rfl, by simp⟩
  have hall := hmid.trans (decodes_scrollLoop h)
  rwa [hmid.state, hmid.codepoint, List.append_nil] at hall

theorem decodes_putLead_ascii {n : Nat} (hcontrol : 0x20 ≤ n) (hascii : n < 0x80) :
    Decodes s (s.putLead (BitVec.ofNat 8 n)) s.utf8State s.utf8Codepoint
      [s.font.putcGlyph (BitVec.ofNat 32 n)] := by
  obtain ⟨hbyte, hne⟩ := ascii_byte hcontrol hascii
  unfold putLead putAscii
  rw [if_pos hbyte, if_neg (hne _ (by decide)), if_neg (hne _ (by decide)),
    if_neg (hne _ (by decide)), if_neg (hne _ (by decide)), setWidth_small (by omega)]
  exact decodes_glyph s _

theorem decodes_putLead_two {n : Nat} (hn : n < 32) :
    Decodes s (s.putLead (BitVec.ofNat 8 (n + 0xC0))) 1 (BitVec.ofNat 32 n) [] := by
  have hbits := two_bits n hn
  unfold putLead
  rw [if_neg (not_ascii_of_lead _ (Or.inl hbits.1)), if_pos hbits.1, hbits.2,
    setWidth_small (by omega)]
  exact ⟨rfl, rfl, rfl, rfl, by simp⟩

theorem decodes_putLead_three {n : Nat} (hn : n < 16) :
    Decodes s (s.putLead (BitVec.ofNat 8 (n + 0xE0))) 2 (BitVec.ofNat 32 n) [] := by
  have hbits := three_bits n hn
  unfold putLead
  rw [if_neg (not_ascii_of_lead _ (Or.inr hbits.2.1)), if_neg hbits.1, if_pos hbits.2.1,
    hbits.2.2, setWidth_small (by omega)]
  exact ⟨rfl, rfl, rfl, rfl, by simp⟩

theorem print_cons_some {bytes : List (BitVec 8)} (h : s.print (byte :: bytes) = some t) :
    ∃ u, s.putc byte = some u ∧ u.print bytes = some t :=
  Option.bind_eq_some_iff.mp h

theorem selectedCodes_cons {u : Framebuffer} (h : s.putc byte = some u)
    (bytes : List (BitVec 8)) :
    s.selectedCodes (byte :: bytes) = (s.selectedCode byte).toList ++ u.selectedCodes bytes := by
  simp [selectedCodes, h]

theorem selectedCode_lead (hidle : s.utf8State = 0)
    (hlead : byte &&& 0xE0 = 0xC0 ∨ byte &&& 0xF0 = 0xE0) : s.selectedCode byte = none := by
  have hascii := not_ascii_of_lead byte hlead
  rw [selectedCode, if_neg (by simp [hidle]), if_neg (fun hprintable => hascii hprintable.1)]

theorem selectedCode_tail (hstate : 0 < s.utf8State) (htail : byte &&& 0xC0 = 0x80) :
    s.selectedCode byte =
      if s.utf8State - 1 = 0 then some (appendBits s.utf8Codepoint byte) else none := by
  rw [selectedCode, if_pos ⟨hstate, htail⟩]

/-- The bytes of a code draw one glyph, the one of this code, and leave the decoder idle. -/
theorem decodes_print_code {n : Nat} (hidle : s.utf8State = 0) (hcontrol : 0x20 ≤ n)
    (hcode : n < 0x10000) (h : s.print (codeBytes n ++ rest) = some t) :
    ∃ u codepoint, Decodes s u 0 codepoint [s.font.putcGlyph (BitVec.ofNat 32 n)] ∧
      u.print rest = some t ∧
      s.selectedCodes (codeBytes n ++ rest) = BitVec.ofNat 32 n :: u.selectedCodes rest := by
  unfold codeBytes at h ⊢
  by_cases hone : n < 0x80
  · rw [if_pos hone, List.singleton_append] at h ⊢
    obtain ⟨u, hputc, hrest⟩ := print_cons_some h
    refine ⟨u, _, decodes_putc_of_idle hidle (decodes_putLead_ascii hcontrol hone) hputc, hrest, ?_⟩
    obtain ⟨hascii, hne⟩ := ascii_byte hcontrol hone
    rw [selectedCodes_cons hputc, selectedCode, if_neg (by simp [hidle]),
      if_pos ⟨hascii, hne _ (by decide), hne _ (by decide), hne _ (by decide), hne _ (by decide)⟩,
      setWidth_small (by omega)]
    rfl
  by_cases htwo : n < 0x800
  · rw [if_neg hone, if_pos htwo, List.cons_append, List.singleton_append] at h ⊢
    obtain ⟨u₁, hputc₁, h⟩ := print_cons_some h
    obtain ⟨u₂, hputc₂, hrest⟩ := print_cons_some h
    have hbits := two_bits (n / 64) (by omega)
    have hfirst := decodes_putc_of_idle hidle
      (decodes_putLead_two (show n / 64 < 32 by omega)) hputc₁
    have hbegun : 0 < u₁.utf8State := by
      rw [hfirst.state]
      decide
    have hcont := (tail_bits (n % 64) (by omega)).1
    have htail := decodes_putc_tail hbegun hcont hputc₂
    have hlook := selectedCode_tail hbegun hcont
    rw [hfirst.state, hfirst.codepoint, decode_two htwo] at hlook
    rw [hfirst.state, hfirst.codepoint, hfirst.font, decode_two htwo] at htail
    refine ⟨u₂, _, hfirst.trans htail, hrest, ?_⟩
    rw [selectedCodes_cons hputc₁, selectedCodes_cons hputc₂, hlook,
      selectedCode_lead hidle (Or.inl hbits.1)]
    rfl
  · rw [if_neg hone, if_neg htwo, List.cons_append, List.cons_append, List.singleton_append] at h ⊢
    obtain ⟨u₁, hputc₁, h⟩ := print_cons_some h
    obtain ⟨u₂, hputc₂, h⟩ := print_cons_some h
    obtain ⟨u₃, hputc₃, hrest⟩ := print_cons_some h
    have hbits := three_bits (n / 4096) (by omega)
    have hfirst := decodes_putc_of_idle hidle
      (decodes_putLead_three (show n / 4096 < 16 by omega)) hputc₁
    have hbegun : 0 < u₁.utf8State := by
      rw [hfirst.state]
      decide
    have hcont := (tail_bits (n / 64 % 64) (by omega)).1
    have hmid := decodes_putc_tail hbegun hcont hputc₂
    have hlook := selectedCode_tail hbegun hcont
    have hgoing : 0 < u₂.utf8State := by
      rw [hmid.state, hfirst.state]
      decide
    have hcont' := (tail_bits (n % 64) (by omega)).1
    have hlast := decodes_putc_tail hgoing hcont' hputc₃
    have hlook' := selectedCode_tail hgoing hcont'
    rw [hfirst.state, hfirst.codepoint] at hmid hlook
    rw [hmid.state, hmid.codepoint, decode_three hcode] at hlook'
    rw [hmid.state, hmid.codepoint, hmid.font, hfirst.font, decode_three hcode] at hlast
    refine ⟨u₃, _, (hfirst.trans hmid).trans hlast, hrest, ?_⟩
    rw [selectedCodes_cons hputc₁, selectedCodes_cons hputc₂, selectedCodes_cons hputc₃, hlook,
      hlook', selectedCode_lead hidle (Or.inr hbits.2.1)]
    rfl

theorem Decodes.rows {state codepoint : Word} {glyphs : List Nat}
    (h : Decodes s t state codepoint glyphs) : t.rows = s.rows := by
  unfold Framebuffer.rows
  rw [h.screen, h.font]

theorem drawAtCursor_rows (s : Framebuffer) (glyph : Nat) :
    (s.drawAtCursor glyph).rows = s.rows := by
  obtain ⟨frame, back, dirty, hdraw⟩ := s.drawAtCursor_eq glyph
  rw [hdraw]
  rfl

theorem wrap_rows (s : Framebuffer) : s.wrap.rows = s.rows :=
  (decodes_wrap s).rows

theorem putContinuation_rows (s : Framebuffer) (byte : BitVec 8) :
    (s.putContinuation byte).rows = s.rows := by
  unfold putContinuation
  dsimp only
  split
  · exact (decodes_glyph _ _).rows
  · rfl

theorem putLead_rows (s : Framebuffer) (byte : BitVec 8) : (s.putLead byte).rows = s.rows := by
  unfold putLead putAscii
  split_ifs
  · rfl
  · rfl
  · exact wrap_rows _
  · exact drawAtCursor_rows _ _
  · rfl
  · exact (decodes_glyph s _).rows
  · rfl
  · rfl
  · rfl
  · exact (decodes_glyph s _).rows

theorem putc_returns (hrows : 0 < s.rows) (byte : BitVec 8) :
    ∃ t, s.putc byte = some t ∧ t.rows = s.rows := by
  have hscroll : ∀ r : Framebuffer, r.rows = s.rows →
      ∃ t, scrollLoop (r.cursorY.toNat + 1) r = some t ∧ t.rows = s.rows := by
    intro r hr
    obtain ⟨t, ht⟩ := scrollLoop_returns (hr ▸ hrows) (Nat.lt_succ_self r.cursorY.toNat)
    exact ⟨t, ht, (decodes_scrollLoop ht).rows.trans hr⟩
  unfold putc
  dsimp only
  split
  · exact hscroll _ (putContinuation_rows s byte)
  · exact hscroll _ (putLead_rows _ byte)

theorem print_returns (hrows : 0 < s.rows) (bytes : List (BitVec 8)) :
    ∃ t, s.print bytes = some t := by
  induction bytes generalizing s with
  | nil => exact ⟨s, rfl⟩
  | cons byte bytes ih =>
    obtain ⟨u, hputc, hu⟩ := putc_returns hrows byte
    obtain ⟨t, hprint⟩ := ih (hu.symm ▸ hrows)
    exact ⟨t, by rw [print, hputc, Option.bind_some, hprint]⟩

/-- A character that the font has and that is no control character. -/
def Drawable (font : Font) (c : Char) : Prop :=
  0x20 ≤ c.toNat ∧ (font.findGlyphIndex (charCode c)).isSome

theorem Drawable.code_lt {font : Font} (h : Drawable font c) : c.toNat < 0x10000 := by
  rw [← charCode_toNat]
  exact Font.findGlyphIndex_lt h.2

/-- Both functions find its glyph. -/
theorem Drawable.glyph_eq {font : Font} (h : Drawable font c) :
    font.putcGlyph (charCode c) = font.stringGlyph (charCode c) := by
  obtain ⟨n, hn⟩ := Option.isSome_iff_exists.mp h.2
  obtain ⟨table, htable, -⟩ := Option.bind_eq_some_iff.mp hn
  simp [Font.putcGlyph, Font.stringGlyph, hn, htable]

theorem drawStringLoop_glyphs (x fg bg cx cy : Word) {chars : List Char} (h : ∀ c ∈ chars, Drawable s.font c) :
    ∃ t, drawStringLoop x fg bg (chars.flatMap utf8Bytes ++ [0]) cx cy s = some t ∧
      t.asked.map GlyphCall.glyph = s.asked.map GlyphCall.glyph ++
        chars.map fun c => s.font.stringGlyph (charCode c) := by
  induction chars generalizing s cx cy with
  | nil => exact ⟨s, by simp [drawStringLoop], by simp⟩
  | cons c chars ih =>
    have hc := h c List.mem_cons_self
    obtain ⟨frame, back, dirty, hcell⟩ := s.renderGlyph_eq
      ⟨s.font.stringGlyph (charCode c), cx * fontWidth, cy * s.font.height, fg, bg⟩
    have hfont : (s.drawCell fg bg (charCode c) cx cy).font = s.font := by
      rw [drawCell, hcell]
    obtain ⟨t, hloop, hglyphs⟩ := ih (s.nextX x cx) (s.nextY cx cy)
      (s := s.drawCell fg bg (charCode c) cx cy) (fun c' hc' => hfont.symm ▸ h c' (List.mem_cons_of_mem c hc'))
    refine ⟨t, ?_, ?_⟩
    · rw [List.flatMap_cons, List.append_assoc, drawStringLoop_char hc.1 hc.code_lt, hloop]
    · rw [hglyphs, hfont, drawCell, hcell]
      simp

theorem print_glyphs {chars : List Char} (hidle : s.utf8State = 0)
    (h : ∀ c ∈ chars, Drawable s.font c) (hprint : s.print (chars.flatMap utf8Bytes) = some t) :
    t.asked.map GlyphCall.glyph = s.asked.map GlyphCall.glyph ++
      chars.map fun c => s.font.putcGlyph (charCode c) := by
  induction chars generalizing s with
  | nil =>
    cases hprint
    simp
  | cons c chars ih =>
    have hc := h c List.mem_cons_self
    rw [List.flatMap_cons, utf8Bytes_eq hc.code_lt] at hprint
    obtain ⟨u, codepoint, hchar, hrest, -⟩ := decodes_print_code hidle hc.1 hc.code_lt hprint
    have hall := ih hchar.state
      (fun c' hc' => hchar.font.symm ▸ h c' (List.mem_cons_of_mem c hc')) hrest
    rw [hall, hchar.glyphs, hchar.font]
    simp [charCode]

/-- `fb_draw_string` stops at the terminating NUL exactly for strings of whole units.  On a valid
string of characters that the font has, it returns, and it draws the glyphs that `fb_putc`
draws from an idle decoder, which returns on every screen with a row. -/
theorem string_decoders (s : Framebuffer) (x y fg bg : Word) :
    (∀ str : List (BitVec 8), 0#8 ∉ str →
        ((∃ t, s.drawString str x y fg bg = some t) ↔ WholeUnits str)) ∧
      ∀ chars : List Char, s.utf8State = 0 → (∀ c ∈ chars, Drawable s.font c) →
        ∃ t, s.drawString (chars.flatMap utf8Bytes) x y fg bg = some t ∧
          (0 < s.rows → ∃ u, s.print (chars.flatMap utf8Bytes) = some u) ∧
          ∀ u, s.print (chars.flatMap utf8Bytes) = some u →
            t.asked.map GlyphCall.glyph = u.asked.map GlyphCall.glyph := by
  refine ⟨fun str hnul => drawStringLoop_returns_iff hnul, fun chars hidle h => ?_⟩
  obtain ⟨t, hdraw, hglyphs⟩ := drawStringLoop_glyphs x fg bg x y h
  refine ⟨t, hdraw, fun hrows => print_returns hrows _, fun u hprint => ?_⟩
  rw [hglyphs, print_glyphs hidle h hprint]
  congr 1
  apply List.map_congr_left
  intro c hc
  exact (h c hc).glyph_eq.symm

/-- The first byte of a character of two, alone. -/
theorem string_reads_past_nul :
    (fbInit ⟨8, 16, 8, by decide, by decide⟩ ⟨16, 0, 0, 0, none, by simp⟩ 0).drawString
      [0xC3] 0 0 fbLightGrey fbBlack = none :=
  drawStringLoop_cut_two (by decide)

end Framebuffer

end EnclaveOS
