import EnclaveOS.Console.GlyphText
import EnclaveOS.Fs.FatVolume

/-!
# StoredNames - long names on the console

`ucs2_to_utf8` of `fat32.c` makes the bytes that `fb_putc` of
`framebuffer.c` takes apart again, a byte for a call.
-/

namespace EnclaveOS

open PageWord

theorem tail_mark : ∀ n < 64, 0x80 ||| BitVec.ofNat 8 n = BitVec.ofNat 8 (n + 0x80) := by
  decide

theorem two_mark : ∀ n < 32, 0xC0 ||| BitVec.ofNat 8 n = BitVec.ofNat 8 (n + 0xC0) := by
  decide

theorem three_mark : ∀ n < 16, 0xE0 ||| BitVec.ofNat 8 n = BitVec.ofNat 8 (n + 0xE0) := by
  decide

theorem setWidth_shift (u : BitVec 16) (k : Nat) :
    (u >>> k).setWidth 8 = BitVec.ofNat 8 (u.toNat / 2 ^ k) := by
  apply BitVec.eq_of_toNat_eq
  simp [Nat.shiftRight_eq_div_pow]

theorem setWidth_low (u : BitVec 16) :
    (u &&& 0x3F).setWidth 8 = BitVec.ofNat 8 (u.toNat % 64) := by
  apply BitVec.eq_of_toNat_eq
  have hlow : u.toNat &&& 0x3F = u.toNat % 64 := Nat.and_two_pow_sub_one_eq_mod u.toNat 6
  rw [BitVec.toNat_setWidth, BitVec.toNat_and, BitVec.toNat_ofNat]
  exact congrArg (· % 256) hlow

/-- The encoder makes the bytes that the decoder reads. -/
theorem ucs2ToUtf8_eq (u : BitVec 16) : ucs2ToUtf8 u = codeBytes u.toNat := by
  have hlt : u.toNat < 0x10000 := u.isLt
  have hmid : ((u >>> 6) &&& 0x3F).setWidth 8 = BitVec.ofNat 8 (u.toNat / 64 % 64) := by
    rw [setWidth_low, BitVec.toNat_ushiftRight, Nat.shiftRight_eq_div_pow]
  have hone : u < 0x80 ↔ u.toNat < 0x80 := BitVec.lt_def
  have htwo : u < 0x800 ↔ u.toNat < 0x800 := BitVec.lt_def
  unfold ucs2ToUtf8 codeBytes
  simp only [hone, htwo]
  split_ifs with hascii hshort
  · rw [← BitVec.ofNat_toNat]
  · have hfirst := two_mark (u.toNat / 64) (by omega)
    have hlast := tail_mark (u.toNat % 64) (by omega)
    rw [setWidth_shift, setWidth_low, ← hfirst, ← hlast]
    rfl
  · have hfirst := three_mark (u.toNat / 4096) (by omega)
    have hsecond := tail_mark (u.toNat / 64 % 64) (by omega)
    have hlast := tail_mark (u.toNat % 64) (by omega)
    rw [setWidth_shift, hmid, setWidth_low, ← hfirst, ← hsecond, ← hlast]
    rfl

namespace Framebuffer

variable {s t : Framebuffer}

/-- The units of a name are looked up in their order, and the decoder is idle again. -/
theorem print_units {units : List (BitVec 16)} (hidle : s.utf8State = 0)
    (hunits : ∀ u ∈ units, 0x20 ≤ u) (h : s.print (units.flatMap ucs2ToUtf8) = some t) :
    s.selectedCodes (units.flatMap ucs2ToUtf8) = units.map (BitVec.setWidth 32) ∧
      t.utf8State = 0 ∧
      t.asked.map GlyphCall.glyph = s.asked.map GlyphCall.glyph ++
        units.map fun u => s.font.putcGlyph (u.setWidth 32) := by
  induction units generalizing s with
  | nil =>
    cases h
    simp [selectedCodes, hidle]
  | cons u units ih =>
    obtain ⟨hu, hrest⟩ := List.forall_mem_cons.mp hunits
    have hcontrol : 0x20 ≤ u.toNat := hu
    have hcode : BitVec.ofNat 32 u.toNat = u.setWidth 32 := BitVec.ofNat_toNat 32 u
    rw [List.flatMap_cons, ucs2ToUtf8_eq] at h ⊢
    obtain ⟨s', codepoint, hunit, hprint, hcodes⟩ := decodes_print_code hidle hcontrol u.isLt h
    obtain ⟨hall, hstate, hglyphs⟩ := ih hunit.state hrest hprint
    refine ⟨?_, hstate, ?_⟩
    · rw [hcodes, hall, hcode, List.map_cons]
    · rw [hglyphs, hunit.glyphs, hunit.font, hcode, List.map_cons, List.append_assoc,
        List.singleton_append]

/-- From an idle decoder the bytes of every list of units are decoded to the same units.  Every
call returns on a screen with a row. -/
theorem stored_name_decodes (s : Framebuffer) (units : List (BitVec 16)) (hidle : s.utf8State = 0)
    (hunits : ∀ u ∈ units, 0x20 ≤ u) :
    (0 < s.rows → ∃ t, s.print (units.flatMap ucs2ToUtf8) = some t) ∧
      ∀ t, s.print (units.flatMap ucs2ToUtf8) = some t →
        s.selectedCodes (units.flatMap ucs2ToUtf8) = units.map (BitVec.setWidth 32) ∧
          t.utf8State = 0 ∧
          t.asked.map GlyphCall.glyph = s.asked.map GlyphCall.glyph ++
            units.map fun u => s.font.putcGlyph (u.setWidth 32) :=
  ⟨fun hrows => print_returns hrows _, fun _ h => print_units hidle hunits h⟩

/-- A screen of one cell, without a table of codes. -/
def oneCell : Framebuffer :=
  fbInit ⟨8, 16, 8, by decide, by decide⟩ ⟨16, 0, 0, 0, none, by simp⟩ 0

/-- Units of one, two and three bytes. -/
theorem stored_name_decodes_small :
    (0 < oneCell.rows →
        ∃ t, oneCell.print ([0x41#16, 0x410#16, 0x20AC#16].flatMap ucs2ToUtf8) = some t) ∧
      ∀ t, oneCell.print ([0x41#16, 0x410#16, 0x20AC#16].flatMap ucs2ToUtf8) = some t →
        oneCell.selectedCodes ([0x41#16, 0x410#16, 0x20AC#16].flatMap ucs2ToUtf8) =
            [0x41#16, 0x410#16, 0x20AC#16].map (BitVec.setWidth 32) ∧
          t.utf8State = 0 ∧
          t.asked.map GlyphCall.glyph = oneCell.asked.map GlyphCall.glyph ++
            [0x41#16, 0x410#16, 0x20AC#16].map fun u => oneCell.font.putcGlyph (u.setWidth 32) :=
  stored_name_decodes oneCell _ rfl (by simp)

end Framebuffer

end EnclaveOS
