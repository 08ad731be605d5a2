import EnclaveOS.Foundation.ByteBitmap
import EnclaveOS.Arm.ArmPmm
import Mathlib.Data.List.Find

/-!
# ArmPmmBytes - the byte bitmap of the ARM page allocator

`arm_pmm.c` as it stands: a byte array, a software count of trailing zeros, a counter of
free pages that each call adjusts by itself, and the reservation of a range.  The allocator of
`ArmPmm`, whose counter is right by construction, is what it computes.
-/

namespace EnclaveOS

open PageWord ByteBitmap

/-- One line of `ctz32`: `if (!(x & mask)) { n += shift; x >>= shift; }`. -/
def ctzStep (mask : Word) (shift : Nat) (s : Nat × Word) : Nat × Word :=
  if s.2 &&& mask = 0#32 then (s.1 + shift, s.2 >>> shift) else s

/-- `ctz32`. -/
def ctz32 (x : Word) : Nat :=
  let s := (0, x)
  let s := ctzStep 0x0000FFFF#32 16 s
  let s := ctzStep 0x000000FF#32 8 s
  let s := ctzStep 0x0000000F#32 4 s
  let s := ctzStep 0x00000003#32 2 s
  let s := ctzStep 0x00000001#32 1 s
  s.1

/-- The zeros counted so far are shifted out, and a set bit stands in the next `k` places. -/
def Counted (x : Word) (k : Nat) (s : Nat × Word) : Prop :=
  x.toNat = s.2.toNat * 2 ^ s.1 ∧ s.2.toNat % 2 ^ k ≠ 0

theorem Counted.step {x : Word} {k : Nat} {s : Nat × Word} (h : Counted x (k + k) s)
    (mask : Word) (hmask : mask.toNat = 2 ^ k - 1) : Counted x k (ctzStep mask k s) := by
  obtain ⟨hx, hset⟩ := h
  have hand : (s.2 &&& mask).toNat = s.2.toNat % 2 ^ k := by
    rw [BitVec.toNat_and, hmask, Nat.and_two_pow_sub_one_eq_mod]
  unfold ctzStep
  by_cases hzero : s.2 &&& mask = 0#32
  · have hmod : s.2.toNat % 2 ^ k = 0 := by
      rw [← hand, hzero]
      rfl
    have hmul : 2 ^ k * (s.2.toNat / 2 ^ k) = s.2.toNat :=
      Nat.mul_div_cancel' (Nat.dvd_of_mod_eq_zero hmod)
    have hshift : (s.2 >>> k).toNat = s.2.toNat / 2 ^ k := by
      rw [BitVec.toNat_ushiftRight, Nat.shiftRight_eq_div_pow]
    rw [if_pos hzero]
    refine ⟨?_, fun hlow => hset ?_⟩
    · rw [hx]
      dsimp only
      rw [hshift, Nat.pow_add, Nat.mul_comm (2 ^ s.1), ← Nat.mul_assoc]
      rw [Nat.mul_comm (s.2.toNat / 2 ^ k), hmul]
    · dsimp only at hlow
      rw [hshift] at hlow
      rw [← hmul, Nat.pow_add, Nat.mul_mod_mul_left, hlow, Nat.mul_zero]
  · rw [if_neg hzero]
    refine ⟨hx, fun hlow => hzero ?_⟩
    apply BitVec.eq_of_toNat_eq
    rw [hand, hlow]
    rfl

/-- Where only the bit at hand is left to count, it is the lowest bit of the word. -/
theorem Counted.lowest {x : Word} {s : Nat × Word} (h : Counted x 1 s) :
    x.getLsbD s.1 = true ∧ ∀ j < s.1, x.getLsbD j = false := by
  obtain ⟨hx, hodd⟩ := h
  constructor
  · rw [BitVec.getLsbD, hx, Nat.testBit_mul_two_pow, Nat.sub_self, Nat.testBit_zero]
    simp only [le_refl, decide_true, Bool.true_and, decide_eq_true_eq]
    omega
  · intro j hj
    rw [BitVec.getLsbD, hx, Nat.testBit_mul_two_pow, decide_eq_false (Nat.not_le.mpr hj),
      Bool.false_and]

/-- `ctz32` of a word with a set bit is the place of its lowest one. -/
theorem ctz32_lowest {x : Word} (h : x ≠ 0#32) :
    x.getLsbD (ctz32 x) = true ∧ ∀ j < ctz32 x, x.getLsbD j = false := by
  have h32 : Counted x (16 + 16) (0, x) := by
    refine ⟨(Nat.mul_one _).symm, fun hzero => h ?_⟩
    apply BitVec.eq_of_toNat_eq
    rwa [Nat.mod_eq_of_lt x.isLt] at hzero
  have h16 : Counted x (8 + 8) _ := h32.step 0x0000FFFF#32 rfl
  have h8 : Counted x (4 + 4) _ := h16.step 0x000000FF#32 rfl
  have h4 : Counted x (2 + 2) _ := h8.step 0x0000000F#32 rfl
  have h2 : Counted x (1 + 1) _ := h4.step 0x00000003#32 rfl
  exact (h2.step 0x00000001#32 rfl).lowest

/-- Where a byte has a clear bit, `ctz32` of its inverse finds the first one. -/
theorem find_clear_eq_ctz32 (b : BitVec 8) :
    (List.range 8).find? (fun j => !b.getLsbD j) =
      if b ≠ 0xFF#8 then
        if ctz32 (~~~b.setWidth 32) < 8 then some (ctz32 (~~~b.setWidth 32)) else none
      else none := by
  have hinv : ∀ j < 32, (~~~b.setWidth 32).getLsbD j = !b.getLsbD j := by
    intro j hj
    rw [BitVec.getLsbD_not, BitVec.getLsbD_setWidth, decide_eq_true hj, Bool.true_and,
      Bool.true_and]
  have hne : ~~~b.setWidth 32 ≠ 0#32 := by
    intro hzero
    have h8 : (~~~b.setWidth 32).getLsbD 8 = true := by
      rw [hinv 8 (by omega), BitVec.getLsbD_of_ge b 8 (le_refl 8)]
      rfl
    rw [hzero] at h8
    cases h8
  obtain ⟨hset, hclear⟩ := ctz32_lowest hne
  by_cases hfull : b = 0xFF#8
  · rw [if_neg (not_not_intro hfull), hfull]
    rfl
  · rw [if_pos hfull]
    by_cases hlt : ctz32 (~~~b.setWidth 32) < 8
    · rw [if_pos hlt, List.find?_range_eq_some]
      refine ⟨by rw [← hinv _ (by omega), hset], List.mem_range.mpr hlt, fun j hj => ?_⟩
      rw [← hinv j (by omega), hclear j hj]
      rfl
    · -- No bit below the eighth is clear, so the byte is full.
      exfalso
      apply hfull
      apply BitVec.eq_of_getLsbD_eq
      intro j hj
      have hj' := hclear j (by omega)
      rw [hinv j (by omega), Bool.not_eq_false'] at hj'
      rw [hj', show (0xFF#8 : BitVec 8) = BitVec.allOnes 8 from rfl, BitVec.getLsbD_allOnes,
        decide_eq_true hj]

/-- The variables of `arm_pmm.c`. -/
@[ext]
structure ArmPmmState where
  pmmBitmap : Nat → BitVec 8
  pmmTotalPages : Nat
  pmmFreePages : Nat
  pmmAllocs : Nat
  pmmFrees : Nat

namespace ArmPmmState

/-- The variables before `arm_pmm_init`. -/
def boot : ArmPmmState := ⟨fun _ => 0#8, 0, 0, 0, 0⟩

/-- The body of the loop of `arm_pmm_init` that frees the memory above the first megabyte. -/
def initPage (s : ArmPmmState) (page : Nat) : ArmPmmState :=
  { s with
    pmmBitmap := clearBit s.pmmBitmap page
    pmmFreePages := wrap32 (s.pmmFreePages + 1) }

/-- `arm_pmm_init`, where `ramSize` is the size that `parse_atags` returns. -/
def armPmmInit (s : ArmPmmState) (ramSize : Word) : ArmPmmState :=
  let totalPages := ramSize.toNat / 4096
  let totalPages := if totalPages > armPmmMaxPages then armPmmMaxPages else totalPages
  let startPage := 0x00100000 / 4096
  (List.range' startPage (totalPages - startPage)).foldl initPage
    { s with pmmBitmap := fun _ => 0xFF#8, pmmTotalPages := totalPages }

/-- The body of the loop of `arm_pmm_reserve_range`. -/
def reservePage (s : ArmPmmState) (page : Nat) : ArmPmmState :=
  if testBit s.pmmBitmap page then s
  else
    { s with
      pmmBitmap := setBit s.pmmBitmap page
      pmmFreePages := if s.pmmFreePages > 0 then s.pmmFreePages - 1 else s.pmmFreePages }

/-- `arm_pmm_reserve_range`: the start is rounded down, the size up. -/
def armPmmReserveRange (s : ArmPmmState) (start size : Word) : ArmPmmState :=
  let start := if start.toNat % 4096 ≠ 0 then start &&& ~~~4095#32 else start
  let size := (size + 4095#32) &&& ~~~4095#32
  let startPage := start.toNat / 4096
  let endPage := (start + size).toNat / 4096
  let endPage := if endPage > s.pmmTotalPages then s.pmmTotalPages else endPage
  (List.range' startPage (endPage - startPage)).foldl reservePage s

/-- The scan of `arm_pmm_alloc_page`; the byte is promoted before it is inverted. -/
def scan (s : ArmPmmState) : Option Nat :=
  (List.range ((s.pmmTotalPages + 7) / 8)).findSome? fun i =>
    if s.pmmBitmap i ≠ 0xFF#8 then
      let bit := ctz32 (~~~(s.pmmBitmap i).setWidth 32)
      if bit < 8 then
        let page := i * 8 + bit
        if page < s.pmmTotalPages then some page else none
      else none
    else none

/-- `arm_pmm_alloc_page`. -/
def armPmmAllocPage (s : ArmPmmState) : ArmPmmState × Word :=
  if s.pmmFreePages = 0 then (s, 0#32)
  else
    match s.scan with
    | none => (s, 0#32)
    | some page =>
      ({ s with
          pmmBitmap := setBit s.pmmBitmap page
          pmmFreePages := s.pmmFreePages - 1
          pmmAllocs := wrap32 (s.pmmAllocs + 1) },
        frameAddr page)

/-- `arm_pmm_free_page`. -/
def armPmmFreePage (s : ArmPmmState) (physAddr : Word) : ArmPmmState :=
  if physAddr.toNat % 4096 ≠ 0 then s
  else
    let page := physAddr.toNat / 4096
    if page ≥ s.pmmTotalPages then s
    else if testBit s.pmmBitmap page then
      { s with
        pmmBitmap := clearBit s.pmmBitmap page
        pmmFreePages := wrap32 (s.pmmFreePages + 1)
        pmmFrees := wrap32 (s.pmmFrees + 1) }
    else s

end ArmPmmState

namespace ArmPmm

/-- A page reserved by hand; a page in use or past the end is left alone. -/
def reserve (p : ArmPmm) (f : Nat) : ArmPmm :=
  if h : f < p.totalPages ∧ p.bitmap f = false then { p.take f h with allocs := p.allocs } else p

end ArmPmm

/-- The bytes and counters hold the data of the allocator. -/
structure Represents (s : ArmPmmState) (p : ArmPmm) : Prop where
  bitmap : bit s.pmmBitmap = p.bitmap
  totalPages : s.pmmTotalPages = p.totalPages
  freePages : s.pmmFreePages = p.freePages
  allocs : s.pmmAllocs = p.allocs
  frees : s.pmmFrees = p.frees

theorem bit_setBit_eq_update (bytes : Nat → BitVec 8) (f : Nat) :
    bit (setBit bytes f) = Function.update (bit bytes) f true := by
  ext g
  rw [bit_setBit, Function.update_apply]

theorem bit_clearBit_eq_update (bytes : Nat → BitVec 8) (f : Nat) :
    bit (clearBit bytes f) = Function.update (bit bytes) f false := by
  ext g
  rw [bit_clearBit, Function.update_apply]

theorem bit_byte (bytes : Nat → BitVec 8) (i : Nat) {j : Nat} (hj : j < 8) :
    bit bytes (8 * i + j) = (bytes i).getLsbD j := by
  unfold bit
  rw [show (8 * i + j) / 8 = i by omega, show (8 * i + j) % 8 = j by omega]

namespace Represents

variable {s : ArmPmmState} {p : ArmPmm}

theorem counted (h : Represents s p) :
    s.pmmFreePages = clearBits (bit s.pmmBitmap) s.pmmTotalPages := by
  rw [h.freePages, h.bitmap, h.totalPages, p.counted]

/-- One more free page does not overflow the counter. -/
theorem wrap32_succ (h : Represents s p) : wrap32 (s.pmmFreePages + 1) = p.freePages + 1 := by
  have hle := clearBits_le p.bitmap p.totalPages
  have hfits : p.totalPages ≤ 131072 := p.totalFits
  rw [h.freePages, p.counted, wrap32]
  exact Nat.mod_eq_of_lt (by omega)

theorem scan (h : Represents s p) : s.scan = p.scan := by
  have hbyte : ∀ i, ArmPmm.freeBit p.bitmap i =
      if s.pmmBitmap i ≠ 0xFF#8 then
        if ctz32 (~~~(s.pmmBitmap i).setWidth 32) < 8 then
          some (ctz32 (~~~(s.pmmBitmap i).setWidth 32)) else none
      else none := by
    intro i
    rw [← find_clear_eq_ctz32, ← h.bitmap]
    apply List.find?_congr
    intro j hj
    rw [bit_byte _ _ (List.mem_range.mp hj)]
  unfold ArmPmmState.scan ArmPmm.scan
  rw [h.totalPages]
  congr 1
  ext1 i
  rw [hbyte i, Nat.mul_comm i 8]
  dsimp only
  by_cases hfull : s.pmmBitmap i ≠ 0xFF#8
  · rw [if_pos hfull, if_pos hfull]
    by_cases hlt : ctz32 (~~~(s.pmmBitmap i).setWidth 32) < 8
    · rw [if_pos hlt, if_pos hlt, Option.bind_some]
    · rw [if_neg hlt, if_neg hlt, Option.bind_none]
  · rw [if_neg hfull, if_neg hfull, Option.bind_none]

theorem allocPage (h : Represents s p) :
    Represents s.armPmmAllocPage.1 p.allocPage.1 ∧
      s.armPmmAllocPage.2 = p.allocPage.2 := by
  unfold ArmPmmState.armPmmAllocPage
  by_cases hfree : p.freePages = 0
  · rw [if_pos (h.freePages.trans hfree), ArmPmm.allocPage, if_pos hfree]
    exact ⟨h, rfl⟩
  · obtain ⟨f, hf⟩ := ArmPmm.scan_isSome hfree
    rw [if_neg (fun hzero => hfree (h.freePages.symm.trans hzero)), h.scan, hf,
      ArmPmm.allocPage_of_scan hfree hf]
    refine ⟨⟨?_, h.totalPages, ?_, ?_, h.frees⟩, rfl⟩
    · dsimp only
      rw [bit_setBit_eq_update, h.bitmap]
      rfl
    · exact congrArg (fun n => n - 1) h.freePages
    · exact congrArg (fun n => wrap32 (n + 1)) h.allocs

theorem freePage (h : Represents s p) (physAddr : Word) :
    Represents (s.armPmmFreePage physAddr) (p.freePage physAddr) := by
  unfold ArmPmmState.armPmmFreePage ArmPmm.freePage
  dsimp only
  rw [frameOf_eq_div, testBit_eq, h.bitmap, h.totalPages]
  by_cases halign : physAddr.toNat % 4096 ≠ 0
  · rwa [if_pos halign, if_pos halign]
  rw [if_neg halign, if_neg halign]
  by_cases hrange : physAddr.toNat / 4096 ≥ p.totalPages
  · rwa [if_pos hrange, dif_neg (fun hin => absurd hin.1 (Nat.not_lt.mpr hrange))]
  rw [if_neg hrange]
  by_cases hused : p.bitmap (physAddr.toNat / 4096) = true
  · rw [if_pos hused, dif_pos ⟨Nat.lt_of_not_le hrange, hused⟩]
    exact ⟨by rw [bit_clearBit_eq_update, h.bitmap]; rfl, rfl, h.wrap32_succ, h.allocs,
      congrArg (fun n => wrap32 (n + 1)) h.frees⟩
  · rwa [if_neg hused, dif_neg (fun hin => hused hin.2)]

theorem reservePage (h : Represents s p) {f : Nat} (hf : f < p.totalPages) :
    Represents (s.reservePage f) (p.reserve f) := by
  unfold ArmPmmState.reservePage ArmPmm.reserve
  rw [testBit_eq, h.bitmap]
  by_cases hused : p.bitmap f = true
  · rwa [if_pos hused, dif_neg (by simp [hused])]
  · have hclear : f < p.totalPages ∧ p.bitmap f = false := ⟨hf, Bool.eq_false_of_not_eq_true hused⟩
    rw [if_neg hused, dif_pos hclear]
    refine ⟨by rw [bit_setBit_eq_update, h.bitmap]; rfl, h.totalPages, ?_, h.allocs, h.frees⟩
    change (if s.pmmFreePages > 0 then _ else _) = p.freePages - 1
    rw [h.freePages]
    split_ifs with hpos
    · rfl
    · omega

/-- A reservation of pages that all exist. -/
theorem reservePages (h : Represents s p) {l : List Nat} (hl : ∀ f ∈ l, f < p.totalPages) :
    ∃ q, Represents (l.foldl ArmPmmState.reservePage s) q ∧ q.totalPages = p.totalPages ∧
      ∀ f, q.bitmap f = (p.bitmap f || decide (f ∈ l)) := by
  induction l generalizing s p with
  | nil => exact ⟨p, h, rfl, fun f => by simp⟩
  | cons f l ih =>
    obtain ⟨hf, hrest⟩ := List.forall_mem_cons.mp hl
    have htotal : (p.reserve f).totalPages = p.totalPages := by
      unfold ArmPmm.reserve
      split_ifs <;> rfl
    have hbit : ∀ g, (p.reserve f).bitmap g = (p.bitmap g || decide (g = f)) := by
      intro g
      unfold ArmPmm.reserve
      by_cases hclear : f < p.totalPages ∧ p.bitmap f = false
      · rw [dif_pos hclear]
        by_cases hg : g = f
        · simp [ArmPmm.take, hg]
        · simp [ArmPmm.take, hg]
      · rw [dif_neg hclear]
        by_cases hg : g = f
        · subst hg
          have hset : p.bitmap g = true := by
            by_contra hne
            exact hclear ⟨hf, Bool.eq_false_of_not_eq_true hne⟩
          simp [hset]
        · simp [hg]
    obtain ⟨q, hq, hqtotal, hqbit⟩ := ih (h.reservePage hf) (by rwa [htotal])
    refine ⟨q, hq, hqtotal.trans htotal, fun g => ?_⟩
    rw [hqbit, hbit, Bool.or_assoc]
    simp [List.mem_cons]

end Represents

/-- The pages that a reservation marks, before they are clamped to the memory there is. -/
def reservedEnd (start size : Nat) : Nat :=
  (start / 4096 + (size + 4095) / 4096) % 1048576

theorem physOf_toNat (w : Word) : (physOf w).toNat = w.toNat / 4096 * 4096 := by
  rw [physOf_eq_frameAddr, frameAddr_toNat (frameOf_lt w), frameOf_eq_div]

theorem armPmmReserveRange_eq (s : ArmPmmState) (start size : Word) :
    s.armPmmReserveRange start size =
      (List.range' (start.toNat / 4096)
        (min (reservedEnd start.toNat size.toNat) s.pmmTotalPages - start.toNat / 4096)).foldl
          ArmPmmState.reservePage s := by
  have hstart : (if start.toNat % 4096 ≠ 0 then start &&& ~~~4095#32 else start).toNat =
      start.toNat / 4096 * 4096 := by
    by_cases halign : start.toNat % 4096 ≠ 0
    · rw [if_pos halign]
      exact physOf_toNat start
    · rw [if_neg halign]
      omega
  have hsize : ((size + 4095#32) &&& ~~~4095#32).toNat =
      (size.toNat + 4095) % 4294967296 / 4096 * 4096 := physOf_toNat (size + 4095#32)
  have hend : (start.toNat / 4096 * 4096 +
      (size.toNat + 4095) % 4294967296 / 4096 * 4096) % 4294967296 / 4096 =
        reservedEnd start.toNat size.toNat := by
    unfold reservedEnd
    omega
  unfold ArmPmmState.armPmmReserveRange
  dsimp only
  rw [BitVec.toNat_add, hstart, hsize, hend, Nat.mul_div_cancel _ (by decide : 0 < 4096)]
  congr 3
  split_ifs with hclamp
  · exact (Nat.min_eq_right (Nat.le_of_lt hclamp)).symm
  · exact (Nat.min_eq_left (Nat.le_of_not_lt hclamp)).symm

/-- A reservation marks the pages from its start to its end that exist. -/
theorem Represents.reserveRange {s : ArmPmmState} {p : ArmPmm} (h : Represents s p)
    (start size : Word) :
    ∃ q, Represents (s.armPmmReserveRange start size) q ∧ q.totalPages = p.totalPages ∧
      ∀ f, q.bitmap f = true ↔ p.bitmap f = true ∨ start.toNat / 4096 ≤ f ∧
        f < min (reservedEnd start.toNat size.toNat) p.totalPages := by
  rw [armPmmReserveRange_eq, h.totalPages]
  generalize start.toNat / 4096 = first
  generalize reservedEnd start.toNat size.toNat = last
  have hmem : ∀ f, f ∈ List.range' first (min last p.totalPages - first) ↔
      first ≤ f ∧ f < min last p.totalPages := by
    intro f
    rw [List.mem_range'_1]
    omega
  have hrange : ∀ f ∈ List.range' first (min last p.totalPages - first), f < p.totalPages :=
    fun f hf => ((hmem f).mp hf).2.trans_le (Nat.min_le_right ..)
  obtain ⟨q, hq, htotal, hbit⟩ := h.reservePages hrange
  refine ⟨q, hq, htotal, fun f => ?_⟩
  rw [hbit, Bool.or_eq_true, decide_eq_true_eq, hmem]

/-- The loop of `arm_pmm_init` counts the pages it frees. -/
theorem initPages (s : ArmPmmState) (first : Nat) {n : Nat} (hn : n < 4294967296)
    (hzero : s.pmmFreePages = 0) :
    ∃ bytes, (List.range' first n).foldl ArmPmmState.initPage s =
        { s with pmmBitmap := bytes, pmmFreePages := n } ∧
      ∀ f, bit bytes f = (bit s.pmmBitmap f && !decide (first ≤ f ∧ f < first + n)) := by
  induction n with
  | zero =>
    refine ⟨s.pmmBitmap, ?_, fun f => ?_⟩
    · ext1 <;> simp [hzero]
    · have hempty : ¬(first ≤ f ∧ f < first + 0) := by omega
      rw [decide_eq_false hempty, Bool.not_false, Bool.and_true]
  | succ n ih =>
    obtain ⟨bytes, hfold, hbit⟩ := ih (by omega)
    refine ⟨clearBit bytes (first + n), ?_, fun f => ?_⟩
    · rw [List.range'_1_concat, List.foldl_append, hfold]
      simp only [List.foldl_cons, List.foldl_nil, ArmPmmState.initPage, wrap32,
        Nat.mod_eq_of_lt hn]
    · rw [bit_clearBit, hbit]
      by_cases hf : f = first + n
      · simp [hf]
      · have hsame : (first ≤ f ∧ f < first + (n + 1)) ↔ (first ≤ f ∧ f < first + n) := by omega
        rw [if_neg hf, decide_eq_decide.mpr hsame]

/-- `arm_pmm_init` computes the state that the allocator starts from. -/
theorem represents_init (ramSize : Word) :
    Represents (ArmPmmState.boot.armPmmInit ramSize) (ArmPmm.init ramSize.toNat) := by
  have htotal : (if ramSize.toNat / 4096 > armPmmMaxPages then armPmmMaxPages
      else ramSize.toNat / 4096) = min (ramSize.toNat / 4096) armPmmMaxPages := by
    split_ifs with hcap
    · exact (Nat.min_eq_right (Nat.le_of_lt hcap)).symm
    · exact (Nat.min_eq_left (Nat.le_of_not_lt hcap)).symm
  have hcap : min (ramSize.toNat / 4096) armPmmMaxPages ≤ 131072 := Nat.min_le_right ..
  unfold ArmPmmState.armPmmInit
  dsimp only
  rw [htotal]
  obtain ⟨bytes, hfold, hbit⟩ := initPages
    { ArmPmmState.boot with
      pmmBitmap := fun _ => 0xFF#8, pmmTotalPages := min (ramSize.toNat / 4096) armPmmMaxPages }
    (0x00100000 / 4096) (n := min (ramSize.toNat / 4096) armPmmMaxPages - 0x00100000 / 4096)
    (by omega) rfl
  rw [hfold]
  refine ⟨?_, rfl, rfl, rfl, rfl⟩
  ext f
  have hfull : bit (fun _ => 0xFF#8) f = true := by
    have hf : f % 8 < 8 := Nat.mod_lt _ (by omega)
    unfold bit
    rw [show (0xFF#8 : BitVec 8) = BitVec.allOnes 8 from rfl, BitVec.getLsbD_allOnes,
      decide_eq_true hf]
  rw [hbit, hfull, Bool.true_and]
  unfold ArmPmm.init
  dsimp only
  generalize min (ramSize.toNat / 4096) armPmmMaxPages = total
  have hplace : (0x00100000 / 4096 ≤ f ∧ f < 0x00100000 / 4096 + (total - 0x00100000 / 4096)) ↔
      (256 ≤ f ∧ f < total) := by omega
  rw [← Bool.decide_and, decide_eq_decide.mpr hplace]

end EnclaveOS
