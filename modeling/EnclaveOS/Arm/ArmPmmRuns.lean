import EnclaveOS.Arm.ArmPmmBytes

/-!
# ArmPmmRuns - every sequence of calls of the ARM page allocator

Allocations, reservations and frees of any addresses after `arm_pmm_init`.  Page 0 starts in
use; its address is the value by which an allocation reports that it failed, so the allocator is
exact as long as nobody gives that page back.
-/

namespace EnclaveOS

open PageWord ByteBitmap

/-- A call of the allocator. -/
inductive ArmPmmCall
  | allocPage
  | reserveRange (start size : Word)
  | freePage (physAddr : Word)
  deriving DecidableEq

namespace ArmPmmState

/-- The state after a call. -/
def call (s : ArmPmmState) : ArmPmmCall → ArmPmmState
  | .allocPage => s.armPmmAllocPage.1
  | .reserveRange start size => s.armPmmReserveRange start size
  | .freePage physAddr => s.armPmmFreePage physAddr

end ArmPmmState

/-- The state after `arm_pmm_init` on a machine of `ramSize` bytes and some calls. -/
def armPmmRun (ramSize : Word) (calls : List ArmPmmCall) : ArmPmmState :=
  calls.foldl ArmPmmState.call (ArmPmmState.boot.armPmmInit ramSize)

theorem armPmmRun_concat (ramSize : Word) (calls : List ArmPmmCall) (c : ArmPmmCall) :
    armPmmRun ramSize (calls ++ [c]) = (armPmmRun ramSize calls).call c := by
  rw [armPmmRun, List.foldl_append]
  rfl

/-- A page in use stays in use unless it is given back. -/
theorem ArmPmm.used_freePage {p : ArmPmm} {f : Nat} (hused : p.bitmap f = true) {physAddr : Word}
    (hne : physAddr.toNat ≠ f * 4096) : (p.freePage physAddr).bitmap f = true := by
  unfold ArmPmm.freePage
  by_cases halign : physAddr.toNat % 4096 ≠ 0
  · rwa [if_pos halign]
  rw [if_neg halign]
  by_cases hgive : frameOf physAddr < p.totalPages ∧ p.bitmap (frameOf physAddr) = true
  · rw [dif_pos hgive]
    have hf : f ≠ frameOf physAddr := by
      rw [frameOf_eq_div]
      omega
    simp [ArmPmm.giveBack, hf, hused]
  · rwa [dif_neg hgive]

/-- An allocation takes no page that is in use. -/
theorem ArmPmm.used_allocPage {p : ArmPmm} {f : Nat} (hused : p.bitmap f = true)
    (hf : f < 1048576) :
    p.allocPage.1.bitmap f = true ∧ (p.allocPage.2 ≠ 0#32 → p.allocPage.2 ≠ frameAddr f) := by
  rcases p.allocPage_cases with ⟨-, halloc⟩ | ⟨g, hg, halloc⟩
  · rw [halloc]
    exact ⟨hused, fun hne => absurd rfl hne⟩
  · have hne : f ≠ g := by
      intro heq
      rw [heq, hg.2] at hused
      cases hused
    rw [halloc]
    refine ⟨by rw [ArmPmm.take_bitmap_of_ne hg hne, hused], fun _ heq => hne ?_⟩
    have hframe := congrArg frameOf heq
    rw [frameOf_frameAddr (hg.1.trans p.totalPages_lt), frameOf_frameAddr hf] at hframe
    exact hframe.symm

/-- What a call does to the data that the bytes hold. -/
theorem Represents.call {s : ArmPmmState} {p : ArmPmm} (h : Represents s p) (c : ArmPmmCall) :
    ∃ q, Represents (s.call c) q ∧ q.totalPages = p.totalPages ∧
      (c ≠ .freePage 0#32 → p.bitmap 0 = true → q.bitmap 0 = true) := by
  cases c with
  | allocPage =>
    refine ⟨_, h.allocPage.1, ?_, fun _ hused => (ArmPmm.used_allocPage hused (by decide)).1⟩
    rcases p.allocPage_cases with ⟨-, halloc⟩ | ⟨g, hg, halloc⟩
    · rw [halloc]
    · rw [halloc]
      rfl
  | reserveRange start size =>
    obtain ⟨q, hq, htotal, hbit⟩ := h.reserveRange start size
    exact ⟨q, hq, htotal, fun _ hused => (hbit 0).mpr (Or.inl hused)⟩
  | freePage physAddr =>
    refine ⟨_, h.freePage physAddr, ?_, fun hne hused => ArmPmm.used_freePage hused ?_⟩
    · unfold ArmPmm.freePage
      split_ifs <;> rfl
    · intro hzero
      apply hne
      congr 1
      exact BitVec.eq_of_toNat_eq (hzero.trans (Nat.zero_mul _))

/-- The pages of a machine. -/
def armPages (ramSize : Word) : Nat := min (ramSize.toNat / 4096) armPmmMaxPages

/-- What holds after any calls: the bytes hold an allocator of the machine's pages, and page 0 is
in use unless it was given back. -/
theorem represents_run (ramSize : Word) (calls : List ArmPmmCall) :
    ∃ p, Represents (armPmmRun ramSize calls) p ∧ p.totalPages = armPages ramSize ∧
      (.freePage 0#32 ∉ calls → p.bitmap 0 = true) := by
  induction calls using List.reverseRecOn with
  | nil =>
    rw [armPmmRun, List.foldl_nil]
    exact ⟨_, represents_init ramSize, rfl, fun _ => by simp [ArmPmm.init]⟩
  | append_singleton calls c ih =>
    obtain ⟨p, hp, htotal, hzero⟩ := ih
    obtain ⟨q, hq, hqtotal, hkeep⟩ := hp.call c
    refine ⟨q, armPmmRun_concat ramSize calls c ▸ hq, hqtotal.trans htotal, fun hnot => ?_⟩
    rw [List.mem_append, List.mem_singleton, not_or] at hnot
    exact hkeep (Ne.symm hnot.2) (hzero hnot.1)

/-- What the allocator promises in a state: the counter, the result of an allocation, and the
frees that change nothing. -/
structure ArmPmmExact (s : ArmPmmState) : Prop where
  counted : s.pmmFreePages = clearBits (bit s.pmmBitmap) s.pmmTotalPages
  allocIff : s.armPmmAllocPage.2 ≠ 0#32 ↔ 0 < clearBits (bit s.pmmBitmap) s.pmmTotalPages
  allocTakes : s.armPmmAllocPage.2 ≠ 0#32 →
    ∃ f < s.pmmTotalPages, s.armPmmAllocPage.2 = frameAddr f ∧ bit s.pmmBitmap f = false ∧
      bit s.armPmmAllocPage.1.pmmBitmap = Function.update (bit s.pmmBitmap) f true
  freeIgnored : ∀ physAddr : Word,
    physAddr.toNat % 4096 ≠ 0 ∨ s.pmmTotalPages ≤ physAddr.toNat / 4096 ∨
      bit s.pmmBitmap (physAddr.toNat / 4096) = false → s.armPmmFreePage physAddr = s

/-- A free of an unaligned or unknown address, or of a free page, changes nothing. -/
theorem armPmmFreePage_ignored (s : ArmPmmState) {physAddr : Word}
    (h : physAddr.toNat % 4096 ≠ 0 ∨ s.pmmTotalPages ≤ physAddr.toNat / 4096 ∨
      bit s.pmmBitmap (physAddr.toNat / 4096) = false) : s.armPmmFreePage physAddr = s := by
  unfold ArmPmmState.armPmmFreePage
  dsimp only
  by_cases halign : physAddr.toNat % 4096 ≠ 0
  · rw [if_pos halign]
  by_cases hrange : physAddr.toNat / 4096 ≥ s.pmmTotalPages
  · rw [if_neg halign, if_pos hrange]
  · have hclear := (h.resolve_left halign).resolve_left hrange
    rw [if_neg halign, if_neg hrange, testBit_eq, hclear]
    rfl

/-- While page 0 is free an allocation takes it, and returns the value of a failure. -/
theorem ArmPmm.allocPage_zero {p : ArmPmm} (hpos : 0 < p.totalPages)
    (hclear : p.bitmap 0 = false) : p.allocPage.2 = 0#32 := by
  have hbit : ArmPmm.freeBit p.bitmap 0 = some 0 := by
    rw [ArmPmm.freeBit, List.find?_range_eq_some]
    exact ⟨by simp [hclear], by simp, fun j hj => absurd hj (Nat.not_lt_zero j)⟩
  have hscan : p.scan = some 0 := by
    have hbytes : (p.totalPages + 7) / 8 = (p.totalPages + 7) / 8 - 1 + 1 := by omega
    rw [ArmPmm.scan, hbytes, List.range_succ_eq_map, List.findSome?_cons, hbit, Option.bind_some,
      if_pos hpos]
  have hfree : p.freePages ≠ 0 := by
    rw [p.counted, clearBits, Ne, List.countP_eq_zero]
    exact fun hall => hall 0 (List.mem_range.mpr hpos) (by simp [hclear])
  rw [ArmPmm.allocPage_of_scan hfree hscan]
  rfl

/-- Freeing address 0 leaves page 0 free. -/
theorem ArmPmm.freePage_zero {p : ArmPmm} (hpos : 0 < p.totalPages) :
    (p.freePage 0#32).bitmap 0 = false := by
  have hframe : frameOf 0#32 = 0 := rfl
  unfold ArmPmm.freePage
  rw [if_neg (by decide), hframe]
  by_cases hused : p.bitmap 0 = true
  · rw [dif_pos ⟨hpos, hused⟩]
    exact Function.update_self (0 : Nat) false p.bitmap
  · rw [dif_neg fun h => hused h.2]
    exact Bool.eq_false_of_not_eq_true hused

/-- The allocator is exact as long as page 0 is in use. -/
theorem Represents.exact_iff {s : ArmPmmState} {p : ArmPmm} (h : Represents s p) :
    ArmPmmExact s ↔ p.totalPages = 0 ∨ p.bitmap 0 = true := by
  obtain ⟨hstate, hret⟩ := h.allocPage
  constructor
  · intro hexact
    by_contra hnot
    rw [not_or, Bool.not_eq_true] at hnot
    have hpos : 0 < p.totalPages := Nat.pos_of_ne_zero hnot.1
    have hsome : 0 < clearBits (bit s.pmmBitmap) s.pmmTotalPages := by
      rw [h.bitmap, h.totalPages, clearBits, List.countP_pos_iff]
      exact ⟨0, List.mem_range.mpr hpos, by simp [hnot.2]⟩
    apply hexact.allocIff.mpr hsome
    rw [hret, ArmPmm.allocPage_zero hpos hnot.2]
  · intro hzero
    rcases p.allocPage_cases with ⟨hfree, halloc⟩ | ⟨f, hf, halloc⟩
    · have hnone : clearBits (bit s.pmmBitmap) s.pmmTotalPages = 0 := by
        rw [← h.counted, h.freePages, hfree]
      have hfail : s.armPmmAllocPage.2 = 0#32 := by rw [hret, halloc]
      refine ⟨h.counted, ?_, fun hne => absurd hfail hne, fun _ => armPmmFreePage_ignored s⟩
      rw [hnone]
      exact iff_of_false (not_not_intro hfail) (Nat.lt_irrefl 0)
    · have hne : f ≠ 0 := by
        rintro rfl
        rcases hzero with hnone | hused
        · rw [hnone] at hf
          exact absurd hf.1 (Nat.not_lt_zero 0)
        · rw [hused] at hf
          cases hf.2
      have hpage : s.armPmmAllocPage.2 = frameAddr f := by rw [hret, halloc]
      have hsome : 0 < clearBits (bit s.pmmBitmap) s.pmmTotalPages := by
        rw [h.bitmap, h.totalPages, clearBits, List.countP_pos_iff]
        exact ⟨f, List.mem_range.mpr hf.1, by simp [hf.2]⟩
      have hnonzero : s.armPmmAllocPage.2 ≠ 0#32 := by
        rw [hpage]
        exact fun hz => hne ((frameAddr_eq_zero_iff (hf.1.trans p.totalPages_lt)).mp hz)
      refine ⟨h.counted, iff_of_true hnonzero hsome, fun _ => ?_,
        fun _ => armPmmFreePage_ignored s⟩
      refine ⟨f, h.totalPages ▸ hf.1, hpage, h.bitmap ▸ hf.2, ?_⟩
      rw [hstate.bitmap, halloc, h.bitmap]
      rfl

/-- The allocator is exact in every state that a sequence of calls passes through, unless page 0
exists and is freed. -/
theorem arm_pmm_exact_iff (ramSize : Word) (calls : List ArmPmmCall) :
    (∀ done, done <+: calls → ArmPmmExact (armPmmRun ramSize done)) ↔
      ramSize.toNat < 4096 ∨ .freePage 0#32 ∉ calls := by
  have hpages : armPages ramSize = 0 ↔ ramSize.toNat < 4096 := by
    unfold armPages armPmmMaxPages
    omega
  constructor
  · intro hexact
    by_contra hnot
    rw [not_or, not_not] at hnot
    obtain ⟨done, rest, hcalls⟩ := List.append_of_mem hnot.2
    obtain ⟨p, hp, htotal, -⟩ := represents_run ramSize done
    have hfreed : Represents (armPmmRun ramSize (done ++ [.freePage 0#32])) (p.freePage 0#32) := by
      rw [armPmmRun_concat]
      exact hp.freePage 0#32
    have hkept : (p.freePage 0#32).totalPages = p.totalPages := by
      unfold ArmPmm.freePage
      split_ifs <;> rfl
    have hpos : 0 < p.totalPages := by
      rw [htotal]
      exact Nat.pos_of_ne_zero fun hnone => hnot.1 (hpages.mp hnone)
    have hinit : done ++ [.freePage 0#32] <+: calls :=
      ⟨rest, by rw [hcalls, List.append_assoc, List.singleton_append]⟩
    rcases hfreed.exact_iff.mp (hexact _ hinit) with hnone | hused
    · omega
    · rw [ArmPmm.freePage_zero hpos] at hused
      cases hused
  · intro hsafe done hinit
    obtain ⟨p, hp, htotal, hzero⟩ := represents_run ramSize done
    rw [hp.exact_iff, htotal, hpages]
    exact hsafe.imp_right fun hnot => hzero fun hin => hnot (hinit.subset hin)

/-- Page 0 given back on a machine of one page is taken by an allocation that seems to fail. -/
theorem arm_pmm_not_exact : ¬ArmPmmExact (armPmmRun 4096#32 [.freePage 0#32]) := by
  intro h
  exact absurd (h.allocIff.mpr (by decide)) (by decide)

/-- A page that contains an address of the range. -/
def PageTouched (start size f : Nat) : Prop :=
  ∃ a, start ≤ a ∧ a < start + size ∧ a / 4096 = f

theorem pageTouched_iff {start size f : Nat} (hpos : 0 < size) :
    PageTouched start size f ↔ start / 4096 ≤ f ∧ f * 4096 < start + size := by
  constructor
  · rintro ⟨a, hlow, hhigh, rfl⟩
    omega
  · intro h
    by_cases hfirst : start / 4096 = f
    · exact ⟨start, le_refl _, by omega, hfirst⟩
    · exact ⟨f * 4096, by omega, h.2, Nat.mul_div_cancel f (by omega)⟩

/-- What a reservation promises: the pages of its range are in use, and no later allocation
returns one of them. -/
structure ReserveCovers (s : ArmPmmState) (start size : Word) : Prop where
  used : ∀ f < s.pmmTotalPages, PageTouched start.toNat size.toNat f →
    bit (s.armPmmReserveRange start size).pmmBitmap f = true
  kept : ∀ f < s.pmmTotalPages, PageTouched start.toNat size.toNat f → ∀ n,
    let t := (fun s => s.armPmmAllocPage.1)^[n] (s.armPmmReserveRange start size)
    t.armPmmAllocPage.2 ≠ 0#32 → t.armPmmAllocPage.2 ≠ frameAddr f

/-- A page in use is still in use after any number of allocations. -/
theorem Represents.used_allocs {s : ArmPmmState} {p : ArmPmm} (h : Represents s p) {f : Nat}
    (hused : p.bitmap f = true) (hf : f < 1048576) (n : Nat) :
    ∃ q, Represents ((fun s => s.armPmmAllocPage.1)^[n] s) q ∧ q.bitmap f = true := by
  induction n generalizing s p with
  | zero => exact ⟨p, h, hused⟩
  | succ n ih => exact ih h.allocPage.1 (ArmPmm.used_allocPage hused hf).1

theorem Represents.covers_iff {s : ArmPmmState} {p : ArmPmm} (h : Represents s p)
    (start size : Word) :
    ReserveCovers s start size ↔ ∀ f < p.totalPages, PageTouched start.toNat size.toNat f →
      p.bitmap f = true ∨
        start.toNat / 4096 ≤ f ∧ f < reservedEnd start.toNat size.toNat := by
  obtain ⟨q, hq, -, hbit⟩ := h.reserveRange start size
  have hmarked : ∀ f < p.totalPages, q.bitmap f = true ↔ p.bitmap f = true ∨
      start.toNat / 4096 ≤ f ∧ f < reservedEnd start.toNat size.toNat := by
    intro f hf
    rw [hbit, Nat.lt_min, and_iff_left hf]
  constructor
  · intro hcovers f hf htouched
    rw [← hmarked f hf, ← hq.bitmap]
    exact hcovers.used f (h.totalPages ▸ hf) htouched
  · intro hmark
    have hused : ∀ f < s.pmmTotalPages, PageTouched start.toNat size.toNat f →
        q.bitmap f = true := by
      intro f hf htouched
      rw [h.totalPages] at hf
      exact (hmarked f hf).mpr (hmark f hf htouched)
    refine ⟨fun f hf htouched => hq.bitmap ▸ hused f hf htouched, fun f hf htouched n => ?_⟩
    have hlt : f < 1048576 := (h.totalPages ▸ hf : f < p.totalPages).trans p.totalPages_lt
    obtain ⟨r, hr, hrused⟩ := hq.used_allocs (hused f hf htouched) hlt n
    dsimp only
    rw [hr.allocPage.2]
    exact (ArmPmm.used_allocPage hrused hlt).2

/-- The arithmetic of a reservation: where the sum of the rounded start and the rounded size is
4 GB or more it wraps to a page before the start, and nothing is marked. -/
theorem covers_iff_arith {used : Nat → Prop} {start size total : Nat} (hstart : start < 2 ^ 32)
    (hsize : size < 2 ^ 32) (htotal : total ≤ armPmmMaxPages) :
    (∀ f < total, PageTouched start size f →
        used f ∨ start / 4096 ≤ f ∧ f < reservedEnd start size) ↔
      size = 0 ∨ (∀ f, start / 4096 ≤ f → f < total → used f) ∨
        start / 4096 + (size + 4095) / 4096 < 1048576 ∧
          (start + size ≤ (start / 4096 + (size + 4095) / 4096) * 4096 ∨
            total ≤ start / 4096 + (size + 4095) / 4096 ∨
            used (start / 4096 + (size + 4095) / 4096)) := by
  unfold reservedEnd
  unfold armPmmMaxPages at htotal
  rcases Nat.eq_zero_or_pos size with hzero | hpos
  · refine iff_of_true (fun f _ htouched => ?_) (Or.inl hzero)
    obtain ⟨a, hlow, hhigh, -⟩ := htouched
    omega
  simp only [pageTouched_iff hpos]
  generalize hpast : start / 4096 + (size + 4095) / 4096 = past
  constructor
  · intro hcovers
    right
    by_cases hwrap : past < 1048576
    · right
      refine ⟨hwrap, ?_⟩
      by_contra hnot
      rw [not_or, not_or] at hnot
      rcases hcovers past (by omega) (by omega) with hused | hmarked
      · exact hnot.2.2 hused
      · omega
    · left
      intro f hlow hf
      rcases hcovers f hf (by omega) with hused | hmarked
      · exact hused
      · omega
  · intro hcond f hf htouched
    rcases hcond with hzero | hall | ⟨hwrap, hlast⟩
    · omega
    · exact Or.inl (hall f htouched.1 hf)
    · by_cases hin : f < past
      · right
        omega
      · left
        have hlastPage : f = past := by omega
        rcases hlast with hend | hend | hused
        · omega
        · omega
        · exact hlastPage ▸ hused

/-- A reservation covers its range when the range is empty, when all pages from its start were in
use, or when it ends below 4 GB and the page past the rounded size is not touched, does not exist
or was in use. -/
theorem arm_reserve_covers_iff (ramSize : Word) (calls : List ArmPmmCall) (start size : Word) :
    let s := armPmmRun ramSize calls
    let past := start.toNat / 4096 + (size.toNat + 4095) / 4096
    ReserveCovers s start size ↔
      size = 0#32 ∨
      (∀ f, start.toNat / 4096 ≤ f → f < s.pmmTotalPages → bit s.pmmBitmap f = true) ∨
      past < 1048576 ∧
        (start.toNat + size.toNat ≤ past * 4096 ∨ s.pmmTotalPages ≤ past ∨
          bit s.pmmBitmap past = true) := by
  obtain ⟨p, hp, -, -⟩ := represents_run ramSize calls
  have hempty : size = 0#32 ↔ size.toNat = 0 :=
    ⟨fun h => by rw [h]; rfl, fun h => BitVec.eq_of_toNat_eq h⟩
  dsimp only
  rw [hp.covers_iff start size, hp.totalPages, hp.bitmap, hempty]
  exact covers_iff_arith start.isLt size.isLt p.totalFits

/-- Two pages hold the range 0x100800..0x1017FF, and only the first is marked. -/
theorem arm_reserve_misses_page :
    ¬ReserveCovers (armPmmRun 0x102000#32 []) 0x100800#32 0x1000#32 := by
  intro h
  exact absurd (h.used 257 (by decide) ⟨0x101000, by decide, by decide, by decide⟩) (by decide)

end EnclaveOS
