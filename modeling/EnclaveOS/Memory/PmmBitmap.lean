import EnclaveOS.Foundation.ByteBitmap
import EnclaveOS.Foundation.Transfer
import EnclaveOS.Memory.BootSpec
import Mathlib.Data.List.Find

/-!
# PmmBitmap - the page allocator on its bitmap bytes

`pmm.c` keeps its bitmap as bytes, sets and clears bits byte by byte, and searches
it word by word.  Here the allocator is written on these bytes.
-/

namespace EnclaveOS

open PageWord ByteBitmap

/-- The global data of `pmm.c`, with `pmm_bitmap` as bytes. -/
structure BytePmm where
  pmmBitmap : Nat → BitVec 8
  pmmRefcounts : Nat → Nat
  totalAvailablePages : Nat
  usedPages : Nat
  pmmMaxPage : Nat
  pmmTotalAllocs : Nat
  pmmTotalFrees : Nat

namespace BytePmm

/-- The allocator with its bitmap as bits. -/
def pmm (b : BytePmm) : Pmm where
  bitmap := bit b.pmmBitmap
  refcounts := b.pmmRefcounts
  totalAvailablePages := b.totalAvailablePages
  usedPages := b.usedPages
  maxPage := b.pmmMaxPage
  totalAllocs := b.pmmTotalAllocs
  totalFrees := b.pmmTotalFrees

/-- One round of the loop of `pmm_free_region`. -/
def freeBit (b : BytePmm) (i : Nat) : BytePmm :=
  if testBit b.pmmBitmap i then
    { b with
      pmmBitmap := clearBit b.pmmBitmap i
      totalAvailablePages := wrap32 (b.totalAvailablePages + 1) }
  else b

/-- `pmm_free_region`. -/
def freeRegion (b : BytePmm) (base length : Nat) : BytePmm :=
  let alignBase := wrap64 (base + pmmPageSize - 1) / pmmPageSize * pmmPageSize
  let alignEnd := wrap64 (base + length) / pmmPageSize * pmmPageSize
  if alignEnd ≤ alignBase then b
  else
    let startPage := wrap32 (alignBase / pmmPageSize)
    let endPage := min (wrap32 (alignEnd / pmmPageSize)) b.pmmMaxPage
    if b.pmmMaxPage ≤ startPage then b
    else (List.range' startPage (endPage - startPage)).foldl freeBit b

/-- One round of the loop of `pmm_reserve_region`. -/
def reserveBit (b : BytePmm) (i : Nat) : BytePmm :=
  if !testBit b.pmmBitmap i then
    { b with
      pmmBitmap := setBit b.pmmBitmap i
      totalAvailablePages :=
        if 0 < b.totalAvailablePages then b.totalAvailablePages - 1 else b.totalAvailablePages }
  else b

/-- `pmm_reserve_region`. -/
def reserveRegion (b : BytePmm) (base «end» : Nat) : BytePmm :=
  if «end» ≤ base then b
  else
    let startPage := wrap32 (base / pmmPageSize)
    let endPage := min (wrap32 (wrap64 («end» + pmmPageSize - 1) / pmmPageSize)) b.pmmMaxPage
    if b.pmmMaxPage ≤ startPage then b
    else (List.range' startPage (endPage - startPage)).foldl reserveBit b

/-- `pmm_init`. -/
def init (info : BootInfo) : BytePmm :=
  let clean : BytePmm := ⟨fun _ => 0xFF#8, fun _ => 0, 0, 0, 0, 0, 0⟩
  let freed : BytePmm :=
    match info.memoryMap with
    | some map =>
      map.foldl
        (fun b e => if e.type = multibootMemoryAvailable then
          b.freeRegion e.addr e.len else b)
        { clean with pmmMaxPage := pmmDetectMaxPage map }
    | none =>
      freeRegion { clean with pmmMaxPage := 256 * 1024 * 1024 / pmmPageSize }
        0x00100000 (256 * 1024 * 1024)
  let low := freed.reserveRegion lowerMemStart lowerMemEnd
  let kernel := low.reserveRegion info.kernelStart info.kernelEnd
  let block :=
    match info.infoRegion with
    | some (base, stop) => kernel.reserveRegion base stop
    | none => kernel
  let mods := info.modules.foldl (fun b r => b.reserveRegion r.1 r.2) block
  if pciMmioHoleStart / pmmPageSize < mods.pmmMaxPage then
    mods.reserveRegion pciMmioHoleStart pciMmioHoleEnd
  else mods

/-- The loop of `pmm_alloc_page`: the word and the bit it takes. -/
def scanWords (b : BytePmm) : List Nat → Option (Nat × Nat)
  | [] => none
  | w :: ws =>
    let word := wordAt b.pmmBitmap w
    if word = 0xFFFFFFFF#32 then b.scanWords ws
    else
      let place := (~~~word).ctz.toNat
      if b.pmmMaxPage ≤ 32 * w + place then none else some (w, place)

/-- `pmm_alloc_page`. -/
def allocPage (b : BytePmm) : BytePmm × Word :=
  match b.scanWords (List.range ((b.pmmMaxPage + 31) / 32)) with
  | none => (b, 0#32)
  | some (w, place) =>
    ({ b with
        pmmBitmap := storeWord b.pmmBitmap w (wordAt b.pmmBitmap w ||| 1#32 <<< place)
        usedPages := wrap32 (b.usedPages + 1)
        pmmTotalAllocs := wrap32 (b.pmmTotalAllocs + 1)
        pmmRefcounts := Function.update b.pmmRefcounts (32 * w + place) 1 },
      frameAddr (32 * w + place))

/-- `pmm_free_page`. -/
def freePage (b : BytePmm) (physAddr : Word) : BytePmm :=
  let pageIndex := physAddr.toNat / pmmPageSize
  if physAddr.toNat % pmmPageSize ≠ 0 then b
  else if b.pmmMaxPage ≤ pageIndex then b
  else if !testBit b.pmmBitmap pageIndex then b
  else
    { b with
      pmmBitmap := clearBit b.pmmBitmap pageIndex
      usedPages := b.usedPages - 1
      pmmTotalFrees := wrap32 (b.pmmTotalFrees + 1)
      pmmRefcounts := Function.update b.pmmRefcounts pageIndex 0 }

/-- `pmm_inc_ref`. -/
def incRef (b : BytePmm) (physAddr : Word) : BytePmm :=
  let pageIndex := physAddr.toNat / pmmPageSize
  if physAddr.toNat % pmmPageSize ≠ 0 then b
  else if b.pmmMaxPage ≤ pageIndex then b
  else if b.pmmRefcounts pageIndex < 0xFFFF then
    { b with
      pmmRefcounts := Function.update b.pmmRefcounts pageIndex (b.pmmRefcounts pageIndex + 1) }
  else b

/-- `pmm_dec_ref`. -/
def decRef (b : BytePmm) (physAddr : Word) : BytePmm :=
  let pageIndex := physAddr.toNat / pmmPageSize
  if physAddr.toNat % pmmPageSize ≠ 0 then b
  else if b.pmmMaxPage ≤ pageIndex then b
  else if 0 < b.pmmRefcounts pageIndex then
    let b' := { b with
      pmmRefcounts := Function.update b.pmmRefcounts pageIndex (b.pmmRefcounts pageIndex - 1) }
    if b'.pmmRefcounts pageIndex = 0 then b'.freePage physAddr else b'
  else b

/-- `pmm_get_free_pages`. -/
def getFreePages (b : BytePmm) : Nat :=
  wrap32 (b.totalAvailablePages + 4294967296 - b.usedPages)

/-- `pmm_check_balance`. -/
def checkBalance (b : BytePmm) : Int :=
  (BitVec.ofNat 32 b.pmmTotalAllocs - BitVec.ofNat 32 b.pmmTotalFrees).toInt

variable {b : BytePmm}

theorem freeBit_bit (i j : Nat) :
    bit (b.freeBit i).pmmBitmap j = if j = i then false else bit b.pmmBitmap j := by
  unfold freeBit
  rw [testBit_eq]
  cases hi : bit b.pmmBitmap i with
  | true => exact bit_clearBit i j
  | false =>
    rw [if_neg Bool.false_ne_true]
    split_ifs with hji
    · rw [hji, hi]
    · rfl

theorem reserveBit_bit (i j : Nat) :
    bit (b.reserveBit i).pmmBitmap j = if j = i then true else bit b.pmmBitmap j := by
  unfold reserveBit
  rw [testBit_eq]
  cases hi : bit b.pmmBitmap i with
  | false => exact bit_setBit i j
  | true =>
    rw [Bool.not_true, if_neg Bool.false_ne_true]
    split_ifs with hji
    · rw [hji, hi]
    · rfl

theorem freeBit_maxPage (i : Nat) : (b.freeBit i).pmmMaxPage = b.pmmMaxPage := by
  unfold freeBit
  split_ifs <;> rfl

theorem reserveBit_maxPage (i : Nat) : (b.reserveBit i).pmmMaxPage = b.pmmMaxPage := by
  unfold reserveBit
  split_ifs <;> rfl

theorem freeBit_total (i : Nat) :
    (b.freeBit i).totalAvailablePages =
      if bit b.pmmBitmap i then wrap32 (b.totalAvailablePages + 1) else b.totalAvailablePages := by
  unfold freeBit
  rw [testBit_eq]
  split_ifs <;> rfl

theorem reserveBit_total (i : Nat) :
    (b.reserveBit i).totalAvailablePages =
      b.totalAvailablePages - if !bit b.pmmBitmap i then 1 else 0 := by
  unfold reserveBit
  rw [testBit_eq]
  cases bit b.pmmBitmap i with
  | true => rfl
  | false =>
    simp only [Bool.not_false, if_true]
    split_ifs
    · rfl
    · omega

/-- The loop of `pmm_free_region` clears the bits of its pages at once. -/
theorem foldl_freeBit_pmm {l : List Nat} (hl : l.Nodup) (htotal : b.totalAvailablePages < 4294967296) :
    (l.foldl freeBit b).pmm =
      { b.pmm with
        bitmap := fun j => if j ∈ l then false else bit b.pmmBitmap j
        totalAvailablePages :=
          wrap32 (b.totalAvailablePages + l.countP (bit b.pmmBitmap)) } := by
  induction l generalizing b with
  | nil => simp [pmm, wrap32, Nat.mod_eq_of_lt htotal]
  | cons i rest ih =>
    obtain ⟨hi, hrest⟩ := List.nodup_cons.mp hl
    have hnext : (b.freeBit i).totalAvailablePages =
        wrap32 (b.totalAvailablePages + if bit b.pmmBitmap i then 1 else 0) := by
      rw [freeBit_total]
      cases bit b.pmmBitmap i with
      | true => rfl
      | false => exact (Nat.mod_eq_of_lt htotal).symm
    have hcount : rest.countP (bit (b.freeBit i).pmmBitmap) = rest.countP (bit b.pmmBitmap) := by
      apply List.countP_congr
      intro j hj
      rw [freeBit_bit, if_neg (by rintro rfl; exact hi hj)]
    have hkeep : (b.freeBit i).pmm = { b.pmm with
        bitmap := bit (b.freeBit i).pmmBitmap
        totalAvailablePages := (b.freeBit i).totalAvailablePages } := by
      unfold freeBit
      split_ifs <;> rfl
    rw [List.foldl_cons, ih hrest (by rw [hnext]; exact Nat.mod_lt _ (by omega)), hkeep, hcount,
      hnext, List.countP_cons]
    dsimp only
    congr 1
    · funext j
      rw [freeBit_bit]
      by_cases hji : j = i
      · simp [hji]
      · simp [hji]
    · unfold wrap32
      omega

/-- The loop of `pmm_reserve_region` sets the bits of its pages at once. -/
theorem foldl_reserveBit_pmm {l : List Nat} (hl : l.Nodup) :
    (l.foldl reserveBit b).pmm =
      { b.pmm with
        bitmap := fun j => if j ∈ l then true else bit b.pmmBitmap j
        totalAvailablePages :=
          b.totalAvailablePages - l.countP fun j => !bit b.pmmBitmap j } := by
  induction l generalizing b with
  | nil => simp [pmm]
  | cons i rest ih =>
    obtain ⟨hi, hrest⟩ := List.nodup_cons.mp hl
    have hcount : rest.countP (fun j => !bit (b.reserveBit i).pmmBitmap j) =
        rest.countP fun j => !bit b.pmmBitmap j := by
      apply List.countP_congr
      intro j hj
      rw [reserveBit_bit, if_neg (by rintro rfl; exact hi hj)]
    have hkeep : (b.reserveBit i).pmm = { b.pmm with
        bitmap := bit (b.reserveBit i).pmmBitmap
        totalAvailablePages := (b.reserveBit i).totalAvailablePages } := by
      unfold reserveBit
      split_ifs <;> rfl
    rw [List.foldl_cons, ih hrest, hkeep, hcount, reserveBit_total, List.countP_cons]
    dsimp only
    congr 1
    · funext j
      rw [reserveBit_bit]
      by_cases hji : j = i
      · simp [hji]
      · simp [hji]
    · omega

theorem mem_pages {start stop j : Nat} :
    j ∈ List.range' start (stop - start) ↔ start ≤ j ∧ j < stop := by
  rw [List.mem_range'_1]
  omega

theorem freeRegion_pmm (htotal : b.totalAvailablePages < 4294967296) (base length : Nat) :
    (b.freeRegion base length).pmm = pmmFreeRegion b.pmm base length := by
  unfold freeRegion pmmFreeRegion
  dsimp only
  rw [show b.pmm.maxPage = b.pmmMaxPage from rfl]
  split_ifs
  · rfl
  · rfl
  · rw [foldl_freeBit_pmm List.nodup_range' htotal]
    simp only [mem_pages]
    rfl

theorem reserveRegion_pmm (base stop : Nat) :
    (b.reserveRegion base stop).pmm = pmmReserveRegion b.pmm base stop := by
  unfold reserveRegion pmmReserveRegion
  dsimp only
  rw [show b.pmm.maxPage = b.pmmMaxPage from rfl]
  split_ifs
  · rfl
  · rfl
  · rw [foldl_reserveBit_pmm List.nodup_range']
    simp only [mem_pages]
    rfl

theorem freeRegion_total (htotal : b.totalAvailablePages < 4294967296) (base length : Nat) :
    (b.freeRegion base length).totalAvailablePages < 4294967296 := by
  have hpmm := congrArg Pmm.totalAvailablePages (freeRegion_pmm htotal base length)
  change (b.freeRegion base length).totalAvailablePages = _ at hpmm
  rw [hpmm]
  unfold pmmFreeRegion
  dsimp only
  split_ifs
  · exact htotal
  · exact htotal
  · exact Nat.mod_lt _ (by omega)

/-- A list of regions to free. -/
theorem foldl_freeRegion_pmm (map : List E820Entry) (htotal : b.totalAvailablePages < 4294967296) :
    (map.foldl (fun b e => if e.type = multibootMemoryAvailable then
        b.freeRegion e.addr e.len else b) b).pmm =
      map.foldl (fun p e => if e.type = multibootMemoryAvailable then
        pmmFreeRegion p e.addr e.len else p) b.pmm := by
  induction map generalizing b with
  | nil => rfl
  | cons e rest ih =>
    rw [List.foldl_cons, List.foldl_cons]
    split_ifs
    · rw [ih (freeRegion_total htotal _ _), freeRegion_pmm htotal]
    · exact ih htotal

/-- A list of regions to reserve. -/
theorem foldl_reserveRegion_pmm (l : List (Nat × Nat)) :
    (l.foldl (fun b r => b.reserveRegion r.1 r.2) b).pmm =
      l.foldl (fun p r => pmmReserveRegion p r.1 r.2) b.pmm := by
  induction l generalizing b with
  | nil => rfl
  | cons r rest ih => rw [List.foldl_cons, List.foldl_cons, ih, reserveRegion_pmm]

/-- The bytes `0xFF` of a bitmap without free pages. -/
theorem bit_full (i : Nat) : bit (fun _ => 0xFF#8) i = true := by
  have hi : i % 8 < 8 := Nat.mod_lt _ (by omega)
  unfold bit
  rw [show (0xFF#8 : BitVec 8) = BitVec.allOnes 8 from rfl, BitVec.getLsbD_allOnes]
  exact decide_eq_true hi

/-- `pmm_init` on the bytes of the bitmap computes the bits of `pmmInit`. -/
theorem init_pmm (info : BootInfo) : (init info).pmm = pmmInit info := by
  obtain ⟨map, region, modules, kernelStart, kernelEnd⟩ := info
  have hclean : ∀ n, pmm ⟨fun _ => 0xFF#8, fun _ => 0, 0, 0, n, 0, 0⟩ =
      ⟨fun _ => true, fun _ => 0, 0, 0, n, 0, 0⟩ := by
    intro n
    unfold pmm
    simp only [funext bit_full]
  have hif : ∀ (c : Prop) [Decidable c] (x y : BytePmm),
      (if c then x else y).pmm = if c then x.pmm else y.pmm := by
    intro c _ x y
    split_ifs <;> rfl
  unfold init pmmInit
  dsimp only
  rw [hif, reserveRegion_pmm, foldl_reserveRegion_pmm]
  have hmax : ∀ x : BytePmm, x.pmmMaxPage = x.pmm.maxPage := fun _ => rfl
  rw [hmax, foldl_reserveRegion_pmm]
  have hblock : ∀ x : BytePmm, (match region with
      | some (base, stop) => x.reserveRegion base stop
      | none => x).pmm = match region with
      | some (base, stop) => pmmReserveRegion x.pmm base stop
      | none => x.pmm := by
    intro x
    cases region with
    | none => rfl
    | some r => exact reserveRegion_pmm _ _
  rw [hblock, reserveRegion_pmm, reserveRegion_pmm]
  cases map with
  | none =>
    rewrite [freeRegion_pmm (by decide), hclean]
    rfl
  | some map =>
    rewrite [foldl_freeRegion_pmm map (Nat.succ_pos _), hclean]
    rfl

/-- The search through words is the search through bits. -/
theorem scanWords_eq (l : List Nat) :
    scanBitmapWords b.pmm l = (b.scanWords l).map fun found => 32 * found.1 + found.2 := by
  induction l with
  | nil => rfl
  | cons w rest ih =>
    have hlowest : lowestFreeBit b.pmm w =
        (List.range 32).find? fun k => !(wordAt b.pmmBitmap w).getLsbD k := by
      unfold lowestFreeBit
      apply List.find?_congr
      intro k hk
      rw [getLsbD_wordAt w (List.mem_range.mp hk)]
      rfl
    rw [scanBitmapWords, scanWords, hlowest, find_clear_eq_ctz, ih]
    by_cases hfull : wordAt b.pmmBitmap w = 0xFFFFFFFF#32
    · rw [if_pos hfull, if_pos hfull]
    · rw [if_neg hfull, if_neg hfull]
      dsimp only
      rw [show b.pmm.maxPage = b.pmmMaxPage from rfl]
      split_ifs <;> rfl

theorem scanWords_place {l : List Nat} {w place : Nat} (h : b.scanWords l = some (w, place)) :
    place < 32 := by
  induction l with
  | nil => cases h
  | cons v rest ih =>
    rw [scanWords] at h
    by_cases hfull : wordAt b.pmmBitmap v = 0xFFFFFFFF#32
    · rw [if_pos hfull] at h
      exact ih h
    · rw [if_neg hfull] at h
      dsimp only at h
      split_ifs at h
      cases h
      have hfind := find_clear_eq_ctz (wordAt b.pmmBitmap w)
      rw [if_neg hfull] at hfind
      exact List.mem_range.mp (List.mem_of_find?_eq_some hfind)

theorem allocPage_pmm :
    b.allocPage.1.pmm = (pmmAllocPage b.pmm).1 ∧ b.allocPage.2 = (pmmAllocPage b.pmm).2 := by
  unfold allocPage pmmAllocPage
  rw [scanWords_eq, show b.pmm.maxPage = b.pmmMaxPage from rfl]
  rcases hscan : b.scanWords (List.range ((b.pmmMaxPage + 31) / 32)) with _ | ⟨w, place⟩
  · exact ⟨rfl, rfl⟩
  · refine ⟨?_, rfl⟩
    have hbits : bit (storeWord b.pmmBitmap w (wordAt b.pmmBitmap w ||| 1#32 <<< place)) =
        Function.update (bit b.pmmBitmap) (32 * w + place) true := by
      funext i
      rw [bit_storeWord_or w (scanWords_place hscan), Function.update_apply]
    dsimp only [Option.map_some]
    unfold pmm Pmm.take
    dsimp only
    rw [hbits]

theorem freePage_pmm (physAddr : Word) : (b.freePage physAddr).pmm = pmmFreePage b.pmm physAddr := by
  unfold freePage pmmFreePage
  dsimp only
  rw [testBit_eq, show b.pmm.maxPage = b.pmmMaxPage from rfl,
    show b.pmm.bitmap = bit b.pmmBitmap from rfl]
  split_ifs
  · rfl
  · rfl
  · rfl
  · have hbits : bit (clearBit b.pmmBitmap (physAddr.toNat / pmmPageSize)) =
        Function.update (bit b.pmmBitmap) (physAddr.toNat / pmmPageSize) false := by
      funext i
      rw [bit_clearBit, Function.update_apply]
    unfold pmm Pmm.release
    dsimp only
    rw [hbits]

theorem incRef_pmm (physAddr : Word) : (b.incRef physAddr).pmm = pmmIncRef b.pmm physAddr := by
  unfold incRef pmmIncRef
  dsimp only
  rw [show b.pmm.maxPage = b.pmmMaxPage from rfl,
    show b.pmm.refcounts = b.pmmRefcounts from rfl]
  split_ifs <;> rfl

theorem decRef_pmm (physAddr : Word) : (b.decRef physAddr).pmm = pmmDecRef b.pmm physAddr := by
  unfold decRef pmmDecRef
  dsimp only
  rw [show b.pmm.maxPage = b.pmmMaxPage from rfl,
    show b.pmm.refcounts = b.pmmRefcounts from rfl, Pmm.setRef_refcounts,
    show b.pmm.refcounts = b.pmmRefcounts from rfl]
  split_ifs
  · rfl
  · rfl
  · exact freePage_pmm physAddr
  · rfl
  · rfl

end BytePmm

/-- The calls of `pmm.h` after `pmm_init`. -/
inductive PmmCall where
  | reserveRegion (base stop : Nat)
  | allocPage
  | freePage (physAddr : Word)
  | incRef (physAddr : Word)
  | decRef (physAddr : Word)
  | getFreePages

/-- A call on the bytes, with what it returns; 0 for `void`. -/
def BytePmm.call (b : BytePmm) : PmmCall → Nat × BytePmm
  | .reserveRegion base stop => (0, b.reserveRegion base stop)
  | .allocPage => (b.allocPage.2.toNat, b.allocPage.1)
  | .freePage physAddr => (0, b.freePage physAddr)
  | .incRef physAddr => (0, b.incRef physAddr)
  | .decRef physAddr => (0, b.decRef physAddr)
  | .getFreePages => (b.getFreePages, b)

/-- A call on the bits. -/
def Pmm.call (p : Pmm) : PmmCall → Nat × Pmm
  | .reserveRegion base stop => (0, pmmReserveRegion p base stop)
  | .allocPage => ((pmmAllocPage p).2.toNat, (pmmAllocPage p).1)
  | .freePage physAddr => (0, pmmFreePage p physAddr)
  | .incRef physAddr => (0, pmmIncRef p physAddr)
  | .decRef physAddr => (0, pmmDecRef p physAddr)
  | .getFreePages => (pmmGetFreePages p, p)

theorem BytePmm.call_pmm (b : BytePmm) (c : PmmCall) :
    b.pmm.call c = ((b.call c).1, (b.call c).2.pmm) := by
  cases c with
  | reserveRegion base stop => simp only [Pmm.call, call, reserveRegion_pmm]
  | allocPage => simp only [Pmm.call, call, allocPage_pmm]
  | freePage physAddr => simp only [Pmm.call, call, freePage_pmm]
  | incRef physAddr => simp only [Pmm.call, call, incRef_pmm]
  | decRef physAddr => simp only [Pmm.call, call, decRef_pmm]
  | getFreePages => rfl

/-- From boot on, the byte bitmap with its word search answers every sequence of calls as
the bits and the search through bits do. -/
theorem byte_pmm_refines (info : BootInfo) (calls : List PmmCall) :
    Transfer.runAll Pmm.call (pmmInit info) calls =
      ((Transfer.runAll BytePmm.call (.init info) calls).1,
        (Transfer.runAll BytePmm.call (.init info) calls).2.pmm) := by
  rw [← BytePmm.init_pmm]
  exact Transfer.runAll_map BytePmm.call_pmm _ calls

end EnclaveOS
