import EnclaveOS.Config
import Mathlib.Data.List.Basic

/-!
# Pmm - the physical page allocator

The bitmap and the reference counts of `pmm.c`, indexed by page number.
Physical addresses passed in and out are 32-bit words, as in the source.  The
critical sections of the source make each call atomic, so a call is one
function on the allocator state; serial output is left out.
-/

namespace EnclaveOS

open PageWord

/-- The global data of the physical memory manager. -/
structure Pmm where
  bitmap : Nat → Bool
  refcounts : Nat → Nat
  totalAvailablePages : Nat
  usedPages : Nat
  maxPage : Nat
  totalAllocs : Nat
  totalFrees : Nat

namespace Pmm

/-- Bookkeeping of a successful allocation of page `f`. -/
def take (p : Pmm) (f : Nat) : Pmm :=
  { p with
    bitmap := Function.update p.bitmap f true
    refcounts := Function.update p.refcounts f 1
    usedPages := wrap32 (p.usedPages + 1)
    totalAllocs := wrap32 (p.totalAllocs + 1) }

/-- Bookkeeping of a successful free of page `f`. -/
def release (p : Pmm) (f : Nat) : Pmm :=
  { p with
    bitmap := Function.update p.bitmap f false
    refcounts := Function.update p.refcounts f 0
    usedPages := p.usedPages - 1
    totalFrees := wrap32 (p.totalFrees + 1) }

/-- The allocator with one reference count rewritten. -/
def setRef (p : Pmm) (f n : Nat) : Pmm :=
  { p with refcounts := Function.update p.refcounts f n }

@[simp] theorem take_bitmap (p : Pmm) (f : Nat) :
    (p.take f).bitmap = Function.update p.bitmap f true := rfl
@[simp] theorem take_refcounts (p : Pmm) (f : Nat) :
    (p.take f).refcounts = Function.update p.refcounts f 1 := rfl
@[simp] theorem take_maxPage (p : Pmm) (f : Nat) : (p.take f).maxPage = p.maxPage := rfl
@[simp] theorem release_bitmap (p : Pmm) (f : Nat) :
    (p.release f).bitmap = Function.update p.bitmap f false := rfl
@[simp] theorem release_refcounts (p : Pmm) (f : Nat) :
    (p.release f).refcounts = Function.update p.refcounts f 0 := rfl
@[simp] theorem release_maxPage (p : Pmm) (f : Nat) : (p.release f).maxPage = p.maxPage := rfl
@[simp] theorem setRef_bitmap (p : Pmm) (f n : Nat) : (p.setRef f n).bitmap = p.bitmap := rfl
@[simp] theorem setRef_refcounts (p : Pmm) (f n : Nat) :
    (p.setRef f n).refcounts = Function.update p.refcounts f n := rfl
@[simp] theorem setRef_maxPage (p : Pmm) (f n : Nat) : (p.setRef f n).maxPage = p.maxPage := rfl

end Pmm

/-- One entry of the E820 memory map. -/
structure E820Entry where
  addr : Nat
  len : Nat
  type : Nat

/-- What `pmm_init` reads of the multiboot information and the linker
symbols: the memory map when the loader passed one, the physical extent of the
information block, the loaded modules, and the physical kernel image. -/
structure BootInfo where
  memoryMap : Option (List E820Entry)
  infoRegion : Option (Nat × Nat)
  modules : List (Nat × Nat)
  kernelStart : Nat
  kernelEnd : Nat

/-- `MULTIBOOT_MEMORY_AVAILABLE`. -/
def multibootMemoryAvailable : Nat := 1

/-- `pmm_free_region`.  The loop tests and clears each page of the region
once, so the region is written at once. -/
def pmmFreeRegion (p : Pmm) (base length : Nat) : Pmm :=
  let alignBase := wrap64 (base + pmmPageSize - 1) / pmmPageSize * pmmPageSize
  let alignEnd := wrap64 (base + length) / pmmPageSize * pmmPageSize
  if alignEnd ≤ alignBase then p
  else
    let startPage := wrap32 (alignBase / pmmPageSize)
    let endPage := min (wrap32 (alignEnd / pmmPageSize)) p.maxPage
    if p.maxPage ≤ startPage then p
    else
      { p with
        bitmap := fun i => if startPage ≤ i ∧ i < endPage then false else p.bitmap i
        totalAvailablePages := wrap32 (p.totalAvailablePages +
          (List.range' startPage (endPage - startPage)).countP p.bitmap) }

/-- `pmm_reserve_region`.  The count of available pages stops at zero. -/
def pmmReserveRegion (p : Pmm) (base «end» : Nat) : Pmm :=
  if «end» ≤ base then p
  else
    let startPage := wrap32 (base / pmmPageSize)
    let endPage := min (wrap32 (wrap64 («end» + pmmPageSize - 1) / pmmPageSize)) p.maxPage
    if p.maxPage ≤ startPage then p
    else
      { p with
        bitmap := fun i => if startPage ≤ i ∧ i < endPage then true else p.bitmap i
        totalAvailablePages := p.totalAvailablePages -
          (List.range' startPage (endPage - startPage)).countP fun i => !p.bitmap i }

/-- The page limit `pmm_init` derives from the memory map. -/
def pmmDetectMaxPage (map : List E820Entry) : Nat :=
  let maxAddr := map.foldl
    (fun acc e => if e.type = multibootMemoryAvailable then
      max acc (wrap64 (e.addr + e.len)) else acc) 0
  min (min maxAddr 0xFFFFFFFF / pmmPageSize) pmmMaxPages

/-- `pmm_init`: everything is reserved, the available regions are freed,
and the fixed holes are reserved again. -/
def pmmInit (info : BootInfo) : Pmm :=
  let clean : Pmm := ⟨fun _ => true, fun _ => 0, 0, 0, 0, 0, 0⟩
  let freed : Pmm :=
    match info.memoryMap with
    | some map =>
      map.foldl
        (fun p e => if e.type = multibootMemoryAvailable then
          pmmFreeRegion p e.addr e.len else p)
        { clean with maxPage := pmmDetectMaxPage map }
    | none =>
      pmmFreeRegion { clean with maxPage := 256 * 1024 * 1024 / pmmPageSize }
        0x00100000 (256 * 1024 * 1024)
  let low := pmmReserveRegion freed lowerMemStart lowerMemEnd
  let kernel := pmmReserveRegion low info.kernelStart info.kernelEnd
  let block :=
    match info.infoRegion with
    | some (base, stop) => pmmReserveRegion kernel base stop
    | none => kernel
  let mods := info.modules.foldl (fun p r => pmmReserveRegion p r.1 r.2) block
  if pciMmioHoleStart / pmmPageSize < mods.maxPage then
    pmmReserveRegion mods pciMmioHoleStart pciMmioHoleEnd
  else mods

/-- `__builtin_ctz(~word)`: the lowest clear bit of a bitmap word. -/
def lowestFreeBit (p : Pmm) (w : Nat) : Option Nat :=
  (List.range 32).find? fun b => !p.bitmap (32 * w + b)

/-- The word loop of `pmm_alloc_page`: full words are skipped, and a clear
bit at or beyond the page limit ends the search. -/
def scanBitmapWords (p : Pmm) : List Nat → Option Nat
  | [] => none
  | w :: ws =>
    match lowestFreeBit p w with
    | none => scanBitmapWords p ws
    | some b => if p.maxPage ≤ 32 * w + b then none else some (32 * w + b)

/-- `pmm_alloc_page`: the allocated physical address, or 0. -/
def pmmAllocPage (p : Pmm) : Pmm × Word :=
  match scanBitmapWords p (List.range ((p.maxPage + 31) / 32)) with
  | none => (p, 0#32)
  | some f => (p.take f, frameAddr f)

/-- `pmm_free_page`. -/
def pmmFreePage (p : Pmm) (physAddr : Word) : Pmm :=
  let pageIndex := physAddr.toNat / pmmPageSize
  if physAddr.toNat % pmmPageSize ≠ 0 then p
  else if p.maxPage ≤ pageIndex then p
  else if !p.bitmap pageIndex then p
  else p.release pageIndex

/-- `pmm_inc_ref`: a saturated count stays where it is. -/
def pmmIncRef (p : Pmm) (physAddr : Word) : Pmm :=
  let pageIndex := physAddr.toNat / pmmPageSize
  if physAddr.toNat % pmmPageSize ≠ 0 then p
  else if p.maxPage ≤ pageIndex then p
  else if p.refcounts pageIndex < 0xFFFF then
    p.setRef pageIndex (p.refcounts pageIndex + 1)
  else p

/-- `pmm_dec_ref`: a count that reaches zero frees the page. -/
def pmmDecRef (p : Pmm) (physAddr : Word) : Pmm :=
  let pageIndex := physAddr.toNat / pmmPageSize
  if physAddr.toNat % pmmPageSize ≠ 0 then p
  else if p.maxPage ≤ pageIndex then p
  else if 0 < p.refcounts pageIndex then
    let p' := p.setRef pageIndex (p.refcounts pageIndex - 1)
    if p'.refcounts pageIndex = 0 then pmmFreePage p' physAddr else p'
  else p

/-- `pmm_get_refcount`. -/
def pmmGetRefcount (p : Pmm) (physAddr : Word) : Nat :=
  let pageIndex := physAddr.toNat / pmmPageSize
  if physAddr.toNat % pmmPageSize ≠ 0 then 0
  else if p.maxPage ≤ pageIndex then 0
  else p.refcounts pageIndex

/-- `pmm_get_free_pages`, a `uint32_t` difference. -/
def pmmGetFreePages (p : Pmm) : Nat :=
  wrap32 (p.totalAvailablePages + 4294967296 - p.usedPages)

theorem scanBitmapWords_some {p : Pmm} {ws : List Nat} {f : Nat}
    (h : scanBitmapWords p ws = some f) : p.bitmap f = false ∧ f < p.maxPage := by
  induction ws with
  | nil => cases h
  | cons w ws ih =>
    rw [scanBitmapWords] at h
    cases hbit : lowestFreeBit p w with
    | none =>
      rw [hbit] at h
      exact ih h
    | some b =>
      rw [hbit] at h
      simp only at h
      split at h
      · cases h
      · rename_i hlimit
        cases h
        have hclear := List.find?_some hbit
        exact ⟨by simpa using hclear, by omega⟩

/-- An allocation either fails and changes nothing, or takes one free page. -/
theorem pmmAllocPage_cases (p : Pmm) :
    pmmAllocPage p = (p, 0#32) ∨
    ∃ f, p.bitmap f = false ∧ f < p.maxPage ∧ pmmAllocPage p = (p.take f, frameAddr f) := by
  unfold pmmAllocPage
  cases hscan : scanBitmapWords p (List.range ((p.maxPage + 31) / 32)) with
  | none => exact Or.inl rfl
  | some f =>
    obtain ⟨hclear, hlimit⟩ := scanBitmapWords_some hscan
    exact Or.inr ⟨f, hclear, hlimit, rfl⟩

/-- Freeing by page number. -/
theorem pmmFreePage_frameAddr (p : Pmm) {f : Nat} (hf : f < pmmMaxPages) :
    pmmFreePage p (frameAddr f) =
      if f < p.maxPage ∧ p.bitmap f = true then p.release f else p := by
  have hmod : f * 4096 % 4096 = 0 := by omega
  have hdiv : f * 4096 / 4096 = f := by omega
  simp only [pmmFreePage, frameAddr_toNat hf, pmmPageSize, hmod, hdiv]
  by_cases hlimit : f < p.maxPage
  · cases hbit : p.bitmap f <;> simp [hlimit, Nat.not_le.mpr hlimit]
  · simp [hlimit, Nat.not_lt.mp hlimit]

/-- Taking a reference by page number. -/
theorem pmmIncRef_frameAddr (p : Pmm) {f : Nat} (hf : f < pmmMaxPages) :
    pmmIncRef p (frameAddr f) =
      if f < p.maxPage ∧ p.refcounts f < 0xFFFF then p.setRef f (p.refcounts f + 1) else p := by
  have hmod : f * 4096 % 4096 = 0 := by omega
  have hdiv : f * 4096 / 4096 = f := by omega
  simp only [pmmIncRef, frameAddr_toNat hf, pmmPageSize, hmod, hdiv]
  by_cases hlimit : f < p.maxPage
  · simp [hlimit, Nat.not_le.mpr hlimit]
  · simp [hlimit, Nat.not_lt.mp hlimit]

/-- Dropping a reference by page number: the count falls by one, and the last
reference releases the page. -/
theorem pmmDecRef_frameAddr (p : Pmm) {f : Nat} (hf : f < pmmMaxPages)
    (hlimit : f < p.maxPage) (hpos : 0 < p.refcounts f) (hbit : p.bitmap f = true) :
    pmmDecRef p (frameAddr f) =
      if p.refcounts f = 1 then (p.setRef f 0).release f
      else p.setRef f (p.refcounts f - 1) := by
  have hmod : f * 4096 % 4096 = 0 := by omega
  have hdiv : f * 4096 / 4096 = f := by omega
  simp only [pmmDecRef, frameAddr_toNat hf, pmmPageSize, hmod, hdiv]
  by_cases hone : p.refcounts f = 1
  · simp [Nat.not_le.mpr hlimit, hone, pmmFreePage_frameAddr _ hf, hlimit, hbit]
  · have hne : ¬ p.refcounts f - 1 = 0 := by omega
    simp [Nat.not_le.mpr hlimit, hpos, hone, hne]

theorem pmmGetRefcount_frameAddr (p : Pmm) {f : Nat} (hf : f < pmmMaxPages) :
    pmmGetRefcount p (frameAddr f) = if f < p.maxPage then p.refcounts f else 0 := by
  have hmod : f * 4096 % 4096 = 0 := by omega
  have hdiv : f * 4096 / 4096 = f := by omega
  simp only [pmmGetRefcount, frameAddr_toNat hf, pmmPageSize, hmod, hdiv]
  by_cases hlimit : f < p.maxPage
  · simp [hlimit, Nat.not_le.mpr hlimit]
  · simp [hlimit, Nat.not_lt.mp hlimit]

end EnclaveOS
