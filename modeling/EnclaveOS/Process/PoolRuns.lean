import EnclaveOS.Memory.ResolverSpec
import EnclaveOS.Process.OwnerRuns
import EnclaveOS.Process.SpaceRoundTrip

/-!
# PoolRuns - the page allocator over runs of the system

Apart from `vmm_clone_address_space`, the functions of `paging.c`, the loader and
the page fault handler use the allocator through `pmm_alloc_page`,
`pmm_free_page` and `pmm_dec_ref` only.  Whatever they are called with, these
three leave no reference on a page that is free.
-/

namespace EnclaveOS

open PageWord Relation

/-- One call of `pmm_alloc_page`, `pmm_free_page` or `pmm_dec_ref`. -/
inductive PoolCall (p : Pmm) : Pmm → Prop
  | alloc : PoolCall p (pmmAllocPage p).1
  | free (phys : Word) : PoolCall p (pmmFreePage p phys)
  | dec (phys : Word) : PoolCall p (pmmDecRef p phys)

/-- Any number of calls. -/
abbrev PoolCalls : Pmm → Pmm → Prop := ReflTransGen PoolCall

/-- What the calls keep: the limit, no reference on a free page, and room in the count of
used pages. -/
structure Pmm.Tidy (p : Pmm) : Prop where
  limit : p.maxPage ≤ pmmMaxPages
  idle : p.pool.Idle
  used : p.usedPages + p.freePages.card ≤ pmmMaxPages

namespace Pmm.Tidy

variable {p p' : Pmm} {f : Nat}

theorem take (h : p.Tidy) (hf : p.bitmap f = false) (hlimit : f < p.maxPage) : (p.take f).Tidy := by
  have hmem : f ∈ p.freePages := Pmm.mem_freePages.mpr ⟨hlimit, hf⟩
  have hcard : (p.take f).freePages.card + 1 = p.freePages.card := by
    rw [freePages_take, Finset.card_erase_add_one hmem]
  have hbound := h.used
  refine ⟨h.limit, ?_, ?_⟩
  · intro g hg
    change Function.update p.bitmap f true g = false at hg
    by_cases hgf : g = f
    · simp [hgf] at hg
    · rw [Function.update_of_ne hgf] at hg
      exact (Function.update_of_ne hgf _ _).trans (h.idle g hg)
  · have hused : (p.take f).usedPages = p.usedPages + 1 := by
      unfold pmmMaxPages at hbound
      exact Nat.mod_eq_of_lt (by omega)
    rw [hused]
    omega

theorem release (h : p.Tidy) (hf : p.bitmap f = true) (hlimit : f < p.maxPage) :
    (p.release f).Tidy := by
  have hnot : f ∉ p.freePages := fun hmem => by simp [(Pmm.mem_freePages.mp hmem).2] at hf
  have hcard : (p.release f).freePages.card = p.freePages.card + 1 := by
    rw [freePages_release hlimit, Finset.card_insert_of_notMem hnot]
  have hall : (p.release f).freePages.card ≤ p.maxPage :=
    (Finset.card_filter_le _ _).trans_eq (Finset.card_range _)
  have hlimit' := h.limit
  have hbound := h.used
  refine ⟨h.limit, ?_, ?_⟩
  · intro g hg
    change Function.update p.refcounts f 0 g = 0
    change Function.update p.bitmap f false g = false at hg
    by_cases hgf : g = f
    · rw [hgf, Function.update_self]
    · rw [Function.update_of_ne hgf] at hg ⊢
      exact h.idle g hg
  · have hused : (p.release f).usedPages = p.usedPages - 1 := rfl
    rw [hused]
    omega

theorem freePage (h : p.Tidy) (phys : Word) : (pmmFreePage p phys).Tidy := by
  unfold pmmFreePage
  dsimp only
  split_ifs with hmod hlimit hbit
  · exact h
  · exact h
  · exact h
  · exact h.release (by simpa using hbit) (Nat.not_le.mp hlimit)

/-- A page in use may lose references. -/
theorem setRef (h : p.Tidy) {n : Nat} (hf : p.bitmap f = true) : (p.setRef f n).Tidy := by
  refine ⟨h.limit, ?_, h.used⟩
  intro g hg
  have hgf : g ≠ f := by
    rintro rfl
    exact Bool.false_ne_true (hg.symm.trans hf)
  exact (Function.update_of_ne hgf _ _).trans (h.idle g hg)

theorem decRef (h : p.Tidy) (phys : Word) : (pmmDecRef p phys).Tidy := by
  unfold pmmDecRef
  dsimp only
  split_ifs with hmod hlimit hpos hzero
  · exact h
  · exact h
  · have hbit : p.bitmap (phys.toNat / pmmPageSize) = true := by
      refine Bool.of_not_eq_false fun hfree => ?_
      have hidle : p.refcounts (phys.toNat / pmmPageSize) = 0 := h.idle _ hfree
      omega
    exact (h.setRef hbit).freePage phys
  · refine h.setRef (Bool.of_not_eq_false fun hfree => ?_)
    have hidle : p.refcounts (phys.toNat / pmmPageSize) = 0 := h.idle _ hfree
    omega
  · exact h

theorem call (h : p.Tidy) (hcall : PoolCall p p') : p'.Tidy := by
  cases hcall with
  | alloc =>
    rcases pmmAllocPage_cases p with halloc | ⟨f, hfree, hlimit, halloc⟩
    · rw [halloc]
      exact h
    · rw [halloc]
      exact h.take hfree hlimit
  | free phys => exact h.freePage phys
  | dec phys => exact h.decRef phys

theorem calls (h : p.Tidy) (hcalls : PoolCalls p p') : p'.Tidy := by
  induction hcalls with
  | refl => exact h
  | tail _ hcall ih => exact ih.call hcall

end Pmm.Tidy

theorem Pmm.Sound.tidy {p : Pmm} (h : p.Sound) : p.Tidy := ⟨h.limit, h.idle, h.used⟩

/-- What the machine that a mapping leaves satisfies. -/
inductive MapResult.Leaves (P : Machine → Prop) : MapResult → Prop
  | mapped {m : Machine} (h : P m) : Leaves P (.mapped m)
  | failed {m : Machine} (h : P m) : Leaves P (.failed m)
  | halted : Leaves P .halted

inductive KstackResult.Leaves (P : Machine → Prop) : KstackResult → Prop
  | allocated {m : Machine} (stackTop : Nat) (h : P m) : Leaves P (.allocated m stackTop)
  | failed {m : Machine} (h : P m) : Leaves P (.failed m)
  | halted : Leaves P .halted

theorem KstackResult.Leaves.mono {P Q : Machine → Prop} {res : KstackResult} (h : res.Leaves P)
    (himp : ∀ m, P m → Q m) : res.Leaves Q := by
  cases h with
  | allocated stackTop hm => exact .allocated stackTop (himp _ hm)
  | failed hm => exact .failed (himp _ hm)
  | halted => exact .halted

section Paging

variable (m : Machine)

theorem calls_allocPage : PoolCalls m.pmm m.allocPage.1.pmm := .single .alloc

theorem calls_freePage (phys : Word) : PoolCalls m.pmm (m.freePage phys).pmm := .single (.free phys)

theorem calls_decRef (phys : Word) : PoolCalls m.pmm (m.decRef phys).pmm := .single (.dec phys)

/-- A loop whose rounds make calls. -/
theorem calls_foldl {f : Machine → Nat → Machine} (hf : ∀ m i, PoolCalls m.pmm (f m i).pmm)
    (l : List Nat) : PoolCalls m.pmm (l.foldl f m).pmm := by
  induction l generalizing m with
  | nil => exact .refl
  | cons i l ih => exact (hf m i).trans (ih (f m i))

theorem calls_ensureTable (pd i : Nat) : PoolCalls m.pmm (ensureTable m pd i).1.pmm := by
  have halloc := calls_allocPage m
  unfold ensureTable
  split_ifs
  · exact .refl
  · generalize m.allocPage = res at halloc ⊢
    obtain ⟨m₁, phys⟩ := res
    dsimp only
    split_ifs
    · exact halloc
    · exact halloc

theorem calls_mapPageInPd (pd virt : Nat) (phys flags : Word) :
    (vmmMapPageInPd m pd virt phys flags).Leaves fun m' => PoolCalls m.pmm m'.pmm := by
  have htable := calls_ensureTable m pd (dirIndex virt)
  unfold vmmMapPageInPd
  split_ifs
  · exact .halted
  · generalize ensureTable m pd (dirIndex virt) = res at htable ⊢
    obtain ⟨m₁, ok⟩ := res
    cases ok with
    | false => exact .failed htable
    | true =>
      refine .mapped (htable.trans ?_)
      unfold replaceEntry
      split_ifs
      · exact calls_freePage m₁ _
      · exact .refl

theorem calls_mapPage {virt : Nat} {phys flags : Word} {m' : Machine}
    (hmap : vmmMapPage m virt phys flags = some m') : PoolCalls m.pmm m'.pmm := by
  have htable := calls_ensureTable m m.bootPageDirectory (dirIndex virt)
  unfold vmmMapPage at hmap
  generalize ensureTable m m.bootPageDirectory (dirIndex virt) = res at htable hmap
  obtain ⟨m₁, ok⟩ := res
  cases ok with
  | false => cases hmap
  | true =>
    cases hmap
    exact htable

theorem calls_unmapPage (pd virt : Nat) : PoolCalls m.pmm (vmmUnmapPageInPd m pd virt).pmm := by
  unfold vmmUnmapPageInPd
  dsimp only
  split_ifs
  · exact .refl
  · exact .refl
  · exact .refl

theorem calls_unmapAndFreePage (pd virt : Nat) :
    PoolCalls m.pmm (vmmUnmapAndFreePageInPd m pd virt).pmm := by
  rw [vmmUnmapAndFreePageInPd_eq]
  split_ifs
  · exact calls_freePage m _
  · exact .refl

theorem calls_protectPage (pd virt : Nat) (flags : Word) :
    PoolCalls m.pmm (vmmProtectPageInPd m pd virt flags).pmm := by
  rw [vmmProtectPageInPd_eq]
  split_ifs
  · exact .refl
  · exact .refl

theorem calls_create : PoolCalls m.pmm (vmmCreateAddressSpace m).1.pmm := by
  have halloc := calls_allocPage m
  unfold vmmCreateAddressSpace
  generalize m.allocPage = res at halloc ⊢
  obtain ⟨m₁, phys⟩ := res
  dsimp only
  split_ifs
  · exact halloc
  · exact halloc

theorem calls_destroyEntry (pt j : Nat) : PoolCalls m.pmm (destroyEntry pt m j).pmm := by
  unfold destroyEntry
  split_ifs
  · exact calls_decRef m _
  · exact .refl

theorem calls_destroyDirEntry (pd i : Nat) : PoolCalls m.pmm (destroyDirEntry pd m i).pmm := by
  unfold destroyDirEntry
  dsimp only
  generalize List.range 1024 = l
  split_ifs
  · exact .refl
  · exact calls_foldl m (fun m p => calls_decRef m _) l
  · exact (calls_foldl m (fun m j => calls_destroyEntry m _ j) l).trans (calls_decRef _ _)

theorem calls_destroy (pd : Nat) : PoolCalls m.pmm (vmmDestroyAddressSpace m pd).pmm := by
  unfold vmmDestroyAddressSpace
  generalize List.range 768 = l
  split_ifs
  · exact .refl
  · exact (calls_foldl m (fun m i => calls_destroyDirEntry m pd i) l).trans (calls_freePage _ _)

theorem calls_freeStackPage (virt : Nat) : PoolCalls m.pmm (freeStackPage m virt).pmm := by
  unfold freeStackPage
  dsimp only
  split_ifs
  · exact calls_freePage m _
  · exact .refl

theorem calls_mapStackPages (slot : Nat) (l : List Nat) :
    (mapStackPages slot l m).Leaves fun m' => PoolCalls m.pmm m'.pmm := by
  induction l generalizing m with
  | nil => exact .allocated (kernelStackTop slot) .refl
  | cons p rest ih =>
    have halloc := calls_allocPage m
    unfold mapStackPages
    generalize m.allocPage = res at halloc ⊢
    obtain ⟨m₁, phys⟩ := res
    dsimp only
    split_ifs
    · exact .failed (halloc.trans (calls_foldl m₁ (fun m q => calls_freeStackPage m _) _))
    · cases hmap : vmmMapPage m₁ (kernelStackBase slot + p * 4096) phys
        (pagePresent ||| pageWrite) with
      | none => exact .halted
      | some m₂ =>
        have hsofar := halloc.trans (calls_mapPage m₁ hmap)
        exact (ih m₂).mono fun m' hrest => hsofar.trans hrest

theorem calls_allocKernelStack :
    (vmmAllocKernelStack m).Leaves fun m' => PoolCalls m.pmm m'.pmm := by
  unfold vmmAllocKernelStack
  cases (List.range kernelStackSlots).find? fun i => !m.kstackBitmap i with
  | none => exact .failed .refl
  | some slot =>
    have hguard := calls_unmapPage (m.setSlot slot true) m.bootPageDirectory (kernelStackBase slot)
    exact (calls_mapStackPages _ slot [1, 2, 3, 4]).mono fun m' hpages => hguard.trans hpages

theorem calls_freeKernelStack (stackTop : Nat) :
    PoolCalls m.pmm (vmmFreeKernelStack m stackTop).pmm := by
  unfold vmmFreeKernelStack
  dsimp only
  split_ifs
  · exact .refl
  · exact .refl
  · refine calls_foldl (m.setSlot _ false) (fun m p => ?_) _
    split_ifs
    · exact calls_freeStackPage m _
    · exact .refl

end Paging

section Loader

variable (file : VfsFile) (pd : Nat) (header : Elf32Header)

theorem calls_elfMapPage (flags : Word) (s : ElfState) (addr : Nat) :
    PoolCalls s.machine.pmm (elfMapPage pd flags s addr).1.machine.pmm := by
  have halloc := calls_allocPage s.machine
  unfold elfMapPage
  generalize s.machine.allocPage = res at halloc ⊢
  obtain ⟨m₁, phys⟩ := res
  dsimp only
  split_ifs
  · exact halloc
  · have hmap := calls_mapPageInPd (m₁.clearFrame (frameOf phys)) pd addr phys flags
    generalize vmmMapPageInPd (m₁.clearFrame (frameOf phys)) pd addr phys flags = res at hmap ⊢
    cases hmap with
    | mapped hm => exact halloc.trans hm
    | failed hm => exact (halloc.trans hm).trans (calls_freePage _ phys)
    | halted => exact halloc

theorem calls_elfMapPages (flags : Word) (pages : List Nat) (s : ElfState) :
    PoolCalls s.machine.pmm (elfMapPages pd flags pages s).1.machine.pmm := by
  induction pages generalizing s with
  | nil => exact .refl
  | cons addr rest ih =>
    have hpage := calls_elfMapPage pd flags s addr
    unfold elfMapPages
    generalize elfMapPage pd flags s addr = res at hpage ⊢
    obtain ⟨s₁, status⟩ := res
    cases status with
    | ok => exact hpage.trans (ih s₁)
    | failed => exact hpage
    | halted => exact hpage

theorem calls_elfCopyLoop (rounds destAddr offset count : Nat) (s : ElfState) :
    (elfCopyLoop file pd rounds destAddr offset count s).1.machine.pmm = s.machine.pmm := by
  induction rounds generalizing destAddr offset count s with
  | zero => rfl
  | succ rounds ih =>
    unfold elfCopyLoop
    dsimp only
    split_ifs
    · rfl
    · rfl
    · rfl
    · exact Machine.storeBytes_pmm _ _ _ _
    · rw [ih]
      exact Machine.storeBytes_pmm _ _ _ _

theorem calls_elfSegment (h : Elf32Phdr) (s : ElfState) :
    PoolCalls s.machine.pmm (elfSegment file pd h s).1.machine.pmm := by
  unfold elfSegment
  split_ifs
  · exact .refl
  · have hprepare : PoolCalls s.machine.pmm (elfPrepare pd h s).1.machine.pmm := by
      unfold elfPrepare
      generalize vmaAdd s.vmaHead h.pVaddr h.memEnd h.vmaFlags s.kmallocs = res
      obtain ⟨vmas, ret, k⟩ := res
      dsimp only
      split_ifs
      · exact .refl
      · exact calls_elfMapPages pd h.pteFlags h.pages ⟨s.machine, vmas, k, s.trace⟩
    generalize elfPrepare pd h s = res at hprepare ⊢
    obtain ⟨s₁, status⟩ := res
    cases status with
    | ok =>
      dsimp only
      rw [elfCopy, calls_elfCopyLoop]
      exact hprepare
    | failed => exact hprepare
    | halted => exact hprepare

theorem calls_elfSegments (l : List Nat) (s : ElfState) :
    PoolCalls s.machine.pmm (elfSegments file pd header l s).1.machine.pmm := by
  induction l generalizing s with
  | nil => exact .refl
  | cons i rest ih =>
    unfold elfSegments
    cases elfPhdr file header i with
    | none => exact .refl
    | some h =>
      have hsegment := calls_elfSegment file pd h s
      dsimp only
      generalize elfSegment file pd h s = res at hsegment ⊢
      obtain ⟨s₁, status⟩ := res
      cases status with
      | ok => exact hsegment.trans (ih s₁)
      | failed => exact hsegment
      | halted => exact hsegment

theorem calls_elfLoad (m : Machine) (k : Kmalloc) :
    PoolCalls m.pmm (elfLoad file pd m k).1.machine.pmm := by
  unfold elfLoad
  cases elfHeader file with
  | none => exact .refl
  | some header =>
    have hload := calls_elfSegments file pd header
      (List.range header.ePhnum) (.start m k)
    dsimp only
    generalize elfSegments file pd header (List.range header.ePhnum) (.start m k) = res at hload ⊢
    obtain ⟨s₁, status⟩ := res
    cases status with
    | ok => exact hload
    | failed => exact hload
    | halted => exact hload

end Loader

section Fault

variable (m : Machine)

theorem calls_resolveWrite (pt index : Nat) :
    PoolCalls m.pmm (resolveWrite m pt index).1.pmm := by
  have halloc := calls_allocPage m
  unfold resolveWrite
  dsimp only
  generalize m.allocPage = res at halloc ⊢
  obtain ⟨m₁, phys⟩ := res
  dsimp only
  split_ifs
  · exact .refl
  · exact halloc
  · exact halloc.trans (calls_decRef (m₁.copyFrame _ _) _)
  · exact .refl
  · exact .refl
  · exact .refl

theorem calls_handleUserWriteFault (task : FaultTask) (addr : Nat) :
    PoolCalls m.pmm (vmmHandleUserWriteFault m task addr).1.pmm := by
  rcases vmmHandleUserWriteFault_cases m task addr with ⟨r, -, hexit⟩ | ⟨pd, -, hresolver⟩
  · rw [hexit]
  · rw [hresolver]
    exact calls_resolveWrite m _ _

theorem calls_demandPage (pd : Nat) (vmas : List Vma) (addr : Nat) (rw : Bool)
    (reasons : DemandReasons) :
    PoolCalls m.pmm (demandPage m pd vmas addr rw reasons).1.pmm := by
  have halloc := calls_allocPage m
  unfold demandPage
  cases vmaFind vmas addr with
  | none => exact .refl
  | some vma =>
    dsimp only
    generalize m.allocPage = res at halloc ⊢
    obtain ⟨m₁, phys⟩ := res
    dsimp only
    split_ifs
    · exact .refl
    · exact .refl
    · exact .refl
    · exact halloc
    · have hmap := calls_mapPageInPd (m₁.clearFrame (frameOf phys)) pd (pageDown addr) phys
        (demandFlags vma)
      generalize vmmMapPageInPd (m₁.clearFrame (frameOf phys)) pd (pageDown addr) phys
        (demandFlags vma) = res at hmap ⊢
      cases hmap with
      | mapped hm => exact halloc.trans hm
      | failed hm => exact (halloc.trans hm).trans (calls_freePage _ phys)
      | halted => exact halloc

/-- A fault of a process below 3 GB. -/
theorem calls_pageFault {task : FaultTask} {pd addr : Nat} (code : FaultCode)
    (htask : task.pdirVirt = some pd) (haddr : addr < kernelSpaceStart) :
    PoolCalls m.pmm (pageFaultHandler m (some task) addr code).1.pmm := by
  rcases @VmInv.pageFaultHandler_machine pd m task addr code htask haddr with
    hsame | hwrite | ⟨-, reasons, hdemand⟩
  · rw [hsame]
  · rw [hwrite]
    exact calls_handleUserWriteFault m task addr
  · rw [hdemand]
    exact calls_demandPage m pd task.vmaHead addr code.rw reasons

end Fault

section Calls

variable {m m' : Machine} {pd : Nat}

theorem calls_sysMunmap (vmas : List Vma) (addr len : Nat) (k : Kmalloc) :
    PoolCalls m.pmm (sysMunmap m pd vmas addr len k).1.pmm := by
  unfold sysMunmap
  split_ifs
  · exact .refl
  · dsimp only
    split_ifs
    · exact .refl
    · exact calls_foldl m (fun m p => calls_unmapAndFreePage m pd p) _

theorem calls_sysMprotect (vmas : List Vma) (addr len : Nat) (prot : Word) (k : Kmalloc) :
    PoolCalls m.pmm (sysMprotect m pd vmas addr len prot k).1.pmm := by
  unfold sysMprotect
  split_ifs
  · exact .refl
  · exact .refl
  · exact .refl
  · exact .refl
  · dsimp only
    split_ifs
    · exact .refl
    · exact calls_foldl m (fun m p => calls_protectPage m pd p _) _

theorem calls_sysExec {vmas vmas' : List Vma} {file : Except Int VfsFile} {k k' : Kmalloc}
    {newPd : Nat} {ret : Int}
    (hexec : sysExecMemory m pd vmas file k = some (m', newPd, vmas', ret, k')) :
    PoolCalls m.pmm m'.pmm := by
  unfold sysExecMemory at hexec
  cases file with
  | error e =>
    cases hexec
    exact .refl
  | ok file =>
    have hcreate := calls_create m
    dsimp only at hexec
    generalize vmmCreateAddressSpace m = res at hcreate hexec
    obtain ⟨m₁, _ | dir⟩ := res
    · cases hexec
      exact hcreate
    · have hload := calls_elfLoad file dir m₁ k
      dsimp only at hexec
      generalize elfLoad file dir m₁ k = res at hload hexec
      obtain ⟨t, status, entry⟩ := res
      dsimp only at hload hexec
      have hswitch : PoolCalls t.machine.pmm
          (if pd ≠ dir then vmmDestroyAddressSpace t.machine pd else t.machine).pmm := by
        split_ifs
        · exact calls_destroy t.machine pd
        · exact .refl
      generalize (if pd ≠ dir then vmmDestroyAddressSpace t.machine pd else t.machine) = m₂
        at hswitch hexec
      split_ifs at hexec with hhalted hfailed hret
      · cases hexec
        exact (hcreate.trans hload).trans (calls_destroy t.machine dir)
      · cases hexec
        exact (hcreate.trans hload).trans hswitch
      · cases hexec
        exact (hcreate.trans hload).trans hswitch

theorem calls_taskCreate {res : Option (Nat × Nat)} (hcreate : taskCreate m = some (m', res)) :
    PoolCalls m.pmm m'.pmm := by
  have hstack := calls_allocKernelStack m
  unfold taskCreate at hcreate
  generalize vmmAllocKernelStack m = out at hstack hcreate
  cases hstack with
  | halted => cases hcreate
  | failed hm =>
    cases hcreate
    exact hm
  | @allocated m₁ stackTop hm =>
    have halloc := calls_allocPage m₁
    dsimp only at hcreate
    generalize m₁.allocPage = page at halloc hcreate
    obtain ⟨m₂, phys⟩ := page
    dsimp only at halloc hcreate
    split_ifs at hcreate
    · cases hcreate
      exact (hm.trans halloc).trans (calls_freeKernelStack m₂ stackTop)
    · cases hcreate
      exact hm.trans halloc

theorem calls_startInit {file : VfsFile} {k : Kmalloc} {pcb : Nat} {task : Process}
    (hinit : startInit m file k = some (m', pcb, task)) : PoolCalls m.pmm m'.pmm := by
  have hcreate := calls_create m
  unfold startInit at hinit
  generalize vmmCreateAddressSpace m = res at hcreate hinit
  obtain ⟨m₁, _ | dir⟩ := res
  · cases hinit
  · have hload := calls_elfLoad file dir m₁ k
    dsimp only at hinit
    generalize elfLoad file dir m₁ k = res at hload hinit
    obtain ⟨t, status, entry⟩ := res
    dsimp only at hload hinit
    split_ifs at hinit
    cases hres : taskCreate t.machine with
    | none =>
      rw [hres] at hinit
      cases hinit
    | some out =>
      obtain ⟨m₂, _ | ⟨pcb', top⟩⟩ := out
      · rw [hres] at hinit
        cases hinit
      · rw [hres] at hinit
        cases hinit
        exact (hcreate.trans hload).trans (calls_taskCreate hres)

theorem calls_releaseMemory (m : Machine) (task : Process) :
    PoolCalls m.pmm (releaseMemory m task).1.pmm := by
  unfold releaseMemory
  cases task.pdirVirt with
  | none => exact .refl
  | some pd =>
    dsimp only
    split_ifs
    · exact .refl
    · exact calls_destroy m pd

theorem calls_reapTask (m : Machine) (pcb : Nat) (task : Process) :
    PoolCalls m.pmm (reapTask m pcb task).pmm := by
  unfold reapTask
  split_ifs
  · exact (calls_freeKernelStack m _).trans (calls_freePage _ _)
  · exact calls_freePage m _

end Calls

section Fork

variable {m m' : Machine} {pds : Finset Nat} {own : Nat → Owner} {pd : Nat}

/-- The clone of a directory, or what is left of it. -/
theorem tidy_clone (h : VmInv m pds own) (hsound : m.pmm.Sound) (hpd : pd ∈ pds)
    (hcard : pds.card < 0xFFFF) : (vmmCloneAddressSpace m pd).1.pmm.Tidy := by
  have hparent : ParentReady m pd := h.parentReady hpd
    fun i hi j hj f hsite => refcount_lt h hcard hpd hi hj hsite
  rcases SpaceOwes.clone (h.poolReady hsound) hparent with
    ⟨m', child, hclone, howes⟩ | ⟨m', hclone, howes⟩
  · rw [hclone]
    exact (howes.owes.sound hsound).tidy
  · rw [hclone]
    exact (howes.sound hsound).tidy

theorem tidy_taskFork (h : VmInv m pds own) (hk : KernelHalf m own (stacksInUse m))
    (hsound : m.pmm.Sound) (hpd : pd ∈ pds) (hcard : pds.card < 0xFFFF) {vmas : List Vma}
    {k : Kmalloc} {child : Option (Nat × Process)}
    (hfork : taskForkMemory m pd vmas k = some (m', child)) : m'.pmm.Tidy := by
  have hstack := calls_allocKernelStack m
  unfold taskForkMemory at hfork
  rcases vmmAllocKernelStack_spec h hk with
    ⟨m₁, own₁, slot, halloc, -, -, -, hinv, hhalf, -⟩ | ⟨m₁, own₁, hfail, -⟩
  · rw [halloc] at hfork hstack
    cases hstack with
    | allocated stackTop hm₁ =>
      have htidy := hsound.tidy.calls (hm₁.trans (calls_allocPage m₁))
      rcases hinv.allocPcb hhalf with hnone | ⟨f, -, -, hne, hpage, hinv₂, -, -⟩
      · rw [hnone] at htidy
        simp only [hnone, if_pos] at hfork
        cases hfork
        exact htidy.calls (calls_freeKernelStack m₁ _)
      · simp only [hpage, if_neg hne] at hfork
        rw [hpage] at htidy
        have hsound₂ : (m₁.withPmm (m₁.pmm.take f)).pmm.Sound :=
          ⟨htidy.limit, hinv₂.zeroBit, htidy.idle, htidy.used⟩
        have hclone := tidy_clone hinv₂ hsound₂ hpd hcard
        generalize vmmCloneAddressSpace (m₁.withPmm (m₁.pmm.take f)) pd = res at hclone hfork
        obtain ⟨m₃, _ | dir⟩ := res
        · cases hfork
          exact hclone.calls ((calls_freeKernelStack m₃ _).trans (calls_freePage _ _))
        · dsimp only at hfork
          split_ifs at hfork
          · cases hfork
            exact hclone.calls (((calls_destroy m₃ dir).trans (calls_freeKernelStack _ _)).trans
              (calls_freePage _ _))
          · cases hfork
            exact hclone
  · rw [hfail] at hfork hstack
    cases hfork
    cases hstack with
    | failed hm₁ => exact hsound.tidy.calls hm₁

end Fork

section Runs

variable {s s' : System} {pds : Finset Nat} {own : Nat → Owner}

theorem calls_exitTask (m : Machine) (p : Nat) (task : Process) :
    PoolCalls m.pmm ((s.setMachine m).exitTask p task).machine.pmm :=
  calls_releaseMemory m task

/-- An access of a process. -/
theorem calls_access {p pd addr : Nat} {task : Process} {a : Access} {us : Bool}
    (htask : task.pdirVirt = some pd) (haddr : addr < kernelSpaceStart)
    (haccess : s.Accessed p task pd addr us a s') :
    PoolCalls s.machine.pmm s'.machine.pmm := by
  have hfault := fun code => @calls_pageFault s.machine task.toFaultTask pd addr code htask haddr
  cases haccess with
  | load => exact .refl
  | store value =>
    rw [System.setMachine_machine, Machine.storeBytes_pmm]
  | @resumed _ code _ _ hres =>
    have hcalls := hfault code
    rwa [hres] at hcalls
  | @killed _ code m _ _ hres =>
    have hcalls := hfault code
    rw [hres] at hcalls
    exact hcalls.trans (calls_exitTask m p task)

/-- Every operation but a fork makes calls of the three functions. -/
theorem calls_step {op : SysOp} (hpossible : op.Possible s) (hfork : ∀ p k, op ≠ .fork p k)
    (hstep : op.step s = some s') : PoolCalls s.machine.pmm s'.machine.pmm := by
  cases SysOp.stepped hstep with
  | startInit hinit => exact calls_startInit hinit
  | reap => exact calls_reapTask s.machine _ _
  | forkFailed => exact absurd rfl (hfork _ _)
  | forked => exact absurd rfl (hfork _ _)
  | access hrun haccess => exact calls_access (System.running_eq_some.mp hrun).2 hpossible haccess
  | mmap => exact .refl
  | munmap => exact calls_sysMunmap _ _ _ _
  | mprotect => exact calls_sysMprotect _ _ _ _ _
  | brk => exact .refl
  | exec hrun hexec => exact calls_sysExec hexec
  | exit => exact calls_releaseMemory s.machine _

/-- Every operation keeps the allocator sound. -/
theorem SysInv.sound_step (h : SysInv s pds own) (hsound : s.machine.pmm.Sound) {op : SysOp}
    (hpossible : op.Possible s) (hstep : op.step s = some s') {pds' : Finset Nat}
    {own' : Nat → Owner} (h' : SysInv s' pds' own') : s'.machine.pmm.Sound := by
  have htidy : s'.machine.pmm.Tidy := by
    by_cases hfork : ∃ p k, op = .fork p k
    · obtain ⟨p, k, rfl⟩ := hfork
      have hcard : pds.card < 0xFFFF := lt_of_le_of_lt h.card_le (by decide)
      cases SysOp.stepped hstep with
      | forkFailed hrun hfork =>
        exact tidy_taskFork h.inv h.half hsound (h.mem_of_running hrun) hcard hfork
      | forked hrun hfork =>
        exact tidy_taskFork h.inv h.half hsound (h.mem_of_running hrun) hcard hfork
    · have hother : ∀ p k, op ≠ .fork p k := fun p k heq => hfork ⟨p, k, heq⟩
      exact hsound.tidy.calls (calls_step hpossible hother hstep)
  exact ⟨htidy.limit, h'.inv.zeroBit, htidy.idle, htidy.used⟩

/-- The states reached from boot by operations that respect the owners of frames. -/
theorem SysInv.sound_run {image : BootImage} {info : BootInfo} {ram : Nat → Nat → Word}
    {s₀ : System} (hboot : System.boot image info ram = some s₀)
    (hrun : Reach SysOp.step (fun s op => op.Possible s ∧ op.KeepsOwners s) s₀ s) :
    (∃ pds own, SysInv s pds own) ∧ s.machine.pmm.Sound := by
  obtain ⟨own, hstart⟩ := System.boot_inv hboot
  refine hrun.invariant (P := fun s => (∃ pds own, SysInv s pds own) ∧ s.machine.pmm.Sound)
    ⟨⟨∅, own, hstart.sys⟩, System.boot_sound hboot⟩ ?_
  intro s op s' hall hoffered hstep
  obtain ⟨⟨pds, own, hinv⟩, hsound⟩ := hall
  obtain ⟨pds', own', hinv'⟩ := hinv.step hoffered.1 hoffered.2 hstep
  exact ⟨⟨pds', own', hinv'⟩, hinv.sound_step hsound hoffered.1 hstep hinv'⟩

end Runs

end EnclaveOS
