import EnclaveOS.Process.SyscallSpec
import EnclaveOS.Process.SystemBoot

/-!
# OwnerRuns - frame ownership over runs of the system

Every operation keeps the ownership of frames, except an unmapping of a page that
is shared or that belongs to the kernel, and a load that copies past the user
half.
-/

namespace EnclaveOS

open PageWord RefCount

/-- The operations that respect the owners of frames. -/
def SysOp.KeepsOwners (s : System) : SysOp → Prop
  | .startInit file _ => SegmentsFit file
  | .exec _ file _ => ∀ f, file = .ok f → SegmentsFit f
  | .munmap p addr len k => ∀ task pd, s.running p = some (task, pd) →
      MunmapPrivate s.machine pd task.vmaHead addr len k
  | _ => True

namespace SysInv

variable {s s' : System} {pds : Finset Nat} {own : Nat → Owner} {p pd : Nat} {task : Process}

theorem mem_of_running (h : SysInv s pds own) (hrun : s.running p = some (task, pd)) :
    pd ∈ pds :=
  h.mem_dirs (System.running_eq_some.mp hrun).1 (System.running_eq_some.mp hrun).2

theorem releaseMemory_eq {m : Machine} (hpd : task.pdirVirt = some pd)
    (hboot : pd ≠ m.bootPageDirectory) : releaseMemory m task =
      (vmmDestroyAddressSpace m pd, { task with pdirVirt := none, vmaHead := [] }) := by
  unfold releaseMemory
  rw [hpd]
  exact if_neg hboot

/-- The end of a process. -/
theorem exitTask (h : SysInv s pds own) {m : Machine} {own' : Nat → Owner}
    (hinv : VmInv m pds own') (hk : KernelFrame s.machine own m own')
    (hrun : s.running p = some (task, pd)) :
    ∃ own'', SysInv ((s.setMachine m).exitTask p task) (pds.erase pd) own'' := by
  obtain ⟨hp, hpd⟩ := System.running_eq_some.mp hrun
  have hmem := h.mem_of_running hrun
  have hboot : pd ≠ m.bootPageDirectory := by
    rw [hk.boot]
    exact h.ne_boot hmem
  obtain ⟨own'', hinv'', hk''⟩ := hinv.vmmDestroyAddressSpace hmem
  refine ⟨own'', ?_⟩
  unfold System.exitTask
  rw [System.setMachine_machine, releaseMemory_eq hpd hboot]
  refine h.setDir hp hpd hinv'' (hk.trans hk'') ?_ ?_
  · intro d
    rw [Finset.mem_erase]
    simp [and_comm]
  · rintro d ⟨⟩

/-- An access that goes through reaches a page. -/
theorem page_of_access (h : SysInv s pds own) (hmem : pd ∈ pds) {addr : Nat}
    (haddr : addr < kernelSpaceStart) {rw us : Bool}
    (hcode : cpuFault kernelCr0 s.machine pd addr rw us = none) :
    own (walkFrame s.machine pd addr) = .page := by
  have hmapped : isMapped s.machine pd addr = true := by
    by_contra hnot
    unfold cpuFault at hcode
    rw [Bool.not_eq_true] at hnot
    rw [hnot] at hcode
    cases hcode
  exact h.inv.page_of_frame (index_mem_userSites hmem haddr)
    (siteFrame_of_entry (siteEntry_of_mapped hmapped))

/-- An access that goes through, or its fault. -/
theorem access (h : SysInv s pds own) (hrun : s.running p = some (task, pd)) {addr : Nat}
    (haddr : addr < kernelSpaceStart) {a : Access} {us : Bool}
    (haccess : s.Accessed p task pd addr us a s') : ∃ pds' own', SysInv s' pds' own' := by
  have hmem := h.mem_of_running hrun
  have hpd := (System.running_eq_some.mp hrun).2
  cases haccess with
  | load => exact ⟨pds, own, h⟩
  | store value hcode =>
    obtain ⟨hinv, hk⟩ := h.inv.writeData (Or.inr (h.page_of_access hmem haddr hcode))
      (s.machine.storeBytes (walkFrame s.machine pd addr) (addr % 4096) [value])
      (Machine.storeBytes_pmm _ _ _ _) (Machine.storeBytes_boot _ _ _ _)
      (Machine.storeBytes_kstack _ _ _ _)
      fun g hg => Machine.storeBytes_mem_of_ne hg _ _
    exact ⟨pds, own, h.setMachine hinv hk⟩
  | resumed hcode hres =>
    obtain ⟨own', hfault⟩ :=
      @VmInv.pageFaultHandler _ _ _ _ h.inv task.toFaultTask _ _ hmem hpd haddr
        (siteEntry_of_fault hcode)
    rw [hres] at hfault
    exact ⟨pds, own', h.setMachine hfault.inv hfault.kernel⟩
  | killed hcode hres =>
    obtain ⟨own', hfault⟩ :=
      @VmInv.pageFaultHandler _ _ _ _ h.inv task.toFaultTask _ _ hmem hpd haddr
        (siteEntry_of_fault hcode)
    rw [hres] at hfault
    obtain ⟨own'', hexit⟩ := h.exitTask hfault.inv hfault.kernel hrun
    exact ⟨_, own'', hexit⟩

/-- A new process. -/
theorem started (h : SysInv s pds own) {m : Machine} {own' : Nat → Owner} {slot dir : Nat}
    {vmas : List Vma} (hnew : TaskStarted s.machine pds own m own' p slot dir) :
    SysInv ((s.setMachine m).setProc p (some ⟨⟨some dir, vmas⟩, kernelStackTop slot⟩))
      (insert dir pds) own' :=
  h.addTask hnew.inv hnew.half hnew.fresh hnew.pcb hnew.step.pcb hnew.slot_lt hnew.slot_unused
    hnew.slot_used rfl hnew.dir_fresh

/-- A new image of a process, or the old one. -/
theorem exec (h : SysInv s pds own) (hrun : s.running p = some (task, pd)) {m : Machine}
    {own' : Nat → Owner} {pds' : Finset Nat} {newPd : Nat} (vmas : List Vma)
    (hinv : VmInv m pds' own') (hk : KernelFrame s.machine own m own')
    (hpds : newPd = pd ∧ pds' = pds ∨ newPd ∉ pds ∧ pds' = (insert newPd pds).erase pd) :
    SysInv ((s.setMachine m).setProc p
      (some { task with pdirVirt := some newPd, vmaHead := vmas })) pds' own' := by
  obtain ⟨hp, hpd⟩ := System.running_eq_some.mp hrun
  rcases hpds with ⟨rfl, rfl⟩ | ⟨hfresh, rfl⟩
  · have hset := h.setVmas hp hinv hk vmas
    unfold System.setVmas at hset
    rwa [hpd] at hset
  · refine h.setDir hp hpd hinv hk ?_ ?_
    · intro d
      rw [Finset.mem_erase, Finset.mem_insert, Option.some.injEq]
      constructor
      · rintro ⟨hne, rfl | hd⟩
        · exact Or.inl rfl
        · exact Or.inr ⟨hd, hne⟩
      · rintro (rfl | ⟨hd, hne⟩)
        · refine ⟨?_, Or.inl rfl⟩
          rintro rfl
          exact hfresh (h.mem_of_running hrun)
        · exact ⟨hne, Or.inr hd⟩
    · rintro d ⟨⟩
      exact hfresh

/-- Every process has a stack to give back. -/
theorem reapTask_eq (h : SysInv s pds own) (hp : s.proc p = some task) :
    ∃ slot < kernelStackSlots, task.kernelStackVirt = kernelStackTop slot ∧
      s.machine.kstackBitmap slot = true ∧ reapTask s.machine p task =
        (vmmFreeKernelStack s.machine (kernelStackTop slot)).freePage (frameAddr p) := by
  obtain ⟨slot, hslot, htop, hbit⟩ := h.stack p task hp
  have hne : kernelStackTop slot ≠ 0 := by
    unfold kernelStackTop kernelStackBase kernelStackPoolStart
    omega
  refine ⟨slot, hslot, htop, hbit, ?_⟩
  unfold reapTask
  rw [htop, if_pos hne]

/-- A zombie that is reaped. -/
theorem reap (h : SysInv s pds own) (hp : s.proc p = some task) (hdead : task.pdirVirt = none) :
    ∃ own', SysInv ((s.setMachine (reapTask s.machine p task)).setProc p none) pds own' := by
  obtain ⟨slot, hslot, htop, hbit, hreap⟩ := h.reapTask_eq hp
  obtain ⟨hslots, own', hinv, hhalf, hstep⟩ :=
    freeTask_inv h.inv h.half hslot hbit (h.pcb p task hp)
  rw [hreap]
  refine ⟨_, h.removeTask hp hdead htop hinv hhalf ?_ hslots⟩
  intro f hf hpcb
  rw [Function.update_of_ne hf]
  exact hstep.pcb f hpcb

/-- Every operation that respects the owners keeps the invariant. -/
theorem step (h : SysInv s pds own) {op : SysOp} (hpossible : op.Possible s)
    (hkeeps : op.KeepsOwners s) (hstep : op.step s = some s') :
    ∃ pds' own', SysInv s' pds' own' := by
  have hcard : pds.card < 0xFFFF := lt_of_le_of_lt h.card_le (by decide)
  cases SysOp.stepped hstep with
  | startInit hinit =>
    obtain ⟨own', slot, dir, vmas, rfl, hnew⟩ := startInit_inv h.inv h.half hkeeps hinit
    exact ⟨_, own', h.started hnew⟩
  | access hrun haccess => exact h.access hrun hpossible haccess
  | forkFailed hrun hfork =>
    cases taskForkMemory_inv h.inv h.half (h.mem_of_running hrun) hcard hfork with
    | rolledBack hkept =>
      exact ⟨pds, _, h.setKernel hkept.inv hkept.half hkept.step hkept.slots⟩
  | forked hrun hfork =>
    cases taskForkMemory_inv h.inv h.half (h.mem_of_running hrun) hcard hfork with
    | child hnew => exact ⟨_, _, h.started hnew⟩
  | mmap hrun =>
    exact ⟨pds, own, h.setVmas (System.running_eq_some.mp hrun).1 h.inv (.refl s.machine own) _⟩
  | munmap hrun =>
    obtain ⟨own', hinv, hk⟩ :=
      sysMunmap_inv h.inv h.half (h.mem_of_running hrun) (hkeeps _ _ hrun)
    exact ⟨pds, own', h.setVmas (System.running_eq_some.mp hrun).1 hinv hk _⟩
  | @mprotect p pd addr len task prot k hrun =>
    obtain ⟨hinv, hk⟩ :=
      sysMprotect_inv h.inv (h.mem_of_running hrun) task.vmaHead addr len prot k
    exact ⟨pds, own, h.setVmas (System.running_eq_some.mp hrun).1 hinv hk _⟩
  | brk hrun =>
    exact ⟨pds, own, h.setVmas (System.running_eq_some.mp hrun).1 h.inv (.refl s.machine own) _⟩
  | exec hrun hexec =>
    obtain ⟨pds', own', hinv, hk, hpds⟩ :=
      sysExecMemory_inv h.inv h.half (h.mem_of_running hrun) hkeeps hexec
    exact ⟨pds', own', h.exec hrun _ hinv hk hpds⟩
  | exit hrun =>
    obtain ⟨own', hexit⟩ := h.exitTask h.inv (.refl s.machine own) hrun
    exact ⟨_, own', hexit⟩
  | reap hproc hdead =>
    obtain ⟨own', hreap⟩ := h.reap hproc hdead
    exact ⟨pds, own', hreap⟩

end SysInv

/-- The invariant of the states reached from boot. -/
theorem SysInv.run {image : BootImage} {info : BootInfo} {ram : Nat → Nat → Word}
    {s₀ s : System} (hboot : System.boot image info ram = some s₀)
    (hrun : Reach SysOp.step (fun s op => op.Possible s ∧ op.KeepsOwners s) s₀ s) :
    ∃ pds own, SysInv s pds own := by
  obtain ⟨own, hstart⟩ := System.boot_inv hboot
  refine hrun.invariant (P := fun s => ∃ pds own, SysInv s pds own) ⟨∅, own, hstart.sys⟩ ?_
  rintro s op s' ⟨pds, own, hinv⟩ ⟨hpossible, hkeeps⟩ hstep
  exact hinv.step hpossible hkeeps hstep

/-- The directories `pds` are those of the processes. -/
def LiveDirs (s : System) (pds : Finset Nat) : Prop :=
  ∀ pd, pd ∈ pds ↔ ∃ p task, s.proc p = some task ∧ task.pdirVirt = some pd

/-- Each frame mapped in a user half has its mappings as reference count, is not
in the pool and is not what the allocator returns next. -/
def FramesCounted (m : Machine) (pds : Finset Nat) : Prop :=
  ∀ site ∈ userSites pds, ∀ f, siteFrame m site = some f →
    m.pmm.refcounts f = userRefs m pds f ∧ m.pmm.bitmap f = true ∧
      (pmmAllocPage m.pmm).2 ≠ frameAddr f

/-- Frame ownership in every state reached by operations that respect the owners. -/
theorem frame_ownership {image : BootImage} {info : BootInfo} {ram : Nat → Nat → Word}
    {s₀ s : System} (hboot : System.boot image info ram = some s₀)
    (hrun : Reach SysOp.step (fun s op => op.Possible s ∧ op.KeepsOwners s) s₀ s) :
    ∃ pds, LiveDirs s pds ∧ FramesCounted s.machine pds := by
  obtain ⟨pds, own, hinv⟩ := SysInv.run hboot hrun
  refine ⟨pds, hinv.dirs, ?_⟩
  intro site hsite f hf
  obtain ⟨hcount, hbit⟩ := hinv.inv.mapped_frame hsite hf
  exact ⟨hcount, hbit, hinv.inv.alloc_not_mapped hsite hf⟩

theorem smallFile_fits : SegmentsFit (smallFile 6) := by
  have hall : (elfHeader (smallFile 6)).all fun header => decide
      (∀ h ∈ loadHeaders (smallFile 6) header (List.range header.ePhnum),
        h.pVaddr + h.copySize ≤ kernelSpaceStart) := by decide +kernel
  intro header hheader h hh _
  rw [hheader, Option.all_some, decide_eq_true_eq] at hall
  exact hall h hh

theorem smallInit_reach : ∃ s₀ s, System.boot smallImage smallInfo (fun _ _ => 0#32) = some s₀ ∧
    Reach SysOp.step (fun s op => op.Possible s ∧ op.KeepsOwners s) s₀ s ∧ SmallInit 3#32 s := by
  obtain ⟨s₀, s, hboot, hstep, hsmall⟩ := smallInit_rw
  have hinit : (SysOp.startInit (smallFile 6) []).Possible s₀ ∧
      (SysOp.startInit (smallFile 6) []).KeepsOwners s₀ := ⟨trivial, smallFile_fits⟩
  exact ⟨s₀, s, hboot, .next .start hinit hstep, hsmall⟩

/-- The small machine with its first process. -/
theorem frame_ownership_sample :
    ∃ s pds, SmallInit 3#32 s ∧ LiveDirs s pds ∧ FramesCounted s.machine pds := by
  obtain ⟨s₀, s, hboot, hreach, hsmall⟩ := smallInit_reach
  obtain ⟨pds, hdirs, hcounted⟩ := frame_ownership hboot hreach
  exact ⟨s, pds, hsmall, hdirs, hcounted⟩

/-- The first process unmaps the kernel address of its own page. -/
theorem munmap_frees_mapped_frame : ¬ ∀ (image : BootImage) (info : BootInfo)
    (ram : Nat → Nat → Word) (s₀ s : System), System.boot image info ram = some s₀ →
    Reach SysOp.step (fun s op => op.Possible s) s₀ s →
    ∃ pds, LiveDirs s pds ∧ FramesCounted s.machine pds := by
  intro hall
  obtain ⟨s₀, s, hboot, hstep, hsmall⟩ := smallInit_rw
  have hrun := hsmall.running
  have hframes : frameOf 0x01006007#32 = 4102 ∧ frameOf 0x01005007#32 = 4101 := by decide
  -- the loop of the handler has one page, at the kernel address of frame 4101
  have hunmap : (sysMunmap s.machine 4100 (smallVmas 3#32) 0xC1005000 4096 []).1 =
      (s.machine.freePage (frameAddr 4101)).setWord 645 5 0#32 := by
    have hloop : (sysMunmap s.machine 4100 (smallVmas 3#32) 0xC1005000 4096 []).1 =
        vmmUnmapAndFreePageInPd s.machine 4100 0xC1005000 := rfl
    rw [hloop, vmmUnmapAndFreePageInPd_eq, hsmall.kernelPteAt,
      show dirIndex 0xC1005000 = 772 from rfl, hsmall.kernelPde, if_pos (by decide)]
    rfl
  have hnext : SysOp.step s (.munmap 4107 0xC1005000 4096 []) =
      some ((s.setMachine ((s.machine.freePage (frameAddr 4101)).setWord 645 5 0#32)).setVmas 4107
        ⟨⟨some 4100, smallVmas 3#32⟩, kernelStackTop 0⟩ (smallVmas 3#32)) := by
    simp only [SysOp.step, hrun]
    rw [hunmap]
    rfl
  have hinit : (SysOp.startInit (smallFile 6) []).Possible s₀ := trivial
  have hargs : (SysOp.munmap 4107 0xC1005000 4096 []).Possible s := ⟨by decide, by decide⟩
  obtain ⟨pds, hdirs, hcounted⟩ := hall _ _ _ s₀ _ hboot
    (.next (.next .start hinit hstep) hargs hnext)
  have hmem : 4100 ∈ pds := by
    refine (hdirs 4100).mpr ⟨4107, ⟨⟨some 4100, smallVmas 3#32⟩, kernelStackTop 0⟩, ?_, rfl⟩
    rw [System.setVmas, System.setProc_proc, if_pos rfl]
  have hsite : ((4100, 32, 72) : Site) ∈ userSites pds :=
    mem_userSites.mpr ⟨hmem, by decide, by decide⟩
  have hmapped : siteFrame ((s.machine.freePage (frameAddr 4101)).setWord 645 5 0#32)
      (4100, 32, 72) = some 4101 := by
    have hentry : siteEntry ((s.machine.freePage (frameAddr 4101)).setWord 645 5 0#32)
        (4100, 32, 72) = some 0x01005007#32 := by
      rw [siteEntry_eq_some]
      unfold Machine.pteAt
      rw [Machine.setWord_mem_of_ne (by decide), Machine.freePage_mem, hsmall.pde, hframes.1,
        Machine.setWord_mem_of_ne (by decide), Machine.freePage_mem, hsmall.pte]
      decide
    rw [siteFrame_of_entry hentry, hframes.2]
  have hzero : (s.machine.freePage (frameAddr 4101)).pmm.bitmap 4101 = false := by
    unfold Machine.freePage
    rw [Machine.withPmm_pmm, hsmall.released, Pmm.release_bitmap, Function.update_self]
  have hbit := (hcounted _ hsite 4101 hmapped).2.1
  rw [System.setVmas, System.setProc_machine, System.setMachine_machine, Machine.setWord_pmm,
    hzero] at hbit
  cases hbit

end EnclaveOS
