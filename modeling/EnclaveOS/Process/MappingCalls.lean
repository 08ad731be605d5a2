import EnclaveOS.Process.OwnerRuns

/-!
# MappingCalls - the kernel half under the calls that edit an address space

The handlers `sys_mmap` and `sys_brk` edit the areas of the caller only.
The page loops of `sys_munmap` and `sys_mprotect` write the tables of its
user half, as long as their pages lie below `KERNEL_SPACE_START`; the second
handler checks that, the first one does not.  The direct map covers every frame, so
the frame of a user page is mapped in the kernel half too.
-/

namespace EnclaveOS

open PageWord

/-- Entries 768 to 1023 and the tables they point to are what they were. -/
structure KernelTablesKept (m : Machine) (pd : Nat) (m' : Machine) : Prop where
  entry : ∀ i, 768 ≤ i → i < 1024 → m'.mem pd i = m.mem pd i
  table : ∀ i, 768 ≤ i → i < 1024 → isPresent (m.mem pd i) = true →
    m'.mem (frameOf (m.mem pd i)) = m.mem (frameOf (m.mem pd i))

/-- Frame `f` is mapped through entries 768 to 1023. -/
def KernelMapped (m : Machine) (pd f : Nat) : Prop :=
  ∃ i j, 768 ≤ i ∧ i < 1024 ∧ j < 1024 ∧ isPresent (m.mem pd i) = true ∧
    isPresent (m.pteAt pd i j) = true ∧ frameOf (m.pteAt pd i j) = f

/-- The tables of the user half are neither the directory nor a table of the kernel
half. -/
def TablesApart (m : Machine) (pd : Nat) : Prop :=
  ∀ i < 768, isPresent (m.mem pd i) = true → frameOf (m.mem pd i) ≠ pd ∧
    ∀ k, 768 ≤ k → k < 1024 → isPresent (m.mem pd k) = true →
      frameOf (m.mem pd k) ≠ frameOf (m.mem pd i)

/-- The live directories have their tables apart. -/
theorem SysInv.tablesApart {s : System} {pds : Finset Nat} {own : Nat → Owner} {pd : Nat}
    (h : SysInv s pds own) (hpd : pd ∈ pds) : TablesApart s.machine pd := by
  intro i hi hpde
  have htable := h.inv.table pd hpd i hi hpde
  refine ⟨fun heq => h.inv.table_ne_dir hpd hi hpde hpd heq.symm, ?_⟩
  intro k hk hk' hpdk heq
  rw [h.inv.kernelHalf pd hpd k hk hk'] at hpdk heq
  have hreserved := (h.half.table k hk hk' hpdk).1
  rw [heq, htable] at hreserved
  cases hreserved

/-- So have those of the processes in every state reached from boot by operations that
respect the owners of frames. -/
theorem tablesApart_of_reach {image : BootImage} {info : BootInfo} {ram : Nat → Nat → Word}
    {s₀ s : System} (hboot : System.boot image info ram = some s₀)
    (hreach : Reach SysOp.step (fun s op => op.Possible s ∧ op.KeepsOwners s) s₀ s) {p pd : Nat}
    {task : Process} (hrun : s.running p = some (task, pd)) : TablesApart s.machine pd := by
  obtain ⟨pds, own, hinv⟩ := SysInv.run hboot hreach
  exact hinv.tablesApart (hinv.mem_of_running hrun)

/-- Only tables of the user half of `pd` are written. -/
structure UserTablesOnly (m : Machine) (pd : Nat) (m' : Machine) : Prop where
  dir : m'.mem pd = m.mem pd
  mem : ∀ f, (∀ i < 768, isPresent (m.mem pd i) = true → f ≠ frameOf (m.mem pd i)) →
    m'.mem f = m.mem f

namespace UserTablesOnly

variable {m m' m'' : Machine} {pd : Nat}

theorem refl (m : Machine) (pd : Nat) : UserTablesOnly m pd m :=
  ⟨rfl, fun _ _ => rfl⟩

theorem trans (h : UserTablesOnly m pd m') (h' : UserTablesOnly m' pd m'') :
    UserTablesOnly m pd m'' where
  dir := h'.dir.trans h.dir
  mem f hf := by
    have hf' := h'.mem f
    rw [h.dir] at hf'
    exact (hf' hf).trans (h.mem f hf)

theorem tablesApart (h : UserTablesOnly m pd m') (hapart : TablesApart m pd) :
    TablesApart m' pd := by
  unfold TablesApart at *
  rw [h.dir]
  exact hapart

theorem kernelTablesKept (h : UserTablesOnly m pd m') (hapart : TablesApart m pd) :
    KernelTablesKept m pd m' where
  entry i _ _ := congrFun h.dir i
  table i hi hi' hpde := by
    apply h.mem
    intro u hu hpdu
    exact (hapart u hu hpdu).2 i hi hi' hpde

/-- A write to an entry of a user address. -/
theorem setWord (hapart : TablesApart m pd) {x : Nat} (hx : x < kernelSpaceStart)
    (hpde : isPresent (m.mem pd (dirIndex x)) = true) (p : Pmm) (j : Nat) (w : Word) :
    UserTablesOnly m pd ((m.withPmm p).setWord (frameOf (m.mem pd (dirIndex x))) j w) := by
  have hi : dirIndex x < 768 := (dirIndex_lt_768_iff x).mpr hx
  constructor
  · exact Machine.setWord_mem_of_ne (m := m.withPmm p) (Ne.symm (hapart _ hi hpde).1) j w
  · intro f hf
    exact Machine.setWord_mem_of_ne (m := m.withPmm p) (hf _ hi hpde) j w

end UserTablesOnly

section Loops

variable {m : Machine} {pd : Nat}

/-- The loop of `sys_mprotect`. -/
theorem protectPages_tables (hapart : TablesApart m pd) (flags : Word) {l : List Nat}
    (hl : ∀ x ∈ l, x < kernelSpaceStart) :
    UserTablesOnly m pd (l.foldl (fun m p => vmmProtectPageInPd m pd p flags) m) ∧
      (l.foldl (fun m p => vmmProtectPageInPd m pd p flags) m).pmm = m.pmm := by
  induction l generalizing m with
  | nil => exact ⟨.refl m pd, rfl⟩
  | cons x rest ih =>
    rw [List.forall_mem_cons] at hl
    have hstep : UserTablesOnly m pd (vmmProtectPageInPd m pd x flags) ∧
        (vmmProtectPageInPd m pd x flags).pmm = m.pmm := by
      rw [vmmProtectPageInPd_eq]
      split_ifs with hpres
      · exact ⟨.setWord hapart hl.1 hpres.1 m.pmm _ _, rfl⟩
      · exact ⟨.refl m pd, rfl⟩
    obtain ⟨hrest, hpmm⟩ := ih (hstep.1.tablesApart hapart) hl.2
    exact ⟨hstep.1.trans hrest, hpmm.trans hstep.2⟩

/-- Frame `f` is mapped at one of the pages `l`. -/
def MappedIn (m : Machine) (pd : Nat) (l : List Nat) (f : Nat) : Prop :=
  ∃ x ∈ l, isMapped m pd x = true ∧ walkFrame m pd x = f

/-- An entry set to zero maps nothing new. -/
theorem mappedIn_zeroPte (hapart : TablesApart m pd) {x : Nat} (hx : x < kernelSpaceStart)
    (hpde : isPresent (m.mem pd (dirIndex x)) = true) (p : Pmm) {j : Nat} {l : List Nat} {f : Nat}
    (hf : MappedIn ((m.withPmm p).setWord (frameOf (m.mem pd (dirIndex x))) j 0#32) pd l f) :
    MappedIn m pd l f := by
  obtain ⟨y, hy, hmapped, hframe⟩ := hf
  have hdir := (UserTablesOnly.setWord hapart hx hpde p j 0#32).dir
  have hpte : ((m.withPmm p).setWord (frameOf (m.mem pd (dirIndex x))) j 0#32).pteAt pd
      (dirIndex y) (tableIndex y) =
        if frameOf (m.mem pd (dirIndex y)) = frameOf (m.mem pd (dirIndex x)) ∧ tableIndex y = j
        then 0#32 else m.pteAt pd (dirIndex y) (tableIndex y) := by
    unfold Machine.pteAt
    rw [hdir, Machine.setWord_mem]
    rfl
  rw [isMapped_iff, hdir, hpte] at hmapped
  rw [walkFrame, hpte] at hframe
  split_ifs at hmapped hframe with hcell
  · exact absurd hmapped.2 (by decide)
  · exact ⟨y, hy, isMapped_iff.mpr hmapped, hframe⟩

/-- An unmapping maps nothing new. -/
theorem mappedIn_unmap (hapart : TablesApart m pd) {x : Nat} (hx : x < kernelSpaceStart)
    {l : List Nat} {f : Nat} (hf : MappedIn (vmmUnmapAndFreePageInPd m pd x) pd l f) :
    MappedIn m pd l f := by
  rw [vmmUnmapAndFreePageInPd_eq] at hf
  split_ifs at hf with hpres
  · exact mappedIn_zeroPte hapart hx hpres.1 _ hf
  · exact hf

/-- One round of the loop of `sys_munmap`. -/
theorem unmapPage_tables (hapart : TablesApart m pd) {x : Nat} (hx : x < kernelSpaceStart) :
    UserTablesOnly m pd (vmmUnmapAndFreePageInPd m pd x) ∧
      ∀ f, ¬ MappedIn m pd [x] f →
        (vmmUnmapAndFreePageInPd m pd x).pmm.bitmap f = m.pmm.bitmap f ∧
          (vmmUnmapAndFreePageInPd m pd x).pmm.refcounts f = m.pmm.refcounts f := by
  rw [vmmUnmapAndFreePageInPd_eq]
  split_ifs with hpres
  · refine ⟨.setWord hapart hx hpres.1 _ _ _, ?_⟩
    intro f hf
    have hne : f ≠ walkFrame m pd x := by
      rintro rfl
      exact hf ⟨x, List.mem_singleton_self x, isMapped_iff.mpr hpres, rfl⟩
    have hlt : walkFrame m pd x < pmmMaxPages := frameOf_lt _
    rw [Machine.setWord_pmm, physOf_eq_frameAddr]
    change (pmmFreePage m.pmm (frameAddr (walkFrame m pd x))).bitmap f = _ ∧
      (pmmFreePage m.pmm (frameAddr (walkFrame m pd x))).refcounts f = _
    rw [pmmFreePage_frameAddr _ hlt]
    split_ifs
    · rw [Pmm.release_bitmap, Pmm.release_refcounts, Function.update_of_ne hne,
        Function.update_of_ne hne]
      exact ⟨rfl, rfl⟩
    · exact ⟨rfl, rfl⟩
  · exact ⟨.refl m pd, fun _ _ => ⟨rfl, rfl⟩⟩

/-- The loop of `sys_munmap`, below the kernel half. -/
theorem unmapPages_tables (hapart : TablesApart m pd) {l : List Nat}
    (hl : ∀ x ∈ l, x < kernelSpaceStart) :
    UserTablesOnly m pd (l.foldl (fun m p => vmmUnmapAndFreePageInPd m pd p) m) ∧
      ∀ f, ¬ MappedIn m pd l f →
        (l.foldl (fun m p => vmmUnmapAndFreePageInPd m pd p) m).pmm.bitmap f = m.pmm.bitmap f ∧
          (l.foldl (fun m p => vmmUnmapAndFreePageInPd m pd p) m).pmm.refcounts f =
            m.pmm.refcounts f := by
  induction l generalizing m with
  | nil => exact ⟨.refl m pd, fun _ _ => ⟨rfl, rfl⟩⟩
  | cons x rest ih =>
    rw [List.forall_mem_cons] at hl
    obtain ⟨hround, hpool⟩ := unmapPage_tables hapart hl.1
    obtain ⟨hrest, hpool'⟩ := ih (hround.tablesApart hapart) hl.2
    refine ⟨hround.trans hrest, ?_⟩
    intro f hf
    have hhead : ¬ MappedIn m pd [x] f := by
      intro hmapped
      obtain ⟨y, hy, hy'⟩ := hmapped
      rw [List.mem_singleton] at hy
      exact hf ⟨y, by rw [hy]; exact List.mem_cons_self, hy'⟩
    have htail : ¬ MappedIn (vmmUnmapAndFreePageInPd m pd x) pd rest f := by
      intro hmapped
      obtain ⟨y, hy, hy'⟩ := mappedIn_unmap hapart hl.1 hmapped
      exact hf ⟨y, List.mem_cons_of_mem x hy, hy'⟩
    exact ⟨(hpool' f htail).1.trans (hpool f hhead).1, (hpool' f htail).2.trans (hpool f hhead).2⟩

/-- `sys_mprotect`: its bounds check keeps the loop below the kernel half. -/
theorem sysMprotect_tables (hapart : TablesApart m pd) (vmas : List Vma) (addr len : Nat)
    (prot : Word) (k : Kmalloc) :
    UserTablesOnly m pd (sysMprotect m pd vmas addr len prot k).1 ∧
      (sysMprotect m pd vmas addr len prot k).1.pmm = m.pmm := by
  unfold sysMprotect
  split_ifs with hlen hwx hbounds hcover
  · exact ⟨.refl m pd, rfl⟩
  · exact ⟨.refl m pd, rfl⟩
  · exact ⟨.refl m pd, rfl⟩
  · exact ⟨.refl m pd, rfl⟩
  · dsimp only
    split_ifs with hret
    · exact ⟨.refl m pd, rfl⟩
    · apply protectPages_tables hapart
      intro y hy
      have hrange := mem_pageList_aligned (pageDown_mod addr) hy
      unfold kernelSpaceStart userSpaceEnd at *
      omega

/-- `sys_munmap` of a range below the kernel half. -/
theorem sysMunmap_tables (hapart : TablesApart m pd) (vmas : List Vma) {addr len : Nat}
    (hbelow : ∀ x ∈ pageList (pageDown addr) (rangeEnd addr len), x < kernelSpaceStart)
    (k : Kmalloc) :
    UserTablesOnly m pd (sysMunmap m pd vmas addr len k).1 ∧
      ∀ f, ¬ MappedIn m pd (pageList (pageDown addr) (rangeEnd addr len)) f →
        (sysMunmap m pd vmas addr len k).1.pmm.bitmap f = m.pmm.bitmap f ∧
          (sysMunmap m pd vmas addr len k).1.pmm.refcounts f = m.pmm.refcounts f := by
  unfold sysMunmap
  split_ifs with hlen
  · exact ⟨.refl m pd, fun _ _ => ⟨rfl, rfl⟩⟩
  · dsimp only
    split_ifs with hret
    · exact ⟨.refl m pd, fun _ _ => ⟨rfl, rfl⟩⟩
    · exact unmapPages_tables hapart hbelow

end Loops

/-- The calls of process `p` that edit its address space. -/
def SysOp.MappingCall (p : Nat) : SysOp → Prop
  | .mmap q _ _ _ _ _ => q = p
  | .munmap q _ _ _ => q = p
  | .mprotect q _ _ _ _ => q = p
  | .brk q _ _ => q = p
  | _ => False

/-- An unmapping stays below `KERNEL_SPACE_START`. -/
def SysOp.BelowKernel : SysOp → Prop
  | .munmap _ addr len _ =>
    ∀ x ∈ pageList (pageDown addr) (rangeEnd addr len), x < kernelSpaceStart
  | _ => True

/-- The frames that an unmapping finds mapped in its range. -/
def SysOp.Unmaps (m : Machine) (pd : Nat) : SysOp → Nat → Prop
  | .munmap _ addr len _, f => MappedIn m pd (pageList (pageDown addr) (rangeEnd addr len)) f
  | _, _ => False

/-- What the calls leave alone: the kernel half, and the bitmap and the count of every
frame that the call does not unmap from the user half. -/
theorem mapping_calls_spare_kernel {s s' : System} {op : SysOp} {p pd : Nat} {task : Process}
    (hrun : s.running p = some (task, pd)) (hapart : TablesApart s.machine pd)
    (hcall : op.MappingCall p) (hbelow : op.BelowKernel) (hstep : op.step s = some s') :
    KernelTablesKept s.machine pd s'.machine ∧
      ∀ f, ¬ op.Unmaps s.machine pd f →
        s'.machine.pmm.bitmap f = s.machine.pmm.bitmap f ∧
          s'.machine.pmm.refcounts f = s.machine.pmm.refcounts f := by
  have hsame : KernelTablesKept s.machine pd s.machine :=
    (UserTablesOnly.refl s.machine pd).kernelTablesKept hapart
  cases op with
  | mmap q addr len prot flags k =>
    cases hcall
    simp only [SysOp.step, hrun] at hstep
    cases hstep
    exact ⟨hsame, fun _ _ => ⟨rfl, rfl⟩⟩
  | brk q newBrk k =>
    cases hcall
    simp only [SysOp.step, hrun] at hstep
    cases hstep
    exact ⟨hsame, fun _ _ => ⟨rfl, rfl⟩⟩
  | mprotect q addr len prot k =>
    cases hcall
    simp only [SysOp.step, hrun] at hstep
    cases hstep
    obtain ⟨htables, hpmm⟩ := sysMprotect_tables hapart task.vmaHead addr len prot k
    refine ⟨htables.kernelTablesKept hapart, fun f _ => ?_⟩
    simp only [System.setVmas, System.setProc_machine, System.setMachine_machine, hpmm, and_self]
  | munmap q addr len k =>
    cases hcall
    simp only [SysOp.step, hrun] at hstep
    cases hstep
    obtain ⟨htables, hpool⟩ := sysMunmap_tables hapart task.vmaHead hbelow k
    exact ⟨htables.kernelTablesKept hapart, hpool⟩
  | startInit | access | fork | exec | exit | reap => cases hcall

/-- The small machine after its first process started, with its tables apart. -/
theorem smallInit_apart : ∃ s₀ s, System.boot smallImage smallInfo (fun _ _ => 0#32) = some s₀ ∧
    Reach SysOp.step (fun s op => op.Possible s ∧ op.KeepsOwners s) s₀ s ∧ SmallInit 3#32 s ∧
    s.running 4107 = some (⟨⟨some 4100, smallVmas 3#32⟩, kernelStackTop 0⟩, 4100) ∧
    TablesApart s.machine 4100 := by
  obtain ⟨s₀, s, hboot, hreach, hsmall⟩ := smallInit_reach
  have hrun := hsmall.running
  exact ⟨s₀, s, hboot, hreach, hsmall, hrun, tablesApart_of_reach hboot hreach hrun⟩

theorem munmap_step {s : System} {p pd : Nat} {task : Process}
    (hrun : s.running p = some (task, pd)) (addr len : Nat) (k : Kmalloc) :
    (SysOp.munmap p addr len k).step s = some
      ((s.setMachine (sysMunmap s.machine pd task.vmaHead addr len k).1).setVmas p task
        (sysMunmap s.machine pd task.vmaHead addr len k).2.1) := by
  simp only [SysOp.step, hrun]

/-- The first process unmaps its page. -/
theorem munmap_spares_kernel : ∃ s s' : System, SmallInit 3#32 s ∧
    (SysOp.munmap 4107 0x08048000 4096 []).step s = some s' ∧
    KernelTablesKept s.machine 4100 s'.machine ∧
      ∀ f, ¬ (SysOp.munmap 4107 0x08048000 4096 []).Unmaps s.machine 4100 f →
        s'.machine.pmm.bitmap f = s.machine.pmm.bitmap f ∧
          s'.machine.pmm.refcounts f = s.machine.pmm.refcounts f := by
  obtain ⟨s₀, s, -, -, hsmall, hrun, hapart⟩ := smallInit_apart
  have hbelow : (SysOp.munmap 4107 0x08048000 4096 []).BelowKernel := by
    intro x hx
    have hrange := mem_pageList_aligned (pageDown_mod 0x08048000) hx
    have hend : rangeEnd 0x08048000 4096 = 0x08049000 := by decide
    unfold kernelSpaceStart
    omega
  have hstep := munmap_step hrun 0x08048000 4096 []
  exact ⟨s, _, hsmall, hstep, mapping_calls_spare_kernel hrun hapart rfl hbelow hstep⟩

/-- The frame that the first process unmaps is mapped in the kernel half too. -/
theorem munmap_frees_direct_mapped : ¬ ∀ (image : BootImage) (info : BootInfo)
    (ram : Nat → Nat → Word) (s₀ s s' : System) (op : SysOp) (p pd : Nat) (task : Process),
    System.boot image info ram = some s₀ →
    Reach SysOp.step (fun s op => op.Possible s ∧ op.KeepsOwners s) s₀ s →
    s.running p = some (task, pd) → op.MappingCall p → op.Possible s → op.step s = some s' →
    KernelTablesKept s.machine pd s'.machine ∧ ∀ f, KernelMapped s.machine pd f →
      s'.machine.pmm.bitmap f = s.machine.pmm.bitmap f ∧
        s'.machine.pmm.refcounts f = s.machine.pmm.refcounts f := by
  intro hall
  obtain ⟨s₀, s, hboot, hreach, hsmall, hrun, -⟩ := smallInit_apart
  -- the loop of the handler has one page
  have hunmap : (sysMunmap s.machine 4100 (smallVmas 3#32) 0x08048000 4096 []).1.pmm =
      s.machine.pmm.release 4101 := by
    have hloop : (sysMunmap s.machine 4100 (smallVmas 3#32) 0x08048000 4096 []).1 =
        vmmUnmapAndFreePageInPd s.machine 4100 0x08048000 := rfl
    rw [hloop, vmmUnmapAndFreePageInPd_eq, hsmall.pteAt, show dirIndex 0x08048000 = 32 from rfl,
      hsmall.pde, if_pos (by decide), Machine.setWord_pmm,
      show physOf 0x01005007#32 = frameAddr 4101 by decide]
    exact hsmall.released
  have hkernel : KernelMapped s.machine 4100 4101 := by
    have hpte : s.machine.pteAt 4100 772 5 = 0x01005003#32 := hsmall.kernelPteAt
    refine ⟨772, 5, by decide, by decide, by decide, ?_, ?_, ?_⟩
    · rw [hsmall.kernelPde]
      decide
    · rw [hpte]
      decide
    · rw [hpte]
      decide
  have hargs : (SysOp.munmap 4107 0x08048000 4096 []).Possible s := ⟨by decide, by decide⟩
  have hbit := ((hall _ _ _ s₀ s _ (.munmap 4107 0x08048000 4096 []) 4107 4100 _ hboot hreach hrun
    rfl hargs (munmap_step hrun 0x08048000 4096 [])).2 4101 hkernel).1
  rw [System.setVmas, System.setProc_machine, System.setMachine_machine, hunmap,
    Pmm.release_bitmap, Function.update_self, hsmall.counted.2] at hbit
  cases hbit

end EnclaveOS
