import EnclaveOS.Process.ProcessVmas
import EnclaveOS.Process.SystemInv

/-!
# SyscallSpec - what the system calls do to the ownership of frames

The page loops of `sys_munmap` and `sys_mprotect`, a load into a fresh
directory, and the start and the end of a task.
-/

namespace EnclaveOS

open PageWord RefCount

theorem mem_pageList {start stop x : Nat} :
    x ∈ pageList start stop ↔ ∃ i < (stop - start) / 4096, x = start + i * 4096 := by
  simp [pageList, eq_comm]

theorem pageList_nodup (start stop : Nat) : (pageList start stop).Nodup := by
  refine List.Nodup.map ?_ List.nodup_range
  intro a b hab
  dsimp only at hab
  omega

theorem mem_pageList_aligned {start stop x : Nat} (hstart : start % 4096 = 0)
    (hx : x ∈ pageList start stop) : start ≤ x ∧ x < stop ∧ x % 4096 = 0 := by
  obtain ⟨i, hi, rfl⟩ := mem_pageList.mp hx
  omega

/-- A page is named by its indices. -/
theorem page_eq_of_index {x y : Nat} (hx : x % 4096 = 0) (hy : y % 4096 = 0)
    (hdir : dirIndex x = dirIndex y) (htable : tableIndex x = tableIndex y) : x = y := by
  unfold dirIndex at hdir
  unfold tableIndex at htable
  omega

theorem rangeEnd_lt (addr len : Nat) : rangeEnd addr len < 4294967296 :=
  Nat.mod_lt _ (by norm_num)

theorem isMapped_iff {m : Machine} {pd x : Nat} :
    isMapped m pd x = true ↔ isPresent (m.mem pd (dirIndex x)) = true ∧
      isPresent (m.pteAt pd (dirIndex x) (tableIndex x)) = true :=
  Bool.and_eq_true_iff

theorem siteEntry_of_mapped {m : Machine} {pd x : Nat} (h : isMapped m pd x = true) :
    siteEntry m (pd, dirIndex x, tableIndex x) =
      some (m.pteAt pd (dirIndex x) (tableIndex x)) :=
  siteEntry_eq_some.mpr ⟨(isMapped_iff.mp h).1, (isMapped_iff.mp h).2, rfl⟩

theorem siteEntry_of_not_mapped {m : Machine} {pd x : Nat} (h : isMapped m pd x = false) :
    siteEntry m (pd, dirIndex x, tableIndex x) = none := by
  refine siteEntry_eq_none fun hpde => ?_
  rw [isMapped, hpde, Bool.true_and] at h
  exact h

/-- The processor reports an absent page only where the walk finds none. -/
theorem siteEntry_of_fault {cr0 : Word} {m : Machine} {pd addr : Nat} {rw us : Bool}
    {code : FaultCode} (hcode : cpuFault cr0 m pd addr rw us = some code)
    (hpresent : code.present = false) :
    siteEntry m (pd, dirIndex addr, tableIndex addr) = none := by
  apply siteEntry_of_not_mapped
  by_contra hnot
  rw [Bool.not_eq_false] at hnot
  unfold cpuFault at hcode
  rw [hnot, if_neg (by simp)] at hcode
  split_ifs at hcode
  · cases hcode
    cases hpresent
  · cases hcode
    cases hpresent

/-- The pages of `l` that are mapped are user pages, each mapped once. -/
def PrivatePages (m : Machine) (pd : Nat) (l : List Nat) : Prop :=
  ∀ x ∈ l, isMapped m pd x = true →
    x < kernelSpaceStart ∧ m.pmm.refcounts (walkFrame m pd x) = 1

section Unmap

variable {m : Machine} {pds : Finset Nat} {own : Nat → Owner} {R : Nat → Nat → Prop} {pd : Nat}

/-- An unmapped page changes no other page of the directory. -/
theorem unmapPage_other (h : VmInv m pds own) (hk : KernelHalf m own R) (hpd : pd ∈ pds)
    {x y : Nat} (hx : x < kernelSpaceStart) (hxa : x % 4096 = 0) (hya : y % 4096 = 0)
    (hy : y < 4294967296) (hne : y ≠ x)
    (hmapped : isMapped m pd x = true) :
    (isMapped (vmmUnmapAndFreePageInPd m pd x) pd y = true ↔ isMapped m pd y = true) ∧
      (isMapped m pd y = true →
        walkFrame (vmmUnmapAndFreePageInPd m pd x) pd y = walkFrame m pd y) := by
  obtain ⟨hpde, hpte⟩ := isMapped_iff.mp hmapped
  have hi : dirIndex x < 768 := (mem_userSites.mp (index_mem_userSites hpd hx)).2.1
  have hmem : ∀ g, g ≠ frameOf (m.mem pd (dirIndex x)) →
      (vmmUnmapAndFreePageInPd m pd x).mem g = m.mem g := by
    intro g hg
    rw [vmmUnmapAndFreePageInPd_eq, if_pos ⟨hpde, hpte⟩, Machine.setWord_mem_of_ne hg,
      Machine.freePage_mem]
  have hdir : (vmmUnmapAndFreePageInPd m pd x).mem pd = m.mem pd :=
    hmem pd (h.table_ne_dir hpd hi hpde hpd)
  have hentry : isPresent (m.mem pd (dirIndex y)) = true →
      (vmmUnmapAndFreePageInPd m pd x).pteAt pd (dirIndex y) (tableIndex y) =
        m.pteAt pd (dirIndex y) (tableIndex y) := by
    intro hpdy
    unfold Machine.pteAt
    rw [hdir]
    by_cases htable : frameOf (m.mem pd (dirIndex y)) = frameOf (m.mem pd (dirIndex x))
    · -- the same table, so another entry
      have hsame : dirIndex y = dirIndex x := by
        by_cases hyu : dirIndex y < 768
        · exact (h.table_inj hpd hi hpde hpd hyu hpdy htable).2
        · have hkernel := h.kernelHalf pd hpd (dirIndex y) (by omega)
            (by unfold dirIndex; omega)
          rw [hkernel] at hpdy htable
          have hreserved := (hk.table (dirIndex y) (by omega) (by unfold dirIndex; omega) hpdy).1
          rw [htable, h.table pd hpd _ hi hpde] at hreserved
          cases hreserved
      have hidx : tableIndex y ≠ tableIndex x :=
        fun heq => hne (page_eq_of_index hya hxa hsame heq)
      rw [vmmUnmapAndFreePageInPd_eq, if_pos ⟨hpde, hpte⟩, Machine.setWord_mem,
        if_neg fun hand => hidx hand.2, Machine.freePage_mem]
    · rw [hmem _ htable]
  constructor
  · rw [isMapped_iff, isMapped_iff, hdir]
    exact and_congr_right fun hpdy => by rw [hentry hpdy]
  · intro hmapped'
    unfold walkFrame
    rw [hentry (isMapped_iff.mp hmapped').1]

/-- One round of the loop of `sys_munmap`. -/
theorem unmapPage_inv (h : VmInv m pds own) (hk : KernelHalf m own R) (hpd : pd ∈ pds)
    {x : Nat} {rest : List Nat} (hxa : x % 4096 = 0) (hnodup : x ∉ rest)
    (hrest : ∀ y ∈ rest, y % 4096 = 0 ∧ y < 4294967296)
    (hprivate : PrivatePages m pd (x :: rest)) :
    PrivatePages (vmmUnmapAndFreePageInPd m pd x) pd rest ∧
    ∃ own', VmInv (vmmUnmapAndFreePageInPd m pd x) pds own' ∧
      KernelFrame m own (vmmUnmapAndFreePageInPd m pd x) own' := by
  have hprivate' : PrivatePages m pd rest := fun y hy => hprivate y (List.mem_cons_of_mem _ hy)
  cases hmapped : isMapped m pd x with
  | false =>
    have hsame : vmmUnmapAndFreePageInPd m pd x = m := by
      rw [vmmUnmapAndFreePageInPd_eq, if_neg]
      rw [← isMapped_iff, hmapped]
      exact Bool.false_ne_true
    rw [hsame]
    exact ⟨hprivate', own, h, .refl m own⟩
  | true =>
    obtain ⟨hx, hone⟩ := hprivate x List.mem_cons_self hmapped
    have hsite := siteEntry_of_mapped hmapped
    refine ⟨?_, h.vmmUnmapAndFreePageInPd hpd hx fun w hw => ?_⟩
    · intro y hy hmapped'
      obtain ⟨hiff, hframe⟩ := unmapPage_other h hk hpd hx hxa (hrest y hy).1 (hrest y hy).2
        (fun heq => hnodup (heq ▸ hy)) hmapped
      have hold := hiff.mp hmapped'
      obtain ⟨hyu, hyone⟩ := hprivate' y hy hold
      refine ⟨hyu, ?_⟩
      rw [hframe hold]
      -- the freed frame is another one, as a directory maps a frame once
      have hother : walkFrame m pd y ≠ walkFrame m pd x := by
        intro heq
        have hsame := h.single pd _ _ _ _ _ (index_mem_userSites hpd hyu)
          (index_mem_userSites hpd hx) (siteFrame_of_entry (siteEntry_of_mapped hold))
          (by rw [siteFrame_of_entry hsite]; exact congrArg some heq.symm)
        exact hnodup (page_eq_of_index (hrest y hy).1 hxa hsame.1 hsame.2 ▸ hy)
      have hpage := h.page_of_frame (index_mem_userSites hpd hx) (siteFrame_of_entry hsite)
      have hlimit := h.lt_limit (f := walkFrame m pd x) (by rw [walkFrame, hpage]; rintro use ⟨⟩)
      have hmax : walkFrame m pd x < 1048576 := lt_of_lt_of_le hlimit h.limit
      obtain ⟨hpde, hpte⟩ := isMapped_iff.mp hmapped
      have hphys : physOf (m.pteAt pd (dirIndex x) (tableIndex x)) =
          frameAddr (walkFrame m pd x) := physOf_eq_frameAddr _
      rw [vmmUnmapAndFreePageInPd_eq, if_pos ⟨hpde, hpte⟩, hphys, Machine.setWord_pmm]
      change (pmmFreePage m.pmm (frameAddr (walkFrame m pd x))).refcounts _ = 1
      rw [pmmFreePage_frameAddr _ hmax]
      split_ifs
      · rw [Pmm.release_refcounts, Function.update_of_ne hother]
        exact hyone
      · exact hyone
    · rw [hsite] at hw
      cases hw
      exact hone

/-- The loop of `sys_munmap`. -/
theorem unmapPages_inv (h : VmInv m pds own) (hk : KernelHalf m own R) (hpd : pd ∈ pds)
    {l : List Nat} (hnodup : l.Nodup) (hl : ∀ y ∈ l, y % 4096 = 0 ∧ y < 4294967296)
    (hprivate : PrivatePages m pd l) :
    ∃ own', VmInv (l.foldl (fun m p => vmmUnmapAndFreePageInPd m pd p) m) pds own' ∧
      KernelFrame m own (l.foldl (fun m p => vmmUnmapAndFreePageInPd m pd p) m) own' := by
  induction l generalizing m own with
  | nil => exact ⟨own, h, .refl m own⟩
  | cons x rest ih =>
    rw [List.nodup_cons] at hnodup
    rw [List.forall_mem_cons] at hl
    obtain ⟨hprivate', own₁, hinv, hframe⟩ :=
      unmapPage_inv h hk hpd hl.1.1 hnodup.1 hl.2 hprivate
    obtain ⟨own₂, hinv', hframe'⟩ :=
      ih hinv (hk.frame h.boot hframe) hnodup.2 hl.2 hprivate'
    exact ⟨own₂, hinv', hframe.trans hframe'⟩

/-- What `sys_munmap` unmaps is mapped once and in the user half. -/
def MunmapPrivate (m : Machine) (pd : Nat) (vmas : List Vma) (addr len : Nat) (k : Kmalloc) :
    Prop :=
  len ≠ 0 → 0 ≤ (vmaUnmapRange (pageDown addr) (rangeEnd addr len) vmas k).2.1 →
    PrivatePages m pd (pageList (pageDown addr) (rangeEnd addr len))

theorem sysMunmap_inv (h : VmInv m pds own) (hk : KernelHalf m own R) (hpd : pd ∈ pds)
    {vmas : List Vma} {addr len : Nat} {k : Kmalloc}
    (hprivate : MunmapPrivate m pd vmas addr len k) :
    ∃ own', VmInv (sysMunmap m pd vmas addr len k).1 pds own' ∧
      KernelFrame m own (sysMunmap m pd vmas addr len k).1 own' := by
  unfold sysMunmap
  by_cases hlen : len = 0
  · rw [if_pos hlen]
    exact ⟨own, h, .refl m own⟩
  · rw [if_neg hlen]
    dsimp only
    by_cases hret : (vmaUnmapRange (pageDown addr) (rangeEnd addr len) vmas k).2.1 < 0
    · rw [if_pos hret]
      exact ⟨own, h, .refl m own⟩
    · rw [if_neg hret]
      refine unmapPages_inv h hk hpd (pageList_nodup _ _) ?_ (hprivate hlen (by omega))
      intro y hy
      have hrange := mem_pageList_aligned (pageDown_mod addr) hy
      exact ⟨hrange.2.2, lt_trans hrange.2.1 (rangeEnd_lt addr len)⟩

end Unmap

section Protect

variable {m : Machine} {pds : Finset Nat} {own : Nat → Owner} {pd : Nat}

theorem mapFlags_prot (prot : Word) : MapFlags (protPteFlags prot) := by
  unfold protPteFlags
  split_ifs
  · exact ⟨by decide, by decide, by decide⟩
  · exact ⟨by decide, by decide, by decide⟩

/-- The loop of `sys_mprotect`. -/
theorem protectPages_inv (h : VmInv m pds own) (hpd : pd ∈ pds) {flags : Word}
    (hflags : MapFlags flags) {l : List Nat} (hl : ∀ y ∈ l, y < kernelSpaceStart) :
    VmInv (l.foldl (fun m p => vmmProtectPageInPd m pd p flags) m) pds own ∧
      KernelFrame m own (l.foldl (fun m p => vmmProtectPageInPd m pd p flags) m) own := by
  induction l generalizing m with
  | nil => exact ⟨h, .refl m own⟩
  | cons x rest ih =>
    rw [List.forall_mem_cons] at hl
    obtain ⟨hinv, hframe⟩ := h.vmmProtectPageInPd hpd hl.1 hflags
    obtain ⟨hinv', hframe'⟩ := ih hinv hl.2
    exact ⟨hinv', hframe.trans hframe'⟩

theorem sysMprotect_inv (h : VmInv m pds own) (hpd : pd ∈ pds) (vmas : List Vma)
    (addr len : Nat) (prot : Word) (k : Kmalloc) :
    VmInv (sysMprotect m pd vmas addr len prot k).1 pds own ∧
      KernelFrame m own (sysMprotect m pd vmas addr len prot k).1 own := by
  unfold sysMprotect
  split_ifs with hlen hwx hbounds hcover
  · exact ⟨h, .refl m own⟩
  · exact ⟨h, .refl m own⟩
  · exact ⟨h, .refl m own⟩
  · exact ⟨h, .refl m own⟩
  · dsimp only
    split_ifs with hret
    · exact ⟨h, .refl m own⟩
    · refine protectPages_inv h hpd (mapFlags_prot prot) ?_
      intro y hy
      have hrange := mem_pageList_aligned (pageDown_mod addr) hy
      unfold kernelSpaceStart userSpaceEnd at *
      omega

end Protect

/-- No segment that passes the checks copies bytes past the user half.  The checks
wrap: they look at `p_vaddr + p_memsz` as a `uint32_t`. -/
def SegmentsFit (file : VfsFile) : Prop :=
  ∀ header, elfHeader file = some header →
    ∀ h ∈ loadHeaders file header (List.range header.ePhnum),
      h.Accepted → h.pVaddr + h.copySize ≤ kernelSpaceStart

theorem elfPrepare_accepted {pd : Nat} {h : Elf32Phdr} {s t : ElfState}
    (hprepare : elfPrepare pd h s = (t, .ok)) : h.Accepted := by
  unfold elfPrepare at hprepare
  rcases vmaAdd_cases s.vmaHead h.pVaddr h.memEnd h.vmaFlags s.kmallocs with
    ⟨-, hret⟩ | ⟨hstart, hend, -⟩
  · dsimp only at hprepare
    rw [if_pos hret.ne] at hprepare
    cases hprepare
  · exact ⟨hstart, hend⟩

/-- The copy loop is only reached for a segment that passes the checks. -/
theorem CopyReached.accepted {file : VfsFile} {pd : Nat} {header : Elf32Header} {l : List Nat}
    {s t : ElfState} {h : Elf32Phdr} (hreached : CopyReached file pd header l s h t) :
    h ∈ loadHeaders file header l ∧ h.Accepted := by
  induction hreached with
  | here hphdr htype hprepare =>
    refine ⟨?_, elfPrepare_accepted hprepare⟩
    simp [loadHeaders, hphdr, htype]
  | @next i rest s s' t h h' hphdr hsegment hrest ih =>
    refine ⟨?_, ih.2⟩
    obtain ⟨hmem, htype⟩ := List.mem_filter.mp ih.1
    refine List.mem_filter.mpr ⟨?_, htype⟩
    rw [List.filterMap_cons, hphdr]
    exact List.mem_cons_of_mem _ hmem

section Exec

variable {m m' : Machine} {pds : Finset Nat} {own : Nat → Owner} {R : Nat → Nat → Prop}
  {pd newPd : Nat} {vmas vmas' : List Vma} {k k' : Kmalloc}

/-- The tables of the kernel half are the kernel's. -/
theorem VmInv.kernelTables (h : VmInv m pds own) (hk : KernelHalf m own R) (hpd : pd ∈ pds)
    (i : Nat) (hi : 768 ≤ i) (hi' : i < 1024) (hpres : isPresent (m.mem pd i) = true) :
    ∃ use, own (frameOf (m.mem pd i)) = .kernel use := by
  rw [h.kernelHalf pd hpd i hi hi'] at hpres ⊢
  exact ⟨.reserved, (hk.table i hi hi' hpres).1⟩

/-- A load into a directory with an empty user half. -/
theorem elfLoad_inv (h : VmInv m pds own) (hk : KernelHalf m own R) (hpd : pd ∈ pds)
    (hempty : ∀ i < 768, m.mem pd i = 0#32) {file : VfsFile} (hfit : SegmentsFit file)
    (k : Kmalloc) :
    (elfLoad file pd m k).2.1 ≠ .halted ∧
      ∃ own', ElfInv m own pds pd (elfLoad file pd m k).1 own' := by
  have hstart := ElfInv.start h hempty k
  have htables := h.kernelTables hk hpd
  unfold elfLoad
  cases hheader : elfHeader file with
  | none => exact ⟨by rintro ⟨⟩, own, hstart⟩
  | some header =>
    dsimp only
    have hconfined : ∀ ph t, CopyReached file pd header (List.range header.ePhnum) (.start m k) ph t →
        ¬ SegmentEscapes file pd ph t := by
      intro ph t hreached hescapes
      obtain ⟨hmem, hacc⟩ := hreached.accepted
      have hpast := hescapes.past
      exact absurd (hfit header hheader ph hmem hacc) (by omega)
    have hsegments := (hstart.segments file h hpd htables).1 hconfined
    rcases hres : elfSegments file pd header (List.range header.ePhnum) (.start m k) with
      ⟨s, status⟩
    rw [hres] at hsegments
    cases status with
    | ok => exact ⟨by rintro ⟨⟩, hsegments.2⟩
    | failed => exact ⟨by rintro ⟨⟩, hsegments.2⟩
    | halted => exact absurd rfl hsegments.1

/-- The address space after `sys_exec`. -/
theorem sysExecMemory_inv (h : VmInv m pds own) (hk : KernelHalf m own R) (hpd : pd ∈ pds)
    {file : Except Int VfsFile} (hfit : ∀ f, file = .ok f → SegmentsFit f) {ret : Int}
    (hexec : sysExecMemory m pd vmas file k = some (m', newPd, vmas', ret, k')) :
    ∃ pds' own', VmInv m' pds' own' ∧ KernelFrame m own m' own' ∧
      (newPd = pd ∧ pds' = pds ∨ newPd ∉ pds ∧ pds' = (insert newPd pds).erase pd) := by
  cases file with
  | error e =>
    cases hexec
    exact ⟨pds, own, h, .refl m own, Or.inl ⟨rfl, rfl⟩⟩
  | ok f =>
    unfold sysExecMemory at hexec
    dsimp only at hexec
    rcases h.vmmCreateAddressSpace with hnone | ⟨m₁, n, own₁, hsome, hn, hinv, hframe, hnew⟩
    · rw [hnone] at hexec
      cases hexec
      exact ⟨pds, own, h, .refl m own, Or.inl ⟨rfl, rfl⟩⟩
    · rw [hsome] at hexec
      have hk₁ := hk.frame h.boot hframe
      obtain ⟨hrun, own₂, hload⟩ :=
        elfLoad_inv hinv hk₁ (Finset.mem_insert_self n pds) hnew.empty (hfit f rfl) k
      rcases hres : elfLoad f n m₁ k with ⟨t, status, entry⟩
      rw [hres] at hrun hload
      simp only [hres] at hexec
      rw [if_neg hrun] at hexec
      by_cases hentry : entry = 0
      · rw [if_pos hentry] at hexec
        cases hexec
        obtain ⟨own₃, hinv₃, hframe₃⟩ :=
          hload.inv.vmmDestroyAddressSpace (Finset.mem_insert_self n pds)
        rw [Finset.erase_insert hn] at hinv₃
        exact ⟨pds, own₃, hinv₃, (hframe.trans hload.kernel).trans hframe₃, Or.inl ⟨rfl, rfl⟩⟩
      · rw [if_neg hentry] at hexec
        have hne : pd ≠ n := by
          rintro rfl
          exact hn hpd
        obtain ⟨own₃, hinv₃, hframe₃⟩ :=
          hload.inv.vmmDestroyAddressSpace (Finset.mem_insert_of_mem hpd)
        have hnewPd : m' = vmmDestroyAddressSpace t.machine pd ∧ newPd = n := by
          rw [if_pos hne] at hexec
          split_ifs at hexec
          · cases hexec
            exact ⟨rfl, rfl⟩
          · cases hexec
            exact ⟨rfl, rfl⟩
        rw [hnewPd.1, hnewPd.2]
        exact ⟨_, own₃, hinv₃, (hframe.trans hload.kernel).trans hframe₃, Or.inr ⟨hn, rfl⟩⟩

end Exec

/-- The frames of a new process: its directory, its PCB and its kernel stack. -/
structure TaskStarted (m : Machine) (pds : Finset Nat) (own : Nat → Owner) (m' : Machine)
    (own' : Nat → Owner) (pcb slot dir : Nat) : Prop where
  inv : VmInv m' (insert dir pds) own'
  half : KernelHalf m' own' (stacksInUse m')
  step : KernelStep m own m' own'
  fresh : own pcb ≠ .kernel .pcb
  pcb : own' pcb = .kernel .pcb
  slot_lt : slot < kernelStackSlots
  slot_unused : m.kstackBitmap slot = false
  slot_used : m'.kstackBitmap = Function.update m.kstackBitmap slot true
  dir_fresh : dir ∉ pds

/-- The kernel changed its own frames and slots at most for a while. -/
structure KernelKept (m : Machine) (pds : Finset Nat) (own : Nat → Owner) (m' : Machine)
    (own' : Nat → Owner) : Prop where
  inv : VmInv m' pds own'
  half : KernelHalf m' own' (stacksInUse m')
  step : KernelStep m own m' own'
  slots : m'.kstackBitmap = m.kstackBitmap

section Task

variable {m m' : Machine} {pds : Finset Nat} {own : Nat → Owner} {k : Kmalloc}

/-- The PCB of a dead task goes back to the pool. -/
theorem freePcb_inv {pcb : Nat} {own' : Nat → Owner} (h : VmInv m' pds own')
    (hk : KernelHalf m' own' (stacksInUse m')) (hstep : KernelStep m own m' own')
    (hpcb : own' pcb = .kernel .pcb) :
    (m'.freePage (frameAddr pcb)).kstackBitmap = m'.kstackBitmap ∧
      VmInv (m'.freePage (frameAddr pcb)) pds (Function.update own' pcb .free) ∧
      KernelHalf (m'.freePage (frameAddr pcb)) (Function.update own' pcb .free)
        (stacksInUse (m'.freePage (frameAddr pcb))) ∧
      KernelStep m own (m'.freePage (frameAddr pcb)) own' := by
  obtain ⟨hinv, hhalf⟩ := h.freePcb hk hpcb
  have hkstack : (m'.freePage (frameAddr pcb)).kstackBitmap = m'.kstackBitmap := rfl
  rw [stacksInUse_congr hkstack]
  exact ⟨hkstack, hinv, hhalf, hstep.boot, hstep.bootMem, hstep.high, hstep.reserved, hstep.pcb⟩

/-- The kernel stack and the PCB of a dead task go back to the pool. -/
theorem freeTask_inv (h : VmInv m pds own) (hk : KernelHalf m own (stacksInUse m)) {slot pcb : Nat}
    (hslot : slot < kernelStackSlots) (hbit : m.kstackBitmap slot = true)
    (hpcb : own pcb = .kernel .pcb) :
    ((vmmFreeKernelStack m (kernelStackTop slot)).freePage (frameAddr pcb)).kstackBitmap =
        Function.update m.kstackBitmap slot false ∧
    ∃ own', VmInv ((vmmFreeKernelStack m (kernelStackTop slot)).freePage (frameAddr pcb)) pds
        (Function.update own' pcb .free) ∧
      KernelHalf ((vmmFreeKernelStack m (kernelStackTop slot)).freePage (frameAddr pcb))
        (Function.update own' pcb .free)
        (stacksInUse ((vmmFreeKernelStack m (kernelStackTop slot)).freePage (frameAddr pcb))) ∧
      KernelStep m own ((vmmFreeKernelStack m (kernelStackTop slot)).freePage (frameAddr pcb))
        own' := by
  obtain ⟨hslots, own', hinv, hhalf, hstep⟩ := vmmFreeKernelStack_spec h hk hslot hbit
  obtain ⟨hsame, hfreed⟩ := freePcb_inv hinv hhalf hstep (hstep.pcb pcb hpcb)
  exact ⟨hsame.trans hslots, own', hfreed⟩

/-- A start of a task that is rolled back. -/
theorem rollback_inv {pcb slot : Nat} {own₂ : Nat → Owner} (h : VmInv m' pds own₂)
    (hk : KernelHalf m' own₂ (stacksInUse m')) (hstep : KernelStep m own m' own₂)
    (hslot : slot < kernelStackSlots) (hunused : m.kstackBitmap slot = false)
    (hused : m'.kstackBitmap = Function.update m.kstackBitmap slot true)
    (hfresh : own pcb ≠ .kernel .pcb) (hpcb : own₂ pcb = .kernel .pcb) :
    ∃ own', KernelKept m pds own
      ((vmmFreeKernelStack m' (kernelStackTop slot)).freePage (frameAddr pcb)) own' := by
  have hbit : m'.kstackBitmap slot = true := by
    rw [hused]
    exact Function.update_self _ _ _
  obtain ⟨hslots, own₃, hinv, hhalf, hstep'⟩ := freeTask_inv h hk hslot hbit hpcb
  generalize (vmmFreeKernelStack m' (kernelStackTop slot)).freePage (frameAddr pcb) = m₁
    at hslots hinv hhalf hstep' ⊢
  have hall := hstep.trans hstep'
  refine ⟨_, hinv, hhalf, ⟨hall.boot, hall.bootMem, hall.high, ?_, ?_⟩, ?_⟩
  · intro f hf
    rw [Function.update_of_ne]
    · exact hall.reserved f hf
    · rintro rfl
      have hreserved := hstep.reserved f hf
      rw [hpcb] at hreserved
      cases hreserved
  · intro f hf
    rw [Function.update_of_ne]
    · exact hall.pcb f hf
    · rintro rfl
      exact hfresh hf
  · rw [hslots, hused, Function.update_idem, Function.update_eq_self_iff]
    exact hunused.symm

/-- A stack without a PCB is given back. -/
theorem freeStack_inv {slot : Nat} {own₂ : Nat → Owner} (h : VmInv m' pds own₂)
    (hk : KernelHalf m' own₂ (stacksInUse m')) (hstep : KernelStep m own m' own₂)
    (hslot : slot < kernelStackSlots) (hunused : m.kstackBitmap slot = false)
    (hused : m'.kstackBitmap = Function.update m.kstackBitmap slot true) :
    ∃ own', KernelKept m pds own (vmmFreeKernelStack m' (kernelStackTop slot)) own' := by
  have hbit : m'.kstackBitmap slot = true := by
    rw [hused]
    exact Function.update_self _ _ _
  obtain ⟨hslots, own₃, hinv, hhalf, hstep'⟩ := vmmFreeKernelStack_spec h hk hslot hbit
  generalize vmmFreeKernelStack m' (kernelStackTop slot) = m₁ at hslots hinv hhalf hstep' ⊢
  refine ⟨own₃, hinv, hhalf, hstep.trans hstep', ?_⟩
  rw [hslots, hused, Function.update_idem, Function.update_eq_self_iff]
  exact hunused.symm

/-- The kernel stack and the PCB of a user task. -/
theorem taskCreate_inv (h : VmInv m pds own) (hk : KernelHalf m own (stacksInUse m))
    {pcb stackTop : Nat} (hcreate : taskCreate m = some (m', some (pcb, stackTop))) :
    ∃ own' slot, stackTop = kernelStackTop slot ∧ slot < kernelStackSlots ∧
      m.kstackBitmap slot = false ∧
      m'.kstackBitmap = Function.update m.kstackBitmap slot true ∧
      VmInv m' pds own' ∧ KernelHalf m' own' (stacksInUse m') ∧ KernelStep m own m' own' ∧
      own pcb ≠ .kernel .pcb ∧ own' pcb = .kernel .pcb := by
  unfold taskCreate at hcreate
  rcases vmmAllocKernelStack_spec h hk with
    ⟨m₁, own₁, slot, halloc, hslot, hunused, hused, hinv, hhalf, hstep⟩ | ⟨m₁, own₁, hfail, -⟩
  · rw [halloc] at hcreate
    rcases hinv.allocPcb hhalf with hnone | ⟨f, hfree, hmax, hne, hpage, hinv₂, hhalf₂, hstep₂⟩
    · simp only [hnone, if_pos] at hcreate
      cases hcreate
    · simp only [hpage, if_neg hne, frameOf_frameAddr hmax] at hcreate
      cases hcreate
      refine ⟨_, slot, rfl, hslot, hunused, hused, hinv₂, hhalf₂, hstep.trans hstep₂, ?_,
        Function.update_self _ _ _⟩
      intro hpcb
      rw [hstep.pcb _ hpcb] at hfree
      cases hfree
  · rw [hfail] at hcreate
    cases hcreate

/-- The first process. -/
theorem startInit_inv (h : VmInv m pds own) (hk : KernelHalf m own (stacksInUse m))
    {file : VfsFile} (hfit : SegmentsFit file) {pcb : Nat} {task : Process}
    (hinit : startInit m file k = some (m', pcb, task)) :
    ∃ own' slot dir vmas, task = ⟨⟨some dir, vmas⟩, kernelStackTop slot⟩ ∧
      TaskStarted m pds own m' own' pcb slot dir := by
  unfold startInit at hinit
  rcases h.vmmCreateAddressSpace with hnone | ⟨m₁, n, own₁, hsome, hn, hinv, hframe, hnew⟩
  · rw [hnone] at hinit
    cases hinit
  · rw [hsome] at hinit
    obtain ⟨-, own₂, hload⟩ := elfLoad_inv hinv (hk.frame h.boot hframe)
      (Finset.mem_insert_self n pds) hnew.empty hfit k
    rcases hres : elfLoad file n m₁ k with ⟨t, status, entry⟩
    rw [hres] at hload
    simp only [hres] at hinit
    have hkernel : KernelFrame m own t.machine own₂ := hframe.trans hload.kernel
    have hhalf := hk.frame h.boot hkernel
    rw [← stacksInUse_congr hkernel.kstack] at hhalf
    split_ifs at hinit with hfail hret
    rcases hcreate : taskCreate t.machine with _ | ⟨m₂, _ | ⟨pcb', top⟩⟩
    · rw [hcreate] at hinit
      cases hinit
    · rw [hcreate] at hinit
      cases hinit
    · rw [hcreate] at hinit
      obtain ⟨own₃, slot, rfl, hslot, hunused, hused, hinv₃, hhalf₃, hstep₃, hfresh, hpcb⟩ :=
        taskCreate_inv hload.inv hhalf hcreate
      cases hinit
      rw [hkernel.kstack] at hunused hused
      refine ⟨own₃, slot, n, _, rfl, hinv₃, hhalf₃,
        (hkernel.kernelStep h.boot hk).trans hstep₃, ?_, hpcb, hslot, hunused, hused, hn⟩
      exact fun hold => hfresh ((hkernel.owner _ _).mp hold)

/-- A mapped frame has room for another reference. -/
theorem refcount_lt (h : VmInv m pds own) (hcard : pds.card < 0xFFFF) {pd i j f : Nat}
    (hpd : pd ∈ pds) (hi : i < 768) (hj : j < 1024) (hsite : siteFrame m (pd, i, j) = some f) :
    m.pmm.refcounts f < 0xFFFF := by
  have hmem : (pd, i, j) ∈ userSites pds := mem_userSites.mpr ⟨hpd, hi, hj⟩
  rw [(h.counted f (h.page_of_frame hmem hsite)).1]
  refine lt_of_le_of_lt (refs_le_card pds (fun s : Site => s.1) ?_ ?_) hcard
  · rintro ⟨a, b, c⟩ hs -
    exact (mem_userSites.mp hs).1
  · rintro ⟨a, b, c⟩ hs ⟨a', b', c'⟩ hs' hsite' hsite'' heq
    cases heq
    obtain ⟨rfl, rfl⟩ := h.single a b c b' c' f hs hs' hsite' hsite''
    rfl

/-- The outcome of `taskForkMemory`. -/
inductive Forked (m : Machine) (pds : Finset Nat) (own : Nat → Owner) (m' : Machine) :
    Option (Nat × Process) → Prop
  | child {own' : Nat → Owner} {pcb slot dir : Nat} {vmas : List Vma}
      (h : TaskStarted m pds own m' own' pcb slot dir) :
      Forked m pds own m' (some (pcb, ⟨⟨some dir, vmas⟩, kernelStackTop slot⟩))
  | rolledBack {own' : Nat → Owner} (h : KernelKept m pds own m' own') : Forked m pds own m' none

theorem taskForkMemory_inv (h : VmInv m pds own) (hk : KernelHalf m own (stacksInUse m))
    {pd : Nat} (hpd : pd ∈ pds) (hcard : pds.card < 0xFFFF) {vmas : List Vma}
    {child : Option (Nat × Process)} (hfork : taskForkMemory m pd vmas k = some (m', child)) :
    Forked m pds own m' child := by
  unfold taskForkMemory at hfork
  rcases vmmAllocKernelStack_spec h hk with
    ⟨m₁, own₁, slot, halloc, hslot, hunused, hused, hinv, hhalf, hstep⟩ |
    ⟨m₁, own₁, hfail, hsame, hinv, hhalf, hstep⟩
  · rw [halloc] at hfork
    rcases hinv.allocPcb hhalf with hnone | ⟨f, hfree, hmax, hne, hpage, hinv₂, hhalf₂, hstep₂⟩
    · simp only [hnone, if_pos] at hfork
      cases hfork
      obtain ⟨own', hkept⟩ := freeStack_inv hinv hhalf hstep hslot hunused hused
      exact .rolledBack hkept
    · simp only [hpage, if_neg hne] at hfork
      have hfresh : own f ≠ .kernel .pcb := by
        intro hpcb
        rw [hstep.pcb _ hpcb] at hfree
        cases hfree
      generalize hm₂ : m₁.withPmm (m₁.pmm.take f) = m₂ at hfork hinv₂ hhalf₂ hstep₂
      have hused₂ : m₂.kstackBitmap = Function.update m.kstackBitmap slot true := by
        rw [← hm₂]
        exact hused
      have hstacks : stacksInUse m₂ = stacksInUse m₁ := by
        rw [← hm₂]
        exact stacksInUse_congr rfl
      rw [← hstacks] at hhalf₂
      generalize hown₂ : Function.update own₁ f (.kernel .pcb) = own₂ at hinv₂ hhalf₂ hstep₂
      have hpcb₂ : own₂ f = .kernel .pcb := by
        rw [← hown₂]
        exact Function.update_self _ _ _
      -- what later steps on the user half leave of this
      have hlater : ∀ {m₃ : Machine} {own₃ : Nat → Owner}, KernelFrame m₂ own₂ m₃ own₃ →
          KernelHalf m₃ own₃ (stacksInUse m₃) ∧ KernelStep m own m₃ own₃ ∧
            m₃.kstackBitmap = Function.update m.kstackBitmap slot true ∧
            own₃ f = .kernel .pcb := by
        intro m₃ own₃ hframe
        refine ⟨?_, (hstep.trans hstep₂).trans (hframe.kernelStep hinv₂.boot hhalf₂),
          hframe.kstack.trans hused₂, (hframe.owner f _).mp hpcb₂⟩
        rw [stacksInUse_congr hframe.kstack]
        exact hhalf₂.frame hinv₂.boot hframe
      rcases hinv₂.vmmCloneAddressSpace hpd
          fun i hi j hj g hsite => refcount_lt hinv₂ hcard hpd hi hj hsite with
        ⟨m₃, own₃, hclone, hinv₃, hframe⟩ | ⟨m₃, n, own₃, hclone, hn, hinv₃, hframe⟩
      · simp only [hclone] at hfork
        cases hfork
        obtain ⟨hhalf₃, hstep₃, hused₃, hpcb₃⟩ := hlater hframe
        obtain ⟨own', hkept⟩ :=
          rollback_inv hinv₃ hhalf₃ hstep₃ hslot hunused hused₃ hfresh hpcb₃
        exact .rolledBack hkept
      · simp only [hclone] at hfork
        split_ifs at hfork with hret
        · cases hfork
          obtain ⟨own₄, hinv₄, hframe₄⟩ :=
            hinv₃.vmmDestroyAddressSpace (Finset.mem_insert_self n pds)
          rw [Finset.erase_insert hn] at hinv₄
          obtain ⟨hhalf₄, hstep₄, hused₄, hpcb₄⟩ := hlater (hframe.trans hframe₄)
          obtain ⟨own', hkept⟩ :=
            rollback_inv hinv₄ hhalf₄ hstep₄ hslot hunused hused₄ hfresh hpcb₄
          exact .rolledBack hkept
        · obtain ⟨hhalf₃, hstep₃, hused₃, hpcb₃⟩ := hlater hframe
          rw [frameOf_frameAddr hmax] at hfork
          cases hfork
          exact .child ⟨hinv₃, hhalf₃, hstep₃, hfresh, hpcb₃, hslot, hunused, hused₃, hn⟩
  · rw [hfail] at hfork
    cases hfork
    exact .rolledBack ⟨hinv, hhalf, hstep, hsame⟩

end Task

end EnclaveOS
