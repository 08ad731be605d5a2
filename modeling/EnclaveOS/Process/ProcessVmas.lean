import EnclaveOS.Process.System

/-!
# ProcessVmas - what one step does to the areas of a process

The area lists depend on the machine only through success and failure.  A list
found after a step was there before, or is the result of one function of
`vma.c`, or belongs to a new image.
-/

namespace EnclaveOS

open PageWord

/-- The area `elf_load` adds for a segment. -/
def Elf32Phdr.vma (h : Elf32Phdr) : Vma := ⟨pageDown h.pVaddr, pageUp h.memEnd, h.vmaFlags⟩

/-- A loadable segment that passes the checks of `vma_add`. -/
def Elf32Phdr.Accepted (h : Elf32Phdr) : Prop :=
  h.pVaddr < kernelSpaceStart ∧ h.memEnd ≤ kernelSpaceStart

/-- The loadable segments among the program headers `l`, in order. -/
def loadHeaders (file : VfsFile) (header : Elf32Header) (l : List Nat) : List Elf32Phdr :=
  (l.filterMap (elfPhdr file header)).filter fun h => h.pType = ptLoad

/-- A file whose headers `elf_load` accepts. -/
structure ElfAccepted (file : VfsFile) (header : Elf32Header) : Prop where
  found : elfHeader file = some header
  entry : header.eEntry ≠ 0
  readable : ∀ i < header.ePhnum, (elfPhdr file header i).isSome
  accepted : ∀ h ∈ loadHeaders file header (List.range header.ePhnum), h.Accepted

/-- The area list of a loaded file. -/
def loadedVmas (segments : List Elf32Phdr) (vmas : List Vma) : List Vma :=
  segments.foldl (fun vmas h => vmaInsert h.vma vmas) vmas

section Load

variable (file : VfsFile) (pd : Nat)

theorem elfMapPage_vmas (flags : Word) (s : ElfState) (addr : Nat) :
    (elfMapPage pd flags s addr).1.vmaHead = s.vmaHead := by
  unfold elfMapPage
  dsimp only
  split_ifs
  · rfl
  · split <;> rfl

theorem elfMapPages_vmas (flags : Word) (pages : List Nat) (s : ElfState) :
    (elfMapPages pd flags pages s).1.vmaHead = s.vmaHead := by
  induction pages generalizing s with
  | nil => rfl
  | cons addr rest ih =>
    have hpage := elfMapPage_vmas pd flags s addr
    rw [elfMapPages]
    rcases hres : elfMapPage pd flags s addr with ⟨s', status⟩
    rw [hres] at hpage
    cases status
    · exact (ih s').trans hpage
    · exact hpage
    · exact hpage

theorem elfCopyLoop_vmas (rounds destAddr offset count : Nat) (s : ElfState) :
    (elfCopyLoop file pd rounds destAddr offset count s).1.vmaHead = s.vmaHead := by
  induction rounds generalizing destAddr offset count s with
  | zero => rfl
  | succ rounds ih =>
    unfold elfCopyLoop
    dsimp only
    split_ifs
    · rfl
    · rfl
    · rfl
    · rfl
    · exact ih _ _ _ _

/-- A segment that is loaded adds its area, when it is loadable. -/
theorem elfSegment_vmas {h : Elf32Phdr} {s s' : ElfState}
    (hok : elfSegment file pd h s = (s', .ok)) :
    if h.pType = ptLoad then h.Accepted ∧ s'.vmaHead = vmaInsert h.vma s.vmaHead
    else s'.vmaHead = s.vmaHead := by
  unfold elfSegment at hok
  by_cases hload : h.pType = ptLoad
  · rw [if_neg (not_not.mpr hload)] at hok
    rw [if_pos hload]
    -- the area is added before the pages are mapped and the bytes are copied
    have hprepare : (elfPrepare pd h s).2 = .ok →
        h.Accepted ∧ (elfPrepare pd h s).1.vmaHead = vmaInsert h.vma s.vmaHead := by
      intro hprep
      have hcases := vmaAdd_cases s.vmaHead h.pVaddr h.memEnd h.vmaFlags s.kmallocs
      unfold elfPrepare at hprep ⊢
      rcases hadd : vmaAdd s.vmaHead h.pVaddr h.memEnd h.vmaFlags s.kmallocs with ⟨vmas, ret, k⟩
      rw [hadd] at hcases hprep
      dsimp only at hcases hprep ⊢
      split_ifs at hprep ⊢ with hret
      · rcases hcases with ⟨-, hneg⟩ | ⟨hstart, hend, hvmas, -⟩
        · exact absurd hneg (by omega)
        · exact ⟨⟨hstart, hend⟩, (elfMapPages_vmas pd _ _ _).trans hvmas⟩
    rcases hprep : elfPrepare pd h s with ⟨t, status⟩
    rw [hprep] at hok hprepare
    cases status
    · obtain ⟨hacc, hvmas⟩ := hprepare rfl
      have hcopy := elfCopyLoop_vmas file pd h.copySize h.pVaddr h.pOffset h.copySize t
      dsimp only at hok
      rw [elfCopy] at hok
      rw [hok] at hcopy
      exact ⟨hacc, hcopy.trans hvmas⟩
    · cases hok
    · cases hok
  · rw [if_pos hload] at hok
    rw [if_neg hload]
    cases hok
    rfl

theorem elfSegments_vmas {header : Elf32Header} {l : List Nat} {s s' : ElfState}
    (hok : elfSegments file pd header l s = (s', .ok)) :
    (∀ i ∈ l, (elfPhdr file header i).isSome) ∧
      (∀ h ∈ loadHeaders file header l, h.Accepted) ∧
      s'.vmaHead = loadedVmas (loadHeaders file header l) s.vmaHead := by
  induction l generalizing s with
  | nil =>
    cases hok
    exact ⟨by simp, by simp [loadHeaders], rfl⟩
  | cons i rest ih =>
    rw [elfSegments] at hok
    cases hphdr : elfPhdr file header i with
    | none =>
      rw [hphdr] at hok
      cases hok
    | some h =>
      rw [hphdr] at hok
      dsimp only at hok
      rcases hseg : elfSegment file pd h s with ⟨t, status⟩
      rw [hseg] at hok
      cases status with
      | ok =>
        obtain ⟨hread, hacc, hvmas⟩ := ih hok
        have hsegment := elfSegment_vmas file pd hseg
        have hsome : (elfPhdr file header i).isSome := by rw [hphdr]; rfl
        refine ⟨List.forall_mem_cons.mpr ⟨hsome, hread⟩, ?_⟩
        split_ifs at hsegment with hload
        · have hcons : loadHeaders file header (i :: rest) =
              h :: loadHeaders file header rest := by
            simp [loadHeaders, hphdr, hload]
          rw [hcons]
          refine ⟨List.forall_mem_cons.mpr ⟨hsegment.1, hacc⟩, ?_⟩
          rw [hvmas, hsegment.2]
          rfl
        · have hcons : loadHeaders file header (i :: rest) = loadHeaders file header rest := by
            simp [loadHeaders, hphdr, hload]
          rw [hcons, hvmas, hsegment]
          exact ⟨hacc, rfl⟩
      | failed => cases hok
      | halted => cases hok

/-- A load with an entry point accepts the file and adds the areas of its segments. -/
theorem elfLoad_vmas {m : Machine} {k : Kmalloc} (hentry : (elfLoad file pd m k).2.2 ≠ 0) :
    ∃ header, ElfAccepted file header ∧ (elfLoad file pd m k).1.vmaHead =
      loadedVmas (loadHeaders file header (List.range header.ePhnum)) [] := by
  unfold elfLoad at hentry ⊢
  cases hheader : elfHeader file with
  | none =>
    rw [hheader] at hentry
    exact absurd rfl hentry
  | some header =>
    rw [hheader] at hentry
    dsimp only at hentry ⊢
    rcases hseg : elfSegments file pd header (List.range header.ePhnum) (.start m k) with
      ⟨s, status⟩
    rw [hseg] at hentry
    cases status with
    | ok =>
      obtain ⟨hread, hacc, hvmas⟩ := elfSegments_vmas file pd hseg
      exact ⟨header, ⟨hheader, hentry, fun i hi => hread i (List.mem_range.mpr hi), hacc⟩, hvmas⟩
    | failed => exact absurd rfl hentry
    | halted => exact absurd rfl hentry

end Load

/-- An area list that can be found after the operation `op` in the state
`s`. -/
inductive Edited (s : System) : SysOp → List Vma → Prop
  | kept {op : SysOp} {p : Nat} {task : Process} (hp : s.proc p = some task) :
      Edited s op task.vmaHead
  | dropped {op : SysOp} : Edited s op []
  | mmap {p addr len : Nat} {prot flags : Word} {k : Kmalloc} {task : Process}
      (hp : s.proc p = some task) :
      Edited s (.mmap p addr len prot flags k) (sysMmap task.vmaHead addr len prot flags k).1
  | munmap {p addr len : Nat} {k : Kmalloc} {task : Process} (hp : s.proc p = some task)
      (hlen : len ≠ 0) :
      Edited s (.munmap p addr len k)
        (vmaUnmapRange (pageDown addr) (rangeEnd addr len) task.vmaHead k).1
  | mprotect {p addr len : Nat} {prot : Word} {k : Kmalloc} {task : Process}
      (hp : s.proc p = some task) (hlen : len ≠ 0)
      (hprot : ¬(hasFlag prot protWrite ∧ hasFlag prot protExec))
      (hend : rangeEnd addr len ≤ kernelSpaceStart) :
      Edited s (.mprotect p addr len prot k)
        (vmaProtectRange (pageDown addr) (rangeEnd addr len) (protVmaFlags prot) task.vmaHead k).1
  | brk {p newBrk : Nat} {k : Kmalloc} {task : Process} (hp : s.proc p = some task) :
      Edited s (.brk p newBrk k) (sysBrk s.machine.pmm task.vmaHead newBrk k).1
  | fork {p : Nat} {k : Kmalloc} {task : Process} (hp : s.proc p = some task) :
      Edited s (.fork p k) (vmaClone task.vmaHead k).1
  | startInit {file : VfsFile} {header : Elf32Header} {k k' : Kmalloc}
      (hfile : ElfAccepted file header) :
      Edited s (.startInit file k)
        (addStackAndHeap (loadedVmas (loadHeaders file header (List.range header.ePhnum)) []) k').1
  | exec {p : Nat} {file : VfsFile} {header : Elf32Header} {k k' : Kmalloc}
      (hfile : ElfAccepted file header) :
      Edited s (.exec p (.ok file) k)
        (addStackAndHeap (loadedVmas (loadHeaders file header (List.range header.ePhnum)) []) k').1

namespace System

variable {s s' : System} {p q : Nat} {task task' : Process} {pd : Nat}

/-- The area lists of the other processes stay. -/
theorem edited_setProc {op : SysOp} {m : Machine} {new : Option Process}
    (hnew : ∀ t, new = some t → Edited s op t.vmaHead)
    (hq : ((s.setMachine m).setProc p new).proc q = some task) : Edited s op task.vmaHead := by
  simp only [setProc, setMachine, Function.update_apply] at hq
  split_ifs at hq with heq
  · exact hnew task hq
  · exact .kept hq

theorem releaseMemory_vmas (m : Machine) (task : Process) :
    (releaseMemory m task).2.vmaHead = [] := by
  unfold releaseMemory
  split
  · rfl
  · split_ifs <;> rfl

theorem edited_exitTask {op : SysOp} {m : Machine}
    (hq : ((s.setMachine m).exitTask p task).proc q = some task') : Edited s op task'.vmaHead := by
  have hnew : ∀ t, some (releaseMemory m task).2 = some t → Edited s op t.vmaHead := ?_
  · exact edited_setProc (p := p) (m := (releaseMemory m task).1) hnew hq
  rintro t ⟨⟩
  rw [releaseMemory_vmas]
  exact .dropped

/-- A system call that edits the areas of one process. -/
theorem edited_setVmas {op : SysOp} {m : Machine} {vmas : List Vma} (hnew : Edited s op vmas)
    (hq : ((s.setMachine m).setVmas p task vmas).proc q = some task') :
    Edited s op task'.vmaHead := by
  refine edited_setProc (p := p) (m := m) ?_ hq
  rintro t ⟨⟩
  exact hnew

theorem edited_access {op : SysOp} {addr : Nat} {a : Access} {us : Bool}
    (h : s.Accessed p task pd addr us a s') (hq : s'.proc q = some task') :
    Edited s op task'.vmaHead := by
  cases h with
  | load => exact .kept hq
  | store => exact .kept hq
  | resumed => exact .kept hq
  | killed => exact edited_exitTask hq

end System

section Calls

variable {m m' : Machine} {pd newPd : Nat} {vmas vmas' : List Vma} {k k' : Kmalloc}

/-- The heap area is the first one at `USER_HEAP_START`. -/
theorem heapVmaFrom_some {base pos : Nat} {heap : Vma}
    (h : heapVmaFrom base vmas = some (pos, heap)) :
    ∃ i, pos = base + i ∧ vmas[i]? = some heap ∧ heap.start = userHeapStart := by
  induction vmas generalizing base with
  | nil => cases h
  | cons curr rest ih =>
    rw [heapVmaFrom] at h
    split_ifs at h with hstart
    · cases h
      exact ⟨0, rfl, rfl, hstart⟩
    · obtain ⟨i, rfl, hi, hheap⟩ := ih h
      exact ⟨i + 1, by omega, by simpa using hi, hheap⟩

theorem heapVma_some {pos : Nat} {heap : Vma} (h : heapVma vmas = some (pos, heap)) :
    vmas[pos]? = some heap ∧ heap.start = userHeapStart := by
  obtain ⟨i, rfl, hi, hheap⟩ := heapVmaFrom_some h
  rw [Nat.zero_add]
  exact ⟨hi, hheap⟩

theorem heapVma_none (h : heapVma vmas = none) : ∀ v ∈ vmas, v.start ≠ userHeapStart := by
  unfold heapVma at h
  generalize 0 = base at h
  induction vmas generalizing base with
  | nil => rintro v ⟨⟩
  | cons curr rest ih =>
    rw [heapVmaFrom] at h
    split_ifs at h with hstart
    exact List.forall_mem_cons.mpr ⟨hstart, ih _ h⟩

/-- What `sys_brk` does to the areas. -/
theorem sysBrk_vmas (p : Pmm) (vmas : List Vma) (newBrk : Nat) (k : Kmalloc) :
    (sysBrk p vmas newBrk k).1 = vmas ∨
    newBrk ≠ 0 ∧ newBrk ≤ userHeapStart + userHeapMaxSize ∧
      (heapVma vmas = none ∧ (sysBrk p vmas newBrk k).1 =
          (vmaAdd vmas userHeapStart newBrk (vmaRead ||| vmaWrite) k).1 ∨
        ∃ pos heap, heapVma vmas = some (pos, heap) ∧
          (sysBrk p vmas newBrk k).1 = vmas.set pos { heap with «end» := newBrk } ∧
          (newBrk < heap.end ∨
            heap.end < newBrk ∧ vmaIntersects vmas heap.end newBrk (some pos) = false)) := by
  unfold sysBrk
  by_cases hzero : newBrk = 0
  · rw [if_pos hzero]
    left
    split <;> rfl
  · rw [if_neg hzero]
    by_cases hlimit : userHeapStart + userHeapMaxSize < newBrk
    · rw [if_pos hlimit]
      exact Or.inl rfl
    · rw [if_neg hlimit]
      rcases hheap : heapVma vmas with _ | ⟨pos, heap⟩
      · refine Or.inr ⟨hzero, Nat.not_lt.mp hlimit, Or.inl ⟨rfl, ?_⟩⟩
        dsimp only
        split_ifs <;> rfl
      · dsimp only
        split_ifs with hgrow hover hmemory hshrink
        · exact Or.inl rfl
        · exact Or.inl rfl
        · exact Or.inr ⟨hzero, Nat.not_lt.mp hlimit,
            Or.inr ⟨pos, heap, rfl, rfl, Or.inr ⟨hgrow, Bool.not_eq_true _ ▸ hover⟩⟩⟩
        · exact Or.inr ⟨hzero, Nat.not_lt.mp hlimit,
            Or.inr ⟨pos, heap, rfl, rfl, Or.inl hshrink⟩⟩
        · exact Or.inl rfl

/-- The arguments `sys_mmap` does not reject by themselves. -/
structure MmapAccepted (len : Nat) (prot flags : Word) : Prop where
  nonempty : len ≠ 0
  fits : len ≤ userMmapMaxSize
  prot : ¬(hasFlag prot protWrite ∧ hasFlag prot protExec)
  anonymous : hasFlag flags mapAnonymous = true
  isPrivate : hasFlag flags mapPrivate = true

/-- What `sys_mmap` does to the areas. -/
theorem sysMmap_vmas (vmas : List Vma) (addr len : Nat) (prot flags : Word) (k : Kmalloc) :
    (sysMmap vmas addr len prot flags k).1 = vmas ∨
    MmapAccepted len prot flags ∧
      ∃ a, mmapAddr vmas addr (pageUp len) = .ok a ∧ (sysMmap vmas addr len prot flags k).1 =
        (vmaAdd vmas a (wrap32 (a + pageUp len)) (protVmaFlags prot) k).1 := by
  unfold sysMmap
  split_ifs with hlen hprot hflags
  · exact Or.inl rfl
  · exact Or.inl rfl
  · exact Or.inl rfl
  · rcases haddr : mmapAddr vmas addr (pageUp len) with e | a
    · exact Or.inl rfl
    · push Not at hlen
      simp only [Bool.not_eq_true', not_or, Bool.not_eq_false] at hflags
      refine Or.inr ⟨⟨hlen.1, hlen.2, hprot, hflags.1, hflags.2⟩, a, rfl, ?_⟩
      dsimp only
      split_ifs <;> rfl

theorem sysMunmap_vmas (addr len : Nat) :
    (sysMunmap m pd vmas addr len k).2.1 =
      if len = 0 then vmas
      else (vmaUnmapRange (pageDown addr) (rangeEnd addr len) vmas k).1 := by
  unfold sysMunmap
  split_ifs
  · rfl
  · dsimp only
    split_ifs <;> rfl

theorem sysMprotect_vmas (addr len : Nat) (prot : Word) :
    (sysMprotect m pd vmas addr len prot k).2.1 = vmas ∨
      len ≠ 0 ∧ ¬(hasFlag prot protWrite ∧ hasFlag prot protExec) ∧
      rangeEnd addr len ≤ kernelSpaceStart ∧
      (sysMprotect m pd vmas addr len prot k).2.1 =
        (vmaProtectRange (pageDown addr) (rangeEnd addr len) (protVmaFlags prot) vmas k).1 := by
  unfold sysMprotect
  split_ifs with hlen hprot hbounds hcover
  · exact Or.inl rfl
  · exact Or.inl rfl
  · exact Or.inl rfl
  · exact Or.inl rfl
  · refine Or.inr ⟨hlen, hprot, ?_, ?_⟩
    · push Not at hbounds
      exact hbounds.2
    · dsimp only
      split_ifs <;> rfl

theorem sysExecMemory_vmas {file : Except Int VfsFile} {ret : Int}
    (h : sysExecMemory m pd vmas file k = some (m', newPd, vmas', ret, k')) :
    vmas' = vmas ∨ ∃ f header k₀, file = .ok f ∧ ElfAccepted f header ∧ vmas' =
      (addStackAndHeap (loadedVmas (loadHeaders f header (List.range header.ePhnum)) []) k₀).1 := by
  cases file with
  | error e =>
    cases h
    exact Or.inl rfl
  | ok f =>
    unfold sysExecMemory at h
    dsimp only at h
    rcases hcreate : vmmCreateAddressSpace m with ⟨m₁, dir⟩
    rw [hcreate] at h
    cases dir with
    | none =>
      cases h
      exact Or.inl rfl
    | some dir =>
      have hvmas := elfLoad_vmas f dir (m := m₁) (k := k)
      rcases hload : elfLoad f dir m₁ k with ⟨t, status, entry⟩
      rw [hload] at hvmas
      simp only [hload] at h
      split_ifs at h with hhalt hentry hret hret
      · cases h
        exact Or.inl rfl
      all_goals
        obtain ⟨header, hfile, hlist⟩ := hvmas hentry
        right
        refine ⟨f, header, t.kmallocs, rfl, hfile, ?_⟩
        rw [← hlist]
        cases h
        rfl

theorem startInit_vmas {file : VfsFile} {pcb : Nat} {task : Process}
    (h : startInit m file k = some (m', pcb, task)) :
    ∃ header k₀, ElfAccepted file header ∧ task.vmaHead =
      (addStackAndHeap (loadedVmas (loadHeaders file header (List.range header.ePhnum)) [])
        k₀).1 := by
  unfold startInit at h
  rcases hcreate : vmmCreateAddressSpace m with ⟨m₁, dir⟩
  rw [hcreate] at h
  cases dir with
  | none => cases h
  | some dir =>
    have hvmas := elfLoad_vmas file dir (m := m₁) (k := k)
    rcases hload : elfLoad file dir m₁ k with ⟨t, status, entry⟩
    rw [hload] at hvmas
    simp only [hload] at h
    split_ifs at h with hfail hret
    obtain ⟨header, hfile, hlist⟩ := hvmas fun hzero => hfail (Or.inr hzero)
    refine ⟨header, t.kmallocs, hfile, ?_⟩
    rw [← hlist]
    rcases hcreate : taskCreate t.machine with _ | ⟨m₂, _ | ⟨pcb', top⟩⟩
    · rw [hcreate] at h
      cases h
    · rw [hcreate] at h
      cases h
    · rw [hcreate] at h
      cases h
      rfl

theorem taskForkMemory_vmas {pcb : Nat} {child : Process}
    (h : taskForkMemory m pd vmas k = some (m', some (pcb, child))) :
    child.vmaHead = (vmaClone vmas k).1 := by
  unfold taskForkMemory at h
  rcases hstack : vmmAllocKernelStack m with ⟨m₁, top⟩ | m₁ | _
  · rw [hstack] at h
    dsimp only at h
    by_cases hpcb : m₁.allocPage.2 = 0#32
    · rw [if_pos hpcb] at h
      cases h
    · rw [if_neg hpcb] at h
      rcases hclone : vmmCloneAddressSpace m₁.allocPage.1 pd with ⟨m₂, _ | dir⟩
      · rw [hclone] at h
        cases h
      · rw [hclone] at h
        dsimp only at h
        by_cases hret : (vmaClone vmas k).2.1 < 0
        · rw [if_pos hret] at h
          cases h
        · rw [if_neg hret] at h
          cases h
          rfl
  · rw [hstack] at h
    cases h
  · rw [hstack] at h
    cases h

end Calls

/-- Where the area lists after a step come from. -/
theorem SysOp.step_edited {s s' : System} {op : SysOp} {q : Nat} {task' : Process}
    (h : op.step s = some s') (hq : s'.proc q = some task') : Edited s op task'.vmaHead := by
  cases SysOp.stepped h with
  | startInit hinit =>
    obtain ⟨header, k₀, hfile, hvmas⟩ := startInit_vmas hinit
    refine System.edited_setProc ?_ hq
    rintro t ⟨⟩
    rw [hvmas]
    exact .startInit hfile
  | access hrun haccess => exact System.edited_access haccess hq
  | forkFailed => exact .kept hq
  | forked hrun hfork =>
    refine System.edited_setProc ?_ hq
    rintro t ⟨⟩
    rw [taskForkMemory_vmas hfork]
    exact .fork (System.running_eq_some.mp hrun).1
  | mmap hrun =>
    exact System.edited_setVmas (m := s.machine) (.mmap (System.running_eq_some.mp hrun).1) hq
  | munmap hrun =>
    have hp := (System.running_eq_some.mp hrun).1
    refine System.edited_setVmas ?_ hq
    rw [sysMunmap_vmas]
    split_ifs with hlen
    · exact .kept hp
    · exact .munmap hp hlen
  | @mprotect _ _ addr len _ prot _ hrun =>
    have hp := (System.running_eq_some.mp hrun).1
    refine System.edited_setVmas ?_ hq
    rcases sysMprotect_vmas addr len prot with hsame | ⟨hlen, hprot, hend, hvmas⟩
    · rw [hsame]
      exact .kept hp
    · rw [hvmas]
      exact .mprotect hp hlen hprot hend
  | brk hrun =>
    exact System.edited_setVmas (m := s.machine) (.brk (System.running_eq_some.mp hrun).1) hq
  | exec hrun hexec =>
    refine System.edited_setProc ?_ hq
    rintro t ⟨⟩
    dsimp only
    rcases sysExecMemory_vmas hexec with hsame | ⟨f, header, k₀, rfl, hfile, hvmas⟩
    · rw [hsame]
      exact .kept (System.running_eq_some.mp hrun).1
    · rw [hvmas]
      exact .exec hfile
  | exit => exact System.edited_exitTask (m := s.machine) hq
  | reap => exact System.edited_setProc (fun t ht => by cases ht) hq

end EnclaveOS
