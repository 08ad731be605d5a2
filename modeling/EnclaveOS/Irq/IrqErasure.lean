import EnclaveOS.Irq.IrqOps

/-!
# IrqErasure - what the sections compute

Without the interrupt flag and the trace, the operations are those of the heap, of the page
allocator and of the file system.
-/

namespace EnclaveOS

open PageWord Irq

theorem kmallocIrq_erases (size : Nat) :
    Erases (kmallocIrq size) fun s => some (kmalloc s size) := by
  intro on s
  unfold kmallocIrq requestOf kmalloc
  split_ifs with hsize
  · simp
  · dsimp only
    split_ifs with hblock
    · simp
    · cases hfind : findFree s.tree (blockFor (size + blockHeaderSize) maxOrder 4096 0).2
          maxOrder 1 with
      | none => simp [hfind]
      | some node =>
        have hheap : kernelHeapVirt ≠ 0 := by decide
        simp [hfind, takeNode, hheap]

theorem kfreeIrq_erases (ptr : Nat) :
    Erases (kfreeIrq ptr) fun s => (kfree s ptr).map fun s => (s, ()) := by
  intro on s
  unfold kfreeIrq kfree
  simp only [bind_run, get_run, Option.bind_some]
  split_ifs
  · simp
  · simp
  · simp
  · generalize wrap32 (ptr + (4294967296 - blockHeaderSize)) = virtAddr
    unfold nodeOfHeader
    cases hlevel : levelOf (s.mem virtAddr) 33 4096 0 with
    | none => simp [hlevel]
    | some level =>
      simp only [hlevel, Option.bind_eq_bind, Option.bind_some]
      split_ifs
      · simp
      · simp [HeapState.store]

theorem pmmAllocPageIrq_erases : Erases pmmAllocPageIrq fun p => some (pmmAllocPage p) := by
  intro on p
  unfold pmmAllocPageIrq pmmAllocPage
  cases hscan : scanBitmapWords p (List.range ((p.maxPage + 31) / 32)) <;> simp [hscan]

theorem pmmFreePage_pageOf (p : Pmm) (physAddr : Word) : pmmFreePage p physAddr =
    match pageOf p physAddr with
    | none => p
    | some f => if !p.bitmap f then p else p.release f := by
  unfold pmmFreePage pageOf
  dsimp only
  split_ifs <;> simp_all
  omega

theorem pmmFreePageIrq_erases (physAddr : Word) :
    Erases (pmmFreePageIrq physAddr) fun p => some (pmmFreePage p physAddr, ()) := by
  intro on p
  dsimp only
  rw [pmmFreePage_pageOf]
  simp only [pmmFreePageIrq, bind_run, get_run, Option.bind_some]
  cases hpage : pageOf p physAddr with
  | none => simp
  | some f => cases hbit : p.bitmap f <;> simp [hbit]

theorem pmmIncRef_pageOf (p : Pmm) (physAddr : Word) : pmmIncRef p physAddr =
    match pageOf p physAddr with
    | none => p
    | some f => if p.refcounts f < 0xFFFF then p.setRef f (p.refcounts f + 1) else p := by
  unfold pmmIncRef pageOf
  dsimp only
  split_ifs <;> simp_all
  omega

theorem pmmIncRefIrq_erases (physAddr : Word) :
    Erases (pmmIncRefIrq physAddr) fun p => some (pmmIncRef p physAddr, ()) := by
  intro on p
  dsimp only
  rw [pmmIncRef_pageOf]
  simp only [pmmIncRefIrq, bind_run, get_run, Option.bind_some]
  cases hpage : pageOf p physAddr with
  | none => simp
  | some f => by_cases hcount : p.refcounts f < 0xFFFF <;> simp [hcount]

theorem pmmDecRef_pageOf (p : Pmm) (physAddr : Word) : pmmDecRef p physAddr =
    match pageOf p physAddr with
    | none => p
    | some f =>
      if 0 < p.refcounts f then
        if (p.setRef f (p.refcounts f - 1)).refcounts f = 0 then
          pmmFreePage (p.setRef f (p.refcounts f - 1)) physAddr
        else p.setRef f (p.refcounts f - 1)
      else p := by
  unfold pmmDecRef pageOf
  dsimp only
  split_ifs <;> simp_all
  all_goals omega

theorem pmmDecRefIrq_erases (physAddr : Word) :
    Erases (pmmDecRefIrq physAddr) fun p => some (pmmDecRef p physAddr, ()) := by
  intro on p
  dsimp only
  rw [pmmDecRef_pageOf]
  simp only [pmmDecRefIrq, bind_run, get_run, Option.bind_some]
  cases hpage : pageOf p physAddr with
  | none => simp
  | some f =>
    by_cases hcount : 0 < p.refcounts f
    · by_cases hlast : (p.setRef f (p.refcounts f - 1)).refcounts f = 0
      · have hfree := pmmFreePageIrq_erases physAddr false (p.setRef f (p.refcounts f - 1))
        obtain ⟨r, hr, hstate⟩ := Option.map_eq_some_iff.mp hfree
        simp only [Prod.mk.injEq] at hstate
        simp [hcount, hlast, hr, hstate.1]
      · have hmore : p.refcounts f - 1 ≠ 0 := by simpa using hlast
        simp [hcount, hmore]
    · simp [hcount]

@[simp]
theorem VfsState.freeData_none (s : VfsState) : s.freeData none = s := by
  simp [VfsState.freeData]

theorem closeCallbackIrq_erases (node : VfsNode) :
    Erases (closeCallbackIrq node) fun s => some (s.closeCallback node) := by
  intro on s
  unfold closeCallbackIrq VfsState.closeCallback
  cases hdriver : node.driver with
  | tmpfs =>
    cases hunlinked : node.isUnlinked with
    | false => simp
    | true =>
      cases hdata : node.privateData with
      | none =>
        obtain ⟨_, _, _, _, _, _⟩ := node
        simp_all
      | some p =>
        by_cases hbuffer : ((s.fileData p).bind TmpfsFileData.data).isSome
        · simp [hbuffer, kfreeObject]
        · simp [hbuffer, kfreeObject]
  | console =>
    by_cases hcount : 0 < s.consoleOpenCount <;>
      simp [devfsConsoleCloseIrq, VfsState.devfsConsoleClose, hcount]
  | other => simp

theorem openCallbackIrq_erases (n : Ptr) (node : VfsNode) (flags : Nat) :
    Erases (openCallbackIrq n node flags) fun s => some (s.openCallback n node flags) := by
  intro on s
  unfold openCallbackIrq VfsState.openCallback
  cases node.driver with
  | tmpfs => simp
  | console =>
    by_cases hcount : 0 < s.consoleOpenCount <;>
      simp [devfsConsoleOpenIrq, VfsState.devfsConsoleOpen, hcount]
  | other => simp

/-- The callback does not look at the entry of its node. -/
theorem VfsState.closeCallback_setNode (s : VfsState) (n : Ptr) (entry : Option VfsNode)
    (node : VfsNode) :
    (s.setNode n entry).closeCallback node =
      ((s.closeCallback node).1.setNode n entry, (s.closeCallback node).2) := by
  unfold VfsState.closeCallback
  cases node.driver with
  | tmpfs => cases node.isUnlinked <;> rfl
  | console =>
    unfold VfsState.devfsConsoleClose
    by_cases hcount : 0 < s.consoleOpenCount <;> simp [hcount, VfsState.setNode]
  | other => rfl

theorem freePrivateData_erases (node : VfsNode) :
    Erases (freePrivateData node) fun s => some (s.freeData node.privateData, ()) := by
  intro on s
  unfold freePrivateData
  cases node.privateData <;> simp [kfreeObject]

theorem kfreeObject_erases (f : VfsState → VfsState) :
    Erases (kfreeObject f) fun s => some (f s, ()) := by
  intro on s
  simp [kfreeObject]

theorem dropNode_erases (n : Ptr) (node : VfsNode) :
    Erases (dropNode n node) fun s =>
      some (((s.closeCallback node).1.freeData (s.closeCallback node).2.privateData).setNode n none,
        ()) :=
  (closeCallbackIrq_erases node).bind fun node' =>
    (freePrivateData_erases node').bind fun _ => kfreeObject_erases fun s => s.setNode n none

theorem VfsState.setNode_freeData_setNode (s : VfsState) (n : Ptr) (entry entry' : Option VfsNode)
    (data : Option Ptr) :
    ((s.setNode n entry).freeData data).setNode n entry' = (s.freeData data).setNode n entry' := by
  simp [VfsState.setNode, VfsState.freeData]

theorem putNodeIrq_erases (n : Ptr) :
    Erases (putNodeIrq n) fun s => (s.putNode n).map fun s => (s, ()) := by
  intro on s
  unfold putNodeIrq VfsState.putNode VfsState.decNode
  cases hnode : s.nodes n with
  | none => simp [hnode]
  | some node =>
    by_cases hgone : pred32 node.refCount = 0 ∧ node.isUnlinked = true
    · obtain ⟨on', moments, hdrop⟩ :=
        (dropNode_erases n { node with refCount := pred32 node.refCount }).run_eq on
          (s := s.setNode n (some { node with refCount := pred32 node.refCount })) rfl
      simp only [VfsState.closeCallback_setNode, VfsState.setNode_freeData_setNode] at hdrop
      rw [hgone.1, hgone.2] at hdrop
      simp [hnode, hgone, hdrop]
    · simp [hnode, hgone]

/-- The callback does not look at the open files. -/
theorem VfsState.closeCallback_setFile (s : VfsState) (of : Ptr) (file : Option OpenFile)
    (node : VfsNode) :
    (s.setFile of file).closeCallback node =
      ((s.closeCallback node).1.setFile of file, (s.closeCallback node).2) := by
  unfold VfsState.closeCallback
  cases node.driver with
  | tmpfs => cases node.isUnlinked <;> rfl
  | console =>
    unfold VfsState.devfsConsoleClose
    by_cases hcount : 0 < s.consoleOpenCount <;> simp [hcount, VfsState.setFile]
  | other => rfl

@[simp]
theorem VfsState.setFile_setFile (s : VfsState) (of : Ptr) (file file' : Option OpenFile) :
    (s.setFile of file).setFile of file' = s.setFile of file' := by
  simp [VfsState.setFile]

theorem VfsState.putNode_setFile (s : VfsState) (of : Ptr) (file : Option OpenFile) (n : Ptr) :
    (s.setFile of file).putNode n = (s.putNode n).map fun s => s.setFile of file := by
  unfold VfsState.putNode
  cases hnode : s.nodes n with
  | none => simp [hnode]
  | some node =>
    simp only [VfsState.setFile_nodes, hnode, Option.bind_eq_bind, Option.bind_some]
    split_ifs with hgone
    · have hcallback := s.closeCallback_setFile of file
        { node with refCount := pred32 node.refCount }
      rw [hcallback]
      rfl
    · rfl

theorem vfsCloseFdIrq_erases (task : TaskId) (fd : Int) :
    Erases (vfsCloseFdIrq task fd) fun s => vfsCloseFd s task fd := by
  intro on s
  unfold vfsCloseFdIrq vfsCloseFd
  cases hindex : fdIndex fd with
  | none => simp
  | some i =>
    cases hslot : s.fdTable (task, i) with
    | none => simp [hslot]
    | some of =>
      cases hfile : s.files of with
      | none => simp [hslot, hfile]
      | some file =>
        by_cases hlast : pred32 file.refCount = 0
        · -- the count of the open file is written before the node is put
          have hput := (s.setSlot (task, i) none).putNode_setFile of
            (some { file with refCount := pred32 file.refCount }) file.node
          cases hnode : (s.setSlot (task, i) none).putNode file.node with
          | none =>
            rw [hnode, Option.map_none] at hput
            have hrun := (putNodeIrq_erases file.node).run_eq_none false
              (Option.map_eq_none_iff.mpr hput)
            rw [hlast] at hrun
            simp [hslot, hfile, hlast, hnode, hrun]
          | some s' =>
            rw [hnode, Option.map_some] at hput
            obtain ⟨on', moments, hrun⟩ := (putNodeIrq_erases file.node).run_eq false
              (Option.map_eq_some_iff.mpr ⟨_, hput, rfl⟩)
            rw [hlast] at hrun
            simp [hslot, hfile, hlast, hnode, hrun, kfreeObject]
        · simp [hslot, hfile, hlast]

theorem openNodeIrq_erases (task : TaskId) (n : Ptr) (flags : Nat) (alloc : Option Ptr) :
    Erases (openNodeIrq task n flags alloc) fun s => openNode s task n flags alloc := by
  intro on s
  unfold openNodeIrq openNode
  cases hnode : s.nodes n with
  | none => simp [hnode]
  | some node =>
    by_cases hsystem : node.flags &&& fsSystem ≠ 0 ∧ node.flags &&& fsDirectory = 0
    · simp [hnode, hsystem]
    · cases hcallback : s.openCallback n node flags with
      | mk s₁ result =>
        obtain ⟨on', moments, hopen⟩ := (openCallbackIrq_erases n node flags).run_eq on
          (congrArg some hcallback)
        by_cases hresult : result = 0
        · cases hinc : s₁.incNode n with
          | none => simp [hnode, hsystem, hcallback, hopen, hresult, hinc, countRaw]
          | some s₂ =>
            cases alloc with
            | none =>
              cases hdec : s₂.decNode n <;>
                simp [hnode, hsystem, hcallback, hopen, hresult, hinc, countRaw, openFinishIrq,
                  kmallocObject, hdec]
            | some of =>
              cases hfree : s₂.freeFd task with
              | some i =>
                simp [hnode, hsystem, hcallback, hopen, hresult, hinc, countRaw, openFinishIrq,
                  kmallocObject, hfree]
              | none =>
                cases hdec : s₂.decNode n <;>
                  simp [hnode, hsystem, hcallback, hopen, hresult, hinc, countRaw, openFinishIrq,
                    kmallocObject, kfreeObject, hfree, hdec]
        · simp [hnode, hsystem, hcallback, hopen, hresult]

/-- What the lookup of the file system is told. -/
def OpenTarget.toLookup : OpenTarget → Lookup
  | failed errno => .failed errno
  | found n => .found n
  | create true (some n) _ => .made n 0 fsDirectory .tmpfs none
  | create false (some n) (some p) => .made n 0 0x01 .tmpfs (some p)
  | create _ _ _ => .failed vfsENoMem

theorem openTargetIrq_erases (task : TaskId) (target : OpenTarget) (flags : Nat)
    (alloc : Option Ptr) :
    Erases (openTargetIrq task target flags alloc) fun s =>
      sysOpen s task target.toLookup flags alloc := by
  intro on s
  have hopen := openNodeIrq_erases task
  cases target with
  | failed errno => simp [openTargetIrq, OpenTarget.toLookup, sysOpen]
  | found n => exact hopen n flags alloc on s
  | create isDir node data =>
    cases node with
    | none =>
      cases isDir <;>
        simp [openTargetIrq, tmpfsCreateIrq, kmallocObject, OpenTarget.toLookup, sysOpen]
    | some n =>
      cases isDir with
      | true =>
        have hrun := hopen n flags alloc on (s.addNode n 0 fsDirectory .tmpfs none)
        simpa [openTargetIrq, tmpfsCreateIrq, kmallocObject, OpenTarget.toLookup, sysOpen,
          Function.comp_def] using hrun
      | false =>
        cases data with
        | none =>
          simp [openTargetIrq, tmpfsCreateIrq, kmallocObject, kfreeObject,
            OpenTarget.toLookup, sysOpen]
        | some p =>
          have hrun := hopen n flags alloc on (s.addNode n 0 0x01 .tmpfs (some p))
          simpa [openTargetIrq, tmpfsCreateIrq, kmallocObject, OpenTarget.toLookup, sysOpen,
            Function.comp_def] using hrun

/-- The state after a path is resolved. -/
def VfsState.walked (s : VfsState) (walk : List FatEntry) : VfsState :=
  walk.foldl (fun s entry => s.addNode entry.n entry.size entry.flags .other none) s

theorem walkFat_erases (walk : List FatEntry) :
    Erases (walkFat walk) fun s => some (s.walked walk, ()) := by
  induction walk with
  | nil => exact erases_pure ()
  | cons entry walk ih =>
    intro on s
    simp only [walkFat, kmallocObject, Option.isSome_some, if_true, bind_run, critical_run,
      touch_run, Option.map_some, Option.bind_some]
    have hrun := ih on (s.addNode entry.n entry.size entry.flags .other none)
    simpa [Function.comp_def, VfsState.walked] using hrun

theorem sysOpenIrq_erases (task : TaskId) (walk : List FatEntry) (target : OpenTarget)
    (flags : Nat) (alloc : Option Ptr) :
    Erases (sysOpenIrq task walk target flags alloc) fun s =>
      sysOpen (s.walked walk) task target.toLookup flags alloc :=
  (walkFat_erases walk).bind fun _ => openTargetIrq_erases task target flags alloc

@[simp]
theorem VfsState.setNode_setNode (s : VfsState) (n : Ptr) (node node' : Option VfsNode) :
    (s.setNode n node).setNode n node' = s.setNode n node' := by
  simp [VfsState.setNode]

theorem unlinkTargetIrq_erases (n : Ptr) :
    Erases (unlinkTargetIrq (.unlinked n)) fun s => (sysUnlink s n).map fun s => (s, 0) := by
  intro on s
  unfold unlinkTargetIrq sysUnlink
  cases hnode : s.nodes n with
  | none => simp [hnode]
  | some node =>
    by_cases hfree : node.refCount = 0
    · have hcallback := s.closeCallback_setNode n (some { node with isUnlinked := true })
        { node with isUnlinked := true }
      cases hclosed : s.closeCallback { node with isUnlinked := true } with
      | mk s₁ node₁ =>
        rw [hclosed] at hcallback
        obtain ⟨on', moments, hrun⟩ :=
          (closeCallbackIrq_erases { node with isUnlinked := true }).run_eq false
            (congrArg some hcallback)
        rw [hfree] at hrun hclosed
        simp [hnode, hfree, hrun, hclosed, kfreeObject]
    · simp [hnode, hfree]

theorem sysUnlinkIrq_erases (walk : List FatEntry) (n : Ptr) :
    Erases (sysUnlinkIrq walk (.unlinked n)) fun s =>
      (sysUnlink (s.walked walk) n).map fun s => (s, 0) :=
  (walkFat_erases walk).bind fun _ => unlinkTargetIrq_erases n

theorem inheritFdIrq_erases (parent child : TaskId) (i : Fd) :
    Erases (inheritFdIrq parent child i) fun s =>
      (inheritFd parent child s i).map fun s => (s, ()) := by
  intro on s
  unfold inheritFdIrq inheritFd VfsState.shareFile
  cases hslot : s.fdTable (parent, i) with
  | none => simp [hslot]
  | some of =>
    cases hfile : s.files of with
    | none => simp [hslot, hfile]
    | some file =>
      cases hnode : s.nodes file.node with
      | none => simp [hslot, hfile, VfsState.incNode, hnode]
      | some node =>
        simp [hslot, hfile, VfsState.incNode, hnode]
        rfl

theorem inheritFds_erases (parent child : TaskId) (fds : List Fd) :
    Erases (inheritFds parent child fds) fun s =>
      (fds.foldlM (inheritFd parent child) s).map fun s => (s, ()) := by
  induction fds with
  | nil => exact erases_pure ()
  | cons i fds ih =>
    intro on s
    have hbind := (inheritFdIrq_erases parent child i).bind (fun _ => ih) on s
    rw [inheritFds, hbind]
    cases hstep : inheritFd parent child s i <;> simp [hstep]

theorem forkFdsIrq_erases (parent child : TaskId) :
    Erases (forkFdsIrq parent child) fun s =>
      ((List.finRange 256).foldlM (inheritFd parent child) s).map fun s => (s, ()) :=
  (inheritFds_erases parent child _).critical

end EnclaveOS
