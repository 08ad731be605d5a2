import EnclaveOS.Memory.Fault
import EnclaveOS.Memory.KernelStack
import EnclaveOS.Process.Elf

/-!
# Syscall - the memory system calls

The handlers of `syscall.c` that edit the areas and the page tables of the
current task, and the memory part of the functions of `task.c` that start
and end tasks.  Addresses and lengths from Ring 3 are below `2 ^ 32`.  The end
of a function in `hlt` is `none`.
-/

namespace EnclaveOS

open PageWord

def protRead : Word := 0x1#32
def protWrite : Word := 0x2#32
def protExec : Word := 0x4#32
def mapPrivate : Word := 0x02#32
def mapAnonymous : Word := 0x20#32

/-- Area flags of a protection. -/
def protVmaFlags (prot : Word) : Word :=
  (if hasFlag prot protRead then vmaRead else 0#32) |||
    (if hasFlag prot protWrite then vmaWrite else 0#32) |||
    (if hasFlag prot protExec then vmaExec else 0#32)

/-- The pages of the loops of `sys_munmap` and `sys_mprotect`, between two
page boundaries. -/
def pageList (start «end» : Nat) : List Nat :=
  (List.range ((«end» - start) / 4096)).map fun i => start + i * 4096

/-- The first area at `USER_HEAP_START`, with its position. -/
def heapVmaFrom : Nat → List Vma → Option (Nat × Vma)
  | _, [] => none
  | pos, curr :: rest =>
    if curr.start = userHeapStart then some (pos, curr) else heapVmaFrom (pos + 1) rest

def heapVma (vmas : List Vma) : Option (Nat × Vma) := heapVmaFrom 0 vmas

/-- `sys_brk_handler`. -/
def sysBrk (p : Pmm) (vmas : List Vma) (newBrk : Nat) (k : Kmalloc) :
    List Vma × Int × Kmalloc :=
  if newBrk = 0 then
    match heapVma vmas with
    | some (_, heap) => (vmas, int32 heap.end, k)
    | none => (vmas, int32 userHeapStart, k)
  else if userHeapStart + userHeapMaxSize < newBrk then (vmas, -eNoMem, k)
  else
    match heapVma vmas with
    | none =>
      match vmaAdd vmas userHeapStart newBrk (vmaRead ||| vmaWrite) k with
      | (vmas, ret, k) => if ret < 0 then (vmas, -eNoMem, k) else (vmas, 0, k)
    | some (pos, heap) =>
      if heap.end < newBrk then
        if vmaIntersects vmas heap.end newBrk (some pos) then (vmas, -eNoMem, k)
        else if pmmGetFreePages p / 2 < wrap32 (newBrk - heap.end + 0xFFF) / 0x1000 then
          (vmas, -eNoMem, k)
        else (vmas.set pos { heap with «end» := newBrk }, 0, k)
      else if newBrk < heap.end then (vmas.set pos { heap with «end» := newBrk }, 0, k)
      else (vmas, 0, k)

/-- The address `sys_mmap` maps at, or its error. -/
def mmapAddr (vmas : List Vma) (addr alignedLen : Nat) : Except Int Nat :=
  if addr = 0 then
    if vmaFindFreeArea vmas alignedLen = 0 then .error eNoMem
    else .ok (vmaFindFreeArea vmas alignedLen)
  else if vmaIntersects vmas (pageDown addr) (wrap32 (pageDown addr + alignedLen)) none then
    .error eInval
  else .ok (pageDown addr)

/-- `sys_mmap_handler`. -/
def sysMmap (vmas : List Vma) (addr len : Nat) (prot flags : Word) (k : Kmalloc) :
    List Vma × Int × Kmalloc :=
  if len = 0 ∨ userMmapMaxSize < len then (vmas, -eInval, k)
  else if hasFlag prot protWrite ∧ hasFlag prot protExec then (vmas, -ePerm, k)
  else if !hasFlag flags mapAnonymous ∨ !hasFlag flags mapPrivate then (vmas, -eNoSys, k)
  else
    match mmapAddr vmas addr (pageUp len) with
    | .error e => (vmas, -e, k)
    | .ok mapAddr =>
      match vmaAdd vmas mapAddr (wrap32 (mapAddr + pageUp len)) (protVmaFlags prot) k with
      | (vmas, ret, k) => if ret < 0 then (vmas, -eNoMem, k) else (vmas, int32 mapAddr, k)

/-- The end of the range of `sys_munmap` and `sys_mprotect`. -/
def rangeEnd (addr len : Nat) : Nat := wrap32 (pageDown addr + pageUp len)

/-- `sys_munmap_handler`. -/
def sysMunmap (m : Machine) (pd : Nat) (vmas : List Vma) (addr len : Nat) (k : Kmalloc) :
    Machine × List Vma × Int × Kmalloc :=
  if len = 0 then (m, vmas, -eInval, k)
  else
    match vmaUnmapRange (pageDown addr) (rangeEnd addr len) vmas k with
    | (vmas, ret, k) =>
      if ret < 0 then (m, vmas, ret, k)
      else
        ((pageList (pageDown addr) (rangeEnd addr len)).foldl
          (fun m p => vmmUnmapAndFreePageInPd m pd p) m, vmas, 0, k)

/-- Page-table flags of a protection. -/
def protPteFlags (prot : Word) : Word :=
  if hasFlag (protVmaFlags prot) vmaWrite then pagePresent ||| pageUser ||| pageWrite
  else pagePresent ||| pageUser

/-- `sys_mprotect_handler`. -/
def sysMprotect (m : Machine) (pd : Nat) (vmas : List Vma) (addr len : Nat) (prot : Word)
    (k : Kmalloc) : Machine × List Vma × Int × Kmalloc :=
  if len = 0 then (m, vmas, -eInval, k)
  else if hasFlag prot protWrite ∧ hasFlag prot protExec then (m, vmas, -ePerm, k)
  else if pageDown addr ≥ kernelSpaceStart ∨ rangeEnd addr len > userSpaceEnd + 1 then
    (m, vmas, -eInval, k)
  else if !vmaIntersects vmas (pageDown addr) (rangeEnd addr len) none then
    (m, vmas, -eNoMem, k)
  else
    match vmaProtectRange (pageDown addr) (rangeEnd addr len) (protVmaFlags prot) vmas k with
    | (vmas, ret, k) =>
      if ret < 0 then (m, vmas, ret, k)
      else
        ((pageList (pageDown addr) (rangeEnd addr len)).foldl
          (fun m p => vmmProtectPageInPd m pd p (protPteFlags prot)) m, vmas, 0, k)

/-- The stack area and the empty heap area of a new image. -/
def addStackAndHeap (vmas : List Vma) (k : Kmalloc) : List Vma × Int × Kmalloc :=
  match vmaAdd vmas (userStackVirtTop - userStackSize) userStackVirtTop
      (vmaRead ||| vmaWrite) k with
  | (vmas, ret, k) =>
    if ret < 0 then (vmas, ret, k)
    else vmaAdd vmas userHeapStart userHeapStart (vmaRead ||| vmaWrite) k

/-- The memory part of `sys_exec_handler`: the machine, the directory, the areas
and the result.  Copying the arguments and looking up the path come before it and
end in the file or in an error code. -/
def sysExecMemory (m : Machine) (pd : Nat) (vmas : List Vma) (file : Except Int VfsFile)
    (k : Kmalloc) : Option (Machine × Nat × List Vma × Int × Kmalloc) :=
  match file with
  | .error e => some (m, pd, vmas, e, k)
  | .ok file =>
    match vmmCreateAddressSpace m with
    | (m, none) => some (m, pd, vmas, -eNoMem, k)
    | (m, some newPd) =>
      match elfLoad file newPd m k with
      | (s, status, entryPoint) =>
        if status = .halted then none
        else if entryPoint = 0 then
          some (vmmDestroyAddressSpace s.machine newPd, pd, vmas, -eNoExec, s.kmallocs)
        else
          let m := if pd ≠ newPd then vmmDestroyAddressSpace s.machine pd else s.machine
          match addStackAndHeap s.vmaHead s.kmallocs with
          | (vmas, ret, k) =>
            if ret < 0 then some (m, newPd, vmas, -eNoMem, k) else some (m, newPd, vmas, 0, k)

/-- The fields of `task_t` that concern its memory. -/
structure Process extends FaultTask where
  kernelStackVirt : Nat

/-- `task_create` for a user task in a directory that exists: the frame of the
PCB and the kernel stack. -/
def taskCreate (m : Machine) : Option (Machine × Option (Nat × Nat)) :=
  match vmmAllocKernelStack m with
  | .halted => none
  | .failed m => some (m, none)
  | .allocated m stackTop =>
    match m.allocPage with
    | (m, pcbPhys) =>
      if pcbPhys = 0#32 then some (vmmFreeKernelStack m stackTop, none)
      else some (m, some (frameOf pcbPhys, stackTop))

/-- Starting Init, at boot and in `respawn_init_task`; every failure halts. -/
def startInit (m : Machine) (file : VfsFile) (k : Kmalloc) : Option (Machine × Nat × Process) :=
  match vmmCreateAddressSpace m with
  | (_, none) => none
  | (m, some newPd) =>
    match elfLoad file newPd m k with
    | (s, status, entry) =>
      if status = .halted ∨ entry = 0 then none
      else
        match addStackAndHeap s.vmaHead s.kmallocs with
        | (vmas, ret, _) =>
          if ret < 0 then none
          else
            match taskCreate s.machine with
            | some (m, some (pcb, stackTop)) => some (m, pcb, ⟨⟨some newPd, vmas⟩, stackTop⟩)
            | _ => none

/-- The memory part of `task_fork`: the PCB and the child, or none with the
allocations rolled back. -/
def taskForkMemory (m : Machine) (pd : Nat) (vmas : List Vma) (k : Kmalloc) :
    Option (Machine × Option (Nat × Process)) :=
  match vmmAllocKernelStack m with
  | .halted => none
  | .failed m => some (m, none)
  | .allocated m stackTop =>
    match m.allocPage with
    | (m, pcbPhys) =>
      if pcbPhys = 0#32 then some (vmmFreeKernelStack m stackTop, none)
      else
        match vmmCloneAddressSpace m pd with
        | (m, none) => some ((vmmFreeKernelStack m stackTop).freePage pcbPhys, none)
        | (m, some childPd) =>
          match vmaClone vmas k with
          | (childVmas, ret, _) =>
            if ret < 0 then
              some ((vmmFreeKernelStack (vmmDestroyAddressSpace m childPd) stackTop).freePage
                pcbPhys, none)
            else some (m, some (frameOf pcbPhys, ⟨⟨some childPd, childVmas⟩, stackTop⟩))

/-- The memory a task gives up in `task_exit`, `task_kill_current` and
`task_cleanup_children_on_exit`. -/
def releaseMemory (m : Machine) (task : Process) : Machine × Process :=
  match task.pdirVirt with
  | none => (m, { task with vmaHead := [] })
  | some pd =>
    if pd = m.bootPageDirectory then (m, { task with vmaHead := [] })
    else (vmmDestroyAddressSpace m pd, { task with pdirVirt := none, vmaHead := [] })

/-- What the reaper in `schedule` frees of a dead task. -/
def reapTask (m : Machine) (pcb : Nat) (task : Process) : Machine :=
  (if task.kernelStackVirt ≠ 0 then vmmFreeKernelStack m task.kernelStackVirt else m).freePage
    (frameAddr pcb)

end EnclaveOS
