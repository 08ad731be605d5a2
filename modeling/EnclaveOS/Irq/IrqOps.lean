import EnclaveOS.Foundation.Critical
import EnclaveOS.Fs.Vfs
import EnclaveOS.Heap.Heap
import EnclaveOS.Memory.Pmm

/-!
# IrqOps - the critical sections of the kernel

The operations that write the interrupt flag, with the shared objects that they update:
`heap.c` and `pmm.c` save the flag with `read_eflags`, `vfs_close_fd` and
`task_fork` with `irq_save`, and `sys_open`, `sys_unlink` and the console
driver turn interrupts off and on.  The table of descriptors of a task is not shared, and the
links between the nodes of the tree are not part of the state: an update of them is recorded.
-/

namespace EnclaveOS

open PageWord Irq

/-- What the operations share: the heap, the page allocator, the count of the console, the links
of the tree, and the reference counts. -/
inductive SharedObject
  | heap
  | pages
  | console
  | tree
  | file (of : Ptr)
  | node (n : Ptr)
  deriving DecidableEq

/-- The size of a block and its level, or nothing where `kmalloc` refuses the size. -/
def requestOf (size : Nat) : Option (Nat × Nat) :=
  if size = 0 ∨ kernelHeapSize < size then none
  else
    let (blockSize, targetLevel) := blockFor (size + blockHeaderSize) maxOrder 4096 0
    if blockSize < size + blockHeaderSize then none else some (blockSize, targetLevel)

/-- The tree after `kmalloc` takes `node`, and the block it makes of it. -/
def takeNode (tree : HeapTree) (node targetLevel : Nat) : HeapTree × Nat :=
  let (tree, curr) := splitDown (maxOrder - getDepth node - targetLevel) tree node
  (Function.update tree curr .alloc, curr)

/-- `kmalloc`. -/
def kmallocIrq (size : Nat) : Irq SharedObject HeapState Nat :=
  match requestOf size with
  | none => pure 0
  | some (blockSize, targetLevel) => do
    let virtAddr ← critical do
      let s ← get
      match findFree s.tree targetLevel maxOrder 1 with
      | none => pure 0
      | some node => do
        let (tree, curr) := takeNode s.tree node targetLevel
        Irq.touch .heap fun s => some { s with tree := tree }
        Irq.touch .heap fun s => some { s with totalAllocs := wrap32 (s.totalAllocs + 1) }
        pure (kernelHeapVirt + (curr - 2 ^ getDepth curr) * blockSize)
    if virtAddr = 0 then pure 0
    else do
      write fun s => (s.store virtAddr blockSize).store (virtAddr + 4) headerMagic
      pure (virtAddr + blockHeaderSize)

/-- The node of the tree that a header stands for. -/
def nodeOfHeader (s : HeapState) (virtAddr : Nat) : Option Nat := do
  let blockSize := s.mem virtAddr
  let targetLevel ← levelOf blockSize 33 4096 0
  let curr := 2 ^ (maxOrder - targetLevel) + (virtAddr - kernelHeapVirt) / blockSize
  if maxOrder < targetLevel ∨ blockSize = 0 ∨ treeSize ≤ curr then none else some curr

/-- `kfree`. -/
def kfreeIrq (ptr : Nat) : Irq SharedObject HeapState Unit := do
  let s ← get
  let virtAddr := wrap32 (ptr + (4294967296 - blockHeaderSize))
  if ptr = 0 then pure ()
  else if virtAddr < kernelHeapVirt ∨ kernelHeapEnd ≤ virtAddr then pure ()
  else if s.mem (virtAddr + 4) ≠ headerMagic then pure ()
  else
    match nodeOfHeader s virtAddr with
    | none => fail
    | some curr => critical do
      Irq.touch .heap fun s => some { s with tree := Function.update s.tree curr .free }
      write fun s => s.store (virtAddr + 4) 0
      Irq.touch .heap fun s => some { s with totalFrees := wrap32 (s.totalFrees + 1) }
      Irq.touch .heap fun s => some { s with tree := coalesce maxOrder s.tree curr }

/-- `pmm_alloc_page`. -/
def pmmAllocPageIrq : Irq SharedObject Pmm Word :=
  critical do
    let p ← get
    match scanBitmapWords p (List.range ((p.maxPage + 31) / 32)) with
    | none => pure 0#32
    | some f => do
      Irq.touch .pages fun p => some (p.take f)
      pure (frameAddr f)

/-- The page of an address, or nothing where the calls ignore it. -/
def pageOf (p : Pmm) (physAddr : Word) : Option Nat :=
  let pageIndex := physAddr.toNat / pmmPageSize
  if physAddr.toNat % pmmPageSize ≠ 0 ∨ p.maxPage ≤ pageIndex then none else some pageIndex

/-- `pmm_free_page`. -/
def pmmFreePageIrq (physAddr : Word) : Irq SharedObject Pmm Unit := do
  let p ← get
  match pageOf p physAddr with
  | none => pure ()
  | some f => critical do
    let p ← get
    if !p.bitmap f then pure () else Irq.touch .pages fun p => some (p.release f)

/-- `pmm_inc_ref`. -/
def pmmIncRefIrq (physAddr : Word) : Irq SharedObject Pmm Unit := do
  let p ← get
  match pageOf p physAddr with
  | none => pure ()
  | some f => critical do
    let p ← get
    if p.refcounts f < 0xFFFF then
      Irq.touch .pages fun p => some (p.setRef f (p.refcounts f + 1))
    else pure ()

/-- `pmm_dec_ref`: the free is called inside the section. -/
def pmmDecRefIrq (physAddr : Word) : Irq SharedObject Pmm Unit := do
  let p ← get
  match pageOf p physAddr with
  | none => pure ()
  | some f => critical do
    let p ← get
    if 0 < p.refcounts f then do
      Irq.touch .pages fun p => some (p.setRef f (p.refcounts f - 1))
      let p ← get
      if p.refcounts f = 0 then pmmFreePageIrq physAddr else pure ()
    else pure ()

/-- `kmalloc` of an object, by its outcome. -/
def kmallocObject (outcome : Option Ptr) : Irq SharedObject VfsState Unit :=
  critical (if outcome.isSome then Irq.touch .heap some else pure ())

/-- `kfree` of an object, which `f` takes out of the state. -/
def kfreeObject (f : VfsState → VfsState) : Irq SharedObject VfsState Unit :=
  critical (Irq.touch .heap fun s => some (f s))

/-- `devfs_console_open`. -/
def devfsConsoleOpenIrq : Irq SharedObject VfsState Int := do
  cli
  let s ← get
  if 0 < s.consoleOpenCount then do
    sti
    pure (-1)
  else do
    Irq.touch .console fun s => some { s with consoleOpenCount := s.consoleOpenCount + 1 }
    sti
    pure 0

/-- `devfs_console_close`. -/
def devfsConsoleCloseIrq : Irq SharedObject VfsState Unit := do
  cli
  let s ← get
  if 0 < s.consoleOpenCount then
    Irq.touch .console fun s => some { s with consoleOpenCount := s.consoleOpenCount - 1 }
  else pure ()
  sti

/-- `node->open(node, flags)`. -/
def openCallbackIrq (n : Ptr) (node : VfsNode) (flags : Nat) : Irq SharedObject VfsState Int :=
  match node.driver with
  | .tmpfs => do
    write fun s => s.tmpfsOpenNode n node flags
    pure 0
  | .console => devfsConsoleOpenIrq
  | .other => pure 0

/-- `node->close(node)`: the node as the callback leaves it. -/
def closeCallbackIrq (node : VfsNode) : Irq SharedObject VfsState VfsNode :=
  match node.driver with
  | .tmpfs =>
    if node.isUnlinked then
      match node.privateData with
      | none => pure node
      | some p => do
        let s ← get
        if ((s.fileData p).bind TmpfsFileData.data).isSome then kfreeObject id else pure ()
        kfreeObject fun s => s.freeData (some p)
        pure { node with privateData := none }
    else pure node
  | .console => do
    devfsConsoleCloseIrq
    pure node
  | .other => pure node

/-- `kfree(node->private_data)`. -/
def freePrivateData (node : VfsNode) : Irq SharedObject VfsState Unit :=
  if node.privateData.isSome then kfreeObject fun s => s.freeData node.privateData else pure ()

/-- The end of an orphan in `vfs_close_fd`. -/
def dropNode (n : Ptr) (node : VfsNode) : Irq SharedObject VfsState Unit := do
  let node ← closeCallbackIrq node
  freePrivateData node
  kfreeObject fun s => s.setNode n none

/-- The part of `vfs_close_fd` on the node of an open file that goes away. -/
def putNodeIrq (n : Ptr) : Irq SharedObject VfsState Unit := do
  Irq.touch (.node n) fun s => s.decNode n
  let s ← get
  match s.nodes n with
  | none => fail
  | some node =>
    if node.refCount = 0 ∧ node.isUnlinked then dropNode n node else pure ()

/-- `vfs_close_fd`. -/
def vfsCloseFdIrq (task : TaskId) (fd : Int) : Irq SharedObject VfsState Int := do
  let s ← get
  match fdIndex fd with
  | none => pure (-eBadF)
  | some i =>
    match s.fdTable (task, i) with
    | none => pure (-eBadF)
    | some of =>
      match s.files of with
      | none => fail
      | some file => do
        write fun s => s.setSlot (task, i) none
        critical do
          Irq.touch (.file of) fun s =>
            some (s.setFile of (some { file with refCount := pred32 file.refCount }))
          if pred32 file.refCount = 0 then do
            putNodeIrq file.node
            kfreeObject fun s => s.setFile of none
          else pure ()
        pure 0

/-- A node that the lookup in a FAT directory makes. -/
structure FatEntry where
  n : Ptr
  data : Ptr
  size : Nat
  flags : Nat

/-- The nodes that `fat32_finddir` makes while a path is resolved. -/
def walkFat : List FatEntry → Irq SharedObject VfsState Unit
  | [] => pure ()
  | entry :: walk => do
    kmallocObject (some entry.n)
    Irq.touch .tree fun s => some (s.addNode entry.n entry.size entry.flags .other none)
    kmallocObject (some entry.data)
    walkFat walk

/-- What `sys_open` finds: an error, a node of the tree, or a directory in which
`tmpfs_create` is to make a node; the outcomes of `kmalloc` are for the node and, unless
the node is a directory, for its data. -/
inductive OpenTarget
  | failed (errno : Int)
  | found (n : Ptr)
  | create (isDir : Bool) (node data : Option Ptr)

/-- `tmpfs_create`. -/
def tmpfsCreateIrq (isDir : Bool) (node data : Option Ptr) :
    Irq SharedObject VfsState (Option Ptr) := do
  kmallocObject node
  match node with
  | none => pure none
  | some n =>
    if isDir then do
      Irq.touch .tree fun s => some (s.addNode n 0 fsDirectory .tmpfs none)
      pure (some n)
    else do
      kmallocObject data
      match data with
      | none => do
        kfreeObject id
        pure none
      | some p => do
        Irq.touch .tree fun s => some (s.addNode n 0 0x01 .tmpfs (some p))
        pure (some n)

/-- A reference count between `cli` and `sti`. -/
def countRaw (n : Ptr) (f : VfsState → Option VfsState) : Irq SharedObject VfsState Unit := do
  cli
  Irq.touch (.node n) f
  sti

/-- `sys_open` from the point where the node is counted. -/
def openFinishIrq (task : TaskId) (n : Ptr) (flags : Nat) (alloc : Option Ptr) :
    Irq SharedObject VfsState Int := do
  kmallocObject alloc
  match alloc with
  | none => do
    countRaw n fun s => s.decNode n
    pure (-vfsENoMem)
  | some of => do
    let s ← get
    match s.freeFd task with
    | some i => do
      write fun s => (s.setFile of (some ⟨n, 0, flags, 1⟩)).setSlot (task, i) (some of)
      pure i
    | none => do
      kfreeObject id
      countRaw n fun s => s.decNode n
      pure (-vfsENoMem)

/-- `sys_open` from the point where the node is known. -/
def openNodeIrq (task : TaskId) (n : Ptr) (flags : Nat) (alloc : Option Ptr) :
    Irq SharedObject VfsState Int := do
  let s ← get
  match s.nodes n with
  | none => fail
  | some node =>
    if node.flags &&& fsSystem ≠ 0 ∧ node.flags &&& fsDirectory = 0 then pure (-vfsEAcces)
    else do
      let result ← openCallbackIrq n node flags
      if result ≠ 0 then pure (-vfsEAcces)
      else do
        countRaw n fun s => s.incNode n
        openFinishIrq task n flags alloc

/-- `sys_open` from the point where the path is resolved. -/
def openTargetIrq (task : TaskId) (target : OpenTarget) (flags : Nat) (alloc : Option Ptr) :
    Irq SharedObject VfsState Int :=
  match target with
  | .failed errno => pure (-errno)
  | .found n => openNodeIrq task n flags alloc
  | .create isDir node data => do
    match ← tmpfsCreateIrq isDir node data with
    | none => pure (-vfsENoMem)
    | some n => openNodeIrq task n flags alloc

/-- `sys_open`. -/
def sysOpenIrq (task : TaskId) (walk : List FatEntry) (target : OpenTarget) (flags : Nat)
    (alloc : Option Ptr) : Irq SharedObject VfsState Int := do
  walkFat walk
  openTargetIrq task target flags alloc

/-- What `sys_unlink` finds: an error before it turns interrupts off, no such name, a target
that the callback refuses, or a target that the callback takes out of the tree. -/
inductive UnlinkTarget
  | failed (errno : Int)
  | missing
  | refused (errno : Int)
  | unlinked (n : Ptr)

/-- `sys_unlink` from the point where the path of the directory is resolved. -/
def unlinkTargetIrq (target : UnlinkTarget) : Irq SharedObject VfsState Int :=
  match target with
  | .failed errno => pure (-errno)
  | .missing => do
    cli
    sti
    pure (-2)
  | .refused errno => do
    cli
    sti
    pure (-errno)
  | .unlinked n => do
    cli
    let s ← get
    match s.nodes n with
    | none => fail
    | some node => do
      let node := { node with isUnlinked := true }
      Irq.touch .tree fun s => some (s.setNode n (some node))
      if node.refCount = 0 then do
        let _ ← closeCallbackIrq node
        kfreeObject fun s => s.setNode n none
      else pure ()
      sti
      pure 0

/-- `sys_unlink`. -/
def sysUnlinkIrq (walk : List FatEntry) (target : UnlinkTarget) :
    Irq SharedObject VfsState Int := do
  walkFat walk
  unlinkTargetIrq target

/-- One round of the inheritance loop of `task_fork`. -/
def inheritFdIrq (parent child : TaskId) (i : Fd) : Irq SharedObject VfsState Unit := do
  let s ← get
  match s.fdTable (parent, i) with
  | none => write fun s => s.setSlot (child, i) none
  | some of =>
    match s.files of with
    | none => fail
    | some file => do
      write fun s => s.setSlot (child, i) (some of)
      Irq.touch (.file of) fun s =>
        some (s.setFile of (some { file with refCount := succ32 file.refCount }))
      Irq.touch (.node file.node) fun s => s.incNode file.node

def inheritFds (parent child : TaskId) : List Fd → Irq SharedObject VfsState Unit
  | [] => pure ()
  | i :: fds => do
    inheritFdIrq parent child i
    inheritFds parent child fds

/-- The descriptor inheritance of `task_fork`. -/
def forkFdsIrq (parent child : TaskId) : Irq SharedObject VfsState Unit :=
  critical (inheritFds parent child (List.finRange 256))

end EnclaveOS
