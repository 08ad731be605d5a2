import EnclaveOS.Fs.Tmpfs

/-!
# Vfs - descriptor tables, open files and nodes

The reference counting of `vfs.c`, `devfs.c`, `tmpfs.c`,
`task.c` and the descriptor calls of `syscall.c`, on the heap objects
they share: open files, nodes and the data of tmpfs files.

An operation runs to its end before the next one starts.  The outcomes of path
resolution, `kmalloc` and `pmm_alloc_page` are arguments, and a result
`none` is an access to freed memory.
-/

namespace EnclaveOS

/-- `task_t*`, as the page of the PCB. -/
abbrev TaskId := Fin 1048576

/-- A pointer into the kernel heap. -/
abbrev Ptr := Fin 4294967296

/-- `TASK_MAX_OPEN_FILES` descriptors. -/
abbrev Fd := Fin 256

/-! None of the three types is empty, so their literals are written as numbers. -/

instance instNeZeroTaskId : NeZero 1048576 := ⟨Nat.succ_ne_zero _⟩
instance instNeZeroPtr : NeZero 4294967296 := ⟨Nat.succ_ne_zero _⟩
instance instNeZeroFd : NeZero 256 := ⟨Nat.succ_ne_zero _⟩

def fsDirectory : Nat := 0x02
def fsSystem : Nat := 0x80
def vfsENoMem : Int := 12
def eBadF : Int := 9
def vfsEAcces : Int := 13
def eMFile : Int := 24

/-- `open_file_t`. -/
structure OpenFile where
  node : Ptr
  offset : Nat
  flags : Nat
  refCount : Nat

/-- Which `open` and `close` callbacks a node carries. -/
inductive NodeDriver
  | tmpfs
  | console
  | other
  deriving DecidableEq

/-- The fields of `vfs_node_t` that opening, closing and unlinking use. -/
structure VfsNode where
  size : Nat
  flags : Nat
  driver : NodeDriver
  privateData : Option Ptr
  refCount : Nat
  isUnlinked : Bool

/-- `task->state`, as far as descriptors are concerned. -/
inductive FdStatus
  | dead
  | zombie
  | active
  deriving DecidableEq

/-- The tasks, their tables and the heap objects behind them. -/
structure VfsState where
  status : TaskId → FdStatus
  fdTable : TaskId × Fd → Option Ptr
  files : Ptr → Option OpenFile
  nodes : Ptr → Option VfsNode
  fileData : Ptr → Option TmpfsFileData
  consoleOpenCount : Nat

namespace VfsState

@[simps]
def setStatus (s : VfsState) (task : TaskId) (status : FdStatus) : VfsState :=
  { s with status := Function.update s.status task status }

@[simps]
def setSlot (s : VfsState) (slot : TaskId × Fd) (file : Option Ptr) : VfsState :=
  { s with fdTable := Function.update s.fdTable slot file }

@[simps]
def setFile (s : VfsState) (of : Ptr) (file : Option OpenFile) : VfsState :=
  { s with files := Function.update s.files of file }

@[simps]
def setNode (s : VfsState) (n : Ptr) (node : Option VfsNode) : VfsState :=
  { s with nodes := Function.update s.nodes n node }

/-- `kfree` of the data of a file. -/
@[simps]
def freeData (s : VfsState) (data : Option Ptr) : VfsState :=
  { s with fileData := fun p => if data = some p then none else s.fileData p }

end VfsState

/-- `++` on `uint32_t`. -/
def succ32 (n : Nat) : Nat := if n = 0xFFFFFFFF then 0 else n + 1

/-- `--` on `uint32_t`. -/
def pred32 (n : Nat) : Nat := if n = 0 then 0xFFFFFFFF else n - 1

/-- The bounds check on a descriptor argument. -/
def fdIndex (fd : Int) : Option Fd :=
  if h : 0 ≤ fd ∧ fd < 256 then some ⟨fd.toNat, by omega⟩ else none

namespace VfsState

/-- The first free descriptor of a task. -/
def freeFd (s : VfsState) (task : TaskId) : Option Fd :=
  (List.finRange 256).find? fun i => s.fdTable (task, i) = none

/-- `node->ref_count++`. -/
def incNode (s : VfsState) (n : Ptr) : Option VfsState := do
  let node ← s.nodes n
  some (s.setNode n (some { node with refCount := succ32 node.refCount }))

/-- `node->ref_count--`. -/
def decNode (s : VfsState) (n : Ptr) : Option VfsState := do
  let node ← s.nodes n
  some (s.setNode n (some { node with refCount := pred32 node.refCount }))

/-- `devfs_console_open`: the device is exclusive. -/
def devfsConsoleOpen (s : VfsState) : VfsState × Int :=
  if 0 < s.consoleOpenCount then (s, -1)
  else ({ s with consoleOpenCount := s.consoleOpenCount + 1 }, 0)

/-- `devfs_console_close`. -/
def devfsConsoleClose (s : VfsState) : VfsState :=
  if 0 < s.consoleOpenCount then { s with consoleOpenCount := s.consoleOpenCount - 1 } else s

/-- `tmpfs_open` on the node and the data it points to. -/
def tmpfsOpenNode (s : VfsState) (n : Ptr) (node : VfsNode) (flags : Nat) : VfsState :=
  match node.privateData with
  | none => s
  | some p =>
    let opened := tmpfsOpen ⟨node.size, s.fileData p⟩ flags
    { s.setNode n (some { node with size := opened.size }) with
      fileData := Function.update s.fileData p opened.privateData }

/-- `node->open(node, flags)`. -/
def openCallback (s : VfsState) (n : Ptr) (node : VfsNode) (flags : Nat) : VfsState × Int :=
  match node.driver with
  | .tmpfs => (s.tmpfsOpenNode n node flags, 0)
  | .console => s.devfsConsoleOpen
  | .other => (s, 0)

/-- `node->close(node)`; `tmpfs_close` frees the data of an orphan. -/
def closeCallback (s : VfsState) (node : VfsNode) : VfsState × VfsNode :=
  match node.driver with
  | .tmpfs =>
    if node.isUnlinked then (s.freeData node.privateData, { node with privateData := none })
    else (s, node)
  | .console => (s.devfsConsoleClose, node)
  | .other => (s, node)

/-- The last open file of a node goes away: an orphan is freed with its data. -/
def putNode (s : VfsState) (n : Ptr) : Option VfsState := do
  let node ← s.nodes n
  let node := { node with refCount := pred32 node.refCount }
  if node.refCount = 0 ∧ node.isUnlinked then
    let (s, node) := s.closeCallback node
    some ((s.freeData node.privateData).setNode n none)
  else some (s.setNode n (some node))

/-- A node as `tmpfs_create` or `vfs_create_node` makes it, with the
data of a tmpfs file. -/
def addNode (s : VfsState) (n : Ptr) (size flags : Nat) (driver : NodeDriver)
    (privateData : Option Ptr) : VfsState :=
  { s.setNode n (some ⟨size, flags, driver, privateData, 0, false⟩) with
    fileData := fun p => if privateData = some p then some ⟨none, 0, 0⟩ else s.fileData p }

end VfsState

/-- `vfs_close_fd`. -/
def vfsCloseFd (s : VfsState) (task : TaskId) (fd : Int) : Option (VfsState × Int) :=
  match fdIndex fd with
  | none => some (s, -eBadF)
  | some i =>
    match s.fdTable (task, i) with
    | none => some (s, -eBadF)
    | some of => do
      let file ← s.files of
      let s := s.setSlot (task, i) none
      let refCount := pred32 file.refCount
      if refCount = 0 then
        let s ← s.putNode file.node
        some (s.setFile of none, 0)
      else some (s.setFile of (some { file with refCount }), 0)

/-- What path resolution gives `sys_open`: an error, a node of the tree, or a
node made on the way by `parent->create` or by the lookup of a FAT directory. -/
inductive Lookup
  | failed (errno : Int)
  | found (n : Ptr)
  | made (n : Ptr) (size flags : Nat) (driver : NodeDriver) (privateData : Option Ptr)

/-- `sys_open` from the point where the node is known; `alloc` is the
outcome of `kmalloc`. -/
def openNode (s : VfsState) (task : TaskId) (n : Ptr) (flags : Nat) (alloc : Option Ptr) :
    Option (VfsState × Int) := do
  let node ← s.nodes n
  if node.flags &&& fsSystem ≠ 0 ∧ node.flags &&& fsDirectory = 0 then some (s, -vfsEAcces)
  else
    let (s, result) := s.openCallback n node flags
    if result ≠ 0 then some (s, -vfsEAcces)
    else
      let s ← s.incNode n
      match alloc with
      | none =>
        let s ← s.decNode n
        some (s, -vfsENoMem)
      | some of =>
        match s.freeFd task with
        | some i => some ((s.setFile of (some ⟨n, 0, flags, 1⟩)).setSlot (task, i) (some of), i)
        | none =>
          let s ← s.decNode n
          some (s, -vfsENoMem)

/-- `sys_open`. -/
def sysOpen (s : VfsState) (task : TaskId) (lookup : Lookup) (flags : Nat)
    (alloc : Option Ptr) : Option (VfsState × Int) :=
  match lookup with
  | .failed errno => some (s, -errno)
  | .found n => openNode s task n flags alloc
  | .made n size nodeFlags driver privateData =>
    openNode (s.addNode n size nodeFlags driver privateData) task n flags alloc

/-- `of->ref_count++` and `of->node->ref_count++`. -/
def VfsState.shareFile (s : VfsState) (of : Ptr) : Option VfsState := do
  let file ← s.files of
  (s.setFile of (some { file with refCount := succ32 file.refCount })).incNode file.node

/-- `sys_dup_handler`. -/
def sysDup (s : VfsState) (task : TaskId) (oldFd : Int) : Option (VfsState × Int) :=
  match (fdIndex oldFd).bind fun i => s.fdTable (task, i) with
  | none => some (s, -eBadF)
  | some of =>
    match s.freeFd task with
    | none => some (s, -eMFile)
    | some j => do
      let s ← s.shareFile of
      some (s.setSlot (task, j) (some of), j)

/-- `sys_dup2_handler`. -/
def sysDup2 (s : VfsState) (task : TaskId) (oldFd newFd : Int) : Option (VfsState × Int) :=
  match fdIndex oldFd, fdIndex newFd with
  | some i, some j =>
    match s.fdTable (task, i) with
    | none => some (s, -eBadF)
    | some of =>
      if i = j then some (s, newFd)
      else do
        let s ← if s.fdTable (task, j) ≠ none then (vfsCloseFd s task newFd).map Prod.fst else some s
        let s ← s.shareFile of
        some (s.setSlot (task, j) (some of), newFd)
  | _, _ => some (s, -eBadF)

/-- One round of the inheritance loop of `task_fork`. -/
def inheritFd (parent child : TaskId) (s : VfsState) (i : Fd) : Option VfsState :=
  match s.fdTable (parent, i) with
  | none => some (s.setSlot (child, i) none)
  | some of => do
    let s ← s.shareFile of
    some (s.setSlot (child, i) (some of))

/-- The PCB of a new task: zeroed, then ready. -/
def newTask (s : VfsState) (task : TaskId) : VfsState :=
  { s.setStatus task .active with
    fdTable := fun x => if x.1 = task then none else s.fdTable x }

/-- `task_fork`. -/
def taskFork (s : VfsState) (parent child : TaskId) : Option VfsState :=
  (List.finRange 256).foldlM (inheritFd parent child) (newTask s child)

/-- `sys_exec_handler`: the descriptors are saved and restored. -/
def sysExec (s : VfsState) (task : TaskId) : VfsState :=
  let saved := fun i => s.fdTable (task, i)
  { s with fdTable := fun x => if x.1 = task then saved x.2 else s.fdTable x }

/-- One round of the loop that closes the descriptors of a dying task. -/
def closeSlot (task : TaskId) (s : VfsState) (i : Fd) : Option VfsState :=
  if s.fdTable (task, i) ≠ none then (vfsCloseFd s task i).map Prod.fst else some s

/-- The loop of `task_exit`, `task_kill_current` and the cascade. -/
def closeAll (s : VfsState) (task : TaskId) : Option VfsState :=
  (List.finRange 256).foldlM (closeSlot task) s

/-- `task_cleanup_children_on_exit` on one descendant. -/
def killChild (s : VfsState) (child : TaskId) : Option VfsState :=
  match s.status child with
  | .dead => some s
  | .zombie => some (s.setStatus child .dead)
  | .active => (closeAll s child).map fun s => s.setStatus child .dead

/-- `task_exit` and `task_kill_current`; the cascade visits
`victims` in this order. -/
def taskExit (s : VfsState) (task : TaskId) (victims : List TaskId) (isInit : Bool) :
    Option VfsState := do
  let s ← closeAll s task
  let s ← victims.foldlM killChild s
  some (s.setStatus task (if isInit then .dead else .zombie))

/-- `sys_unlink` once the target is found. -/
def sysUnlink (s : VfsState) (n : Ptr) : Option VfsState := do
  let node ← s.nodes n
  let node := { node with isUnlinked := true }
  if node.refCount = 0 then
    let (s, _) := s.closeCallback node
    some (s.setNode n none)
  else some (s.setNode n (some node))

/-- One operation of a task or of the kernel. -/
inductive FdOp
  | create (task : TaskId)
  | mknod (n : Ptr) (size flags : Nat) (driver : NodeDriver) (privateData : Option Ptr)
  | openFile (task : TaskId) (lookup : Lookup) (flags : Nat) (alloc : Option Ptr)
  | close (task : TaskId) (fd : Int)
  | dup (task : TaskId) (oldFd : Int)
  | dup2 (task : TaskId) (oldFd newFd : Int)
  | fork (parent child : TaskId)
  | exec (task : TaskId)
  | exit (task : TaskId) (victims : List TaskId) (isInit : Bool)
  | waitpid (zombie : TaskId)
  | unlink (n : Ptr)

/-- The state after an operation. -/
def FdOp.step (s : VfsState) : FdOp → Option VfsState
  | .create task => some (newTask s task)
  | .mknod n size flags driver privateData => some (s.addNode n size flags driver privateData)
  | .openFile task lookup flags alloc => (sysOpen s task lookup flags alloc).map Prod.fst
  | .close task fd => (vfsCloseFd s task fd).map Prod.fst
  | .dup task oldFd => (sysDup s task oldFd).map Prod.fst
  | .dup2 task oldFd newFd => (sysDup2 s task oldFd newFd).map Prod.fst
  | .fork parent child => taskFork s parent child
  | .exec task => some (sysExec s task)
  | .exit task victims isInit => taskExit s task victims isInit
  | .waitpid zombie => some (s.setStatus zombie .dead)
  | .unlink n => sysUnlink s n

/-- A node is made at a free address, with fresh data; only `devfs_init`
makes the console. -/
def VfsState.Makes (s : VfsState) (n : Ptr) (driver : NodeDriver) (privateData : Option Ptr) :
    Prop :=
  s.nodes n = none ∧ driver ≠ .console ∧ ∀ p, privateData = some p → s.fileData p = none

/-- A node that path resolution can find: unlinking takes it out of the tree. -/
def VfsState.Linked (s : VfsState) (n : Ptr) : Prop :=
  ∃ node, s.nodes n = some node ∧ node.isUnlinked = false

/-- A lookup of `sys_open`. -/
def Lookup.Possible (s : VfsState) : Lookup → Prop
  | .failed _ => True
  | .found n => s.Linked n
  | .made n _ _ driver privateData => s.Makes n driver privateData

/-- An operation the kernel and its callers can ask for: callers run, a new PCB is
a free page, memory handed out was free, and only tmpfs nodes can be unlinked. -/
def FdOp.Possible (s : VfsState) : FdOp → Prop
  | .create task => s.status task = .dead
  | .mknod n _ _ driver privateData => s.Makes n driver privateData
  | .openFile task lookup _ alloc =>
    s.status task = .active ∧ lookup.Possible s ∧ ∀ of, alloc = some of → s.files of = none
  | .close task _ => s.status task = .active
  | .dup task _ => s.status task = .active
  | .dup2 task _ _ => s.status task = .active
  | .fork parent child => s.status parent = .active ∧ s.status child = .dead
  | .exec task => s.status task = .active
  | .exit task _ _ => s.status task = .active
  | .waitpid zombie => s.status zombie = .zombie
  | .unlink n => ∃ node, s.nodes n = some node ∧ node.isUnlinked = false ∧ node.driver = .tmpfs

end EnclaveOS
