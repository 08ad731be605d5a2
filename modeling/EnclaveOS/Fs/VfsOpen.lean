import EnclaveOS.Fs.VfsPath

/-!
# VfsOpen - the calls that take a path

`sys_open` and `sys_unlink` of `vfs.c` and `sys_mkdir_handler` of
`syscall.c` on the nodes of `VfsPath`, with the open files and descriptors of `Vfs`.
A path is the string in kernel memory; the buffers for its parts hold 256 bytes.
-/

namespace EnclaveOS

def oCreat : Nat := 0x0040
def vfsENoEnt : Int := 2
def vfsEInval : Int := 22
def eNotDir : Int := 20
def vfsEPerm : Int := 1
def eExist : Int := 17
def eNotEmpty : Int := 39

/-- The loop that looks for the last slash of a path. -/
def lastSlash (path : List Nat) : Option Nat :=
  (List.range path.length).reverse.find? fun i => path[i]? = some slash

/-- The path of the parent directory, when the last slash stands at `i`. -/
def parentPath (path : List Nat) (i : Nat) : List Nat :=
  if i = 0 then [slash] else path.take i

namespace VfsTreeState

/-- The loop that follows mounts without counting them. -/
def followMounts (s : VfsTreeState) : Nat → Ptr → Option (Option Ptr)
  | 0, _ => none
  | fuel + 1, parent => do
    let node ← s.nodes parent
    if node.flags &&& fsMountpoint ≠ 0 then
      match (s.links parent).mountpointNode with
      | none => some none
      | some target => followMounts s fuel target
    else some (some parent)

/-- The directory in which `sys_open` creates and `sys_unlink` removes, and the name in
it.  There are no more mounts to follow than nodes, unless the loop does not end. -/
def openParent (s : VfsTreeState) (path : List Nat) :
    Option (VfsTreeState × Except Int (Ptr × List Nat)) :=
  if path = [] ∨ path.head? ≠ some slash then some (s, .error (-vfsENoEnt))
  else
    match lastSlash path with
    | none => some (s, .error (-vfsENoEnt))
    | some i =>
      if 256 ≤ i then none
      else do
        let (s, parent) ← vfsFindnode s (parentPath path i)
        match parent with
        | none => some (s, .error (-vfsENoEnt))
        | some parent =>
          match ← s.followMounts 4294967297 parent with
          | none => some (s, .error (-vfsENoEnt))
          | some parent => do
            let node ← s.nodes parent
            if node.flags &&& fsDirectory = 0 then some (s, .error (-vfsEAcces))
            else if !(s.links parent).tmpfsDir then some (s, .error (-vfsEAcces))
            else some (s, .ok (parent, (path.drop (i + 1)).take 255))

/-- The end of `sys_open`, once the node is known. -/
def openAt (s : VfsTreeState) (task : TaskId) (n : Ptr) (flags : Nat) :
    Option (VfsTreeState × Int) :=
  let (s, file) := s.kmalloc
  (openNode s.toVfsState task n flags file).map fun r => ({ s with toVfsState := r.1 }, r.2)

/-- `sys_open`. -/
def sysOpen (s : VfsTreeState) (task : TaskId) (path : List Nat) (flags mode : Nat) :
    Option (VfsTreeState × Int) := do
  let (s, node) ← vfsFindnode s path
  match node with
  | some n => s.openAt task n flags
  | none =>
    if flags &&& oCreat = 0 then some (s, -vfsENoEnt)
    else do
      let (s, parent) ← s.openParent path
      match parent with
      | .error e => some (s, e)
      | .ok (parent, name) => do
        let (s, node) ← s.tmpfsCreate parent name mode
        match node with
        | none => some (s, -vfsENoMem)
        | some n => s.openAt task n flags

/-- `vfs_close_fd`. -/
def closeFd (s : VfsTreeState) (task : TaskId) (fd : Int) : Option (VfsTreeState × Int) :=
  (vfsCloseFd s.toVfsState task fd).map fun r => ({ s with toVfsState := r.1 }, r.2)

/-- `tmpfs_unlink`; the caller marks the node. -/
def tmpfsUnlink (s : VfsTreeState) (parent : Ptr) (name : List Nat) :
    Option (VfsTreeState × Int) := do
  let l ← s.children parent
  match l.dropWhile fun c => (s.links c).name ≠ name with
  | [] => some (s, -vfsENoEnt)
  | curr :: _ =>
    let node ← s.nodes curr
    if node.flags &&& fsDirectory ≠ 0 ∧ (s.links curr).firstChild ≠ none then
      some (s, -eNotEmpty)
    else
      let next := (s.links curr).nextSibling
      let s :=
        match (l.takeWhile fun c => (s.links c).name ≠ name).getLast? with
        | some prev => s.setLinks prev { s.links prev with nextSibling := next }
        | none => s.setLinks parent { s.links parent with firstChild := next }
      some (s.setLinks curr { s.links curr with nextSibling := none }, 0)

/-- `sys_unlink`. -/
def sysUnlink (s : VfsTreeState) (path : List Nat) : Option (VfsTreeState × Int) := do
  let (s, parent) ← s.openParent path
  match parent with
  | .error e => some (s, e)
  | .ok (parent, name) => do
    let (s, target) ← s.finddir parent name
    match target with
    | none => some (s, -vfsENoEnt)
    | some target => do
      let (s, ret) ← s.tmpfsUnlink parent name
      if ret ≠ 0 then some (s, ret)
      else (EnclaveOS.sysUnlink s.toVfsState target).map fun r => ({ s with toVfsState := r }, 0)

/-- `sys_mkdir_handler` on the path it copied. -/
def sysMkdir (s : VfsTreeState) (path : List Nat) (mode : Nat) : Option (VfsTreeState × Int) :=
  if path = [] ∨ 256 ≤ path.length then some (s, -vfsEInval)
  else
    match lastSlash path with
    | none => some (s, -vfsEInval)
    | some i =>
      let name := path.drop (i + 1)
      if name = [] then some (s, -vfsEInval)
      else do
        let (s, parent) ← vfsFindnode s (parentPath path i)
        match parent with
        | none => some (s, -vfsENoEnt)
        | some parent => do
          let node ← s.nodes parent
          if node.flags &&& fsDirectory = 0 then some (s, -eNotDir)
          else if node.flags &&& fsSystem ≠ 0 then some (s, -vfsEAcces)
          else if !(s.links parent).tmpfsDir then some (s, -vfsEPerm)
          else do
            let (s, old) ← s.finddir parent name
            match old with
            | some _ => some (s, -eExist)
            | none => do
              let (s, newDir) ← s.tmpfsCreate parent name (mode &&& 0xFFF ||| sIfdir)
              match newDir with
              | none => some (s, -vfsENoMem)
              | some _ => some (s, 0)

end VfsTreeState

end EnclaveOS
