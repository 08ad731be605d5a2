import EnclaveOS.Foundation.LinkedList
import EnclaveOS.Fs.Initrd
import Mathlib.Data.List.TakeWhile

/-!
# VfsPath - nodes by path

The tree part of `vfs_node_t`, the lookup and linking functions of `vfs.c` and the
callbacks of `tmpfs.c` and `fat32.c` that they call, on the objects of `Vfs`.
Children are linked by `first_child` and `next_sibling`.  `kmalloc` delivers the
pointers of a schedule, unless one is in use.  What the scan of a FAT directory finds under a name
is data of the disk.

A result `none` is an access through a null or dangling pointer, or a loop along siblings that
does not end.
-/

namespace EnclaveOS

def fsMountpoint : Nat := 0x40
def maxMountHops : Nat := 16

/-- `S_IFDIR`, octal 0040000. -/
def sIfdir : Nat := 0x4000

/-- The `finddir` callbacks. -/
inductive FindDir
  | generic
  | fat32
  deriving DecidableEq

/-- The fields of `vfs_node_t` that name a node and link it into the tree; directories of
tmpfs carry `tmpfs_create` and `tmpfs_unlink`. -/
structure VfsLinks where
  name : List Nat
  firstChild : Option Ptr
  nextSibling : Option Ptr
  mountpointNode : Option Ptr
  finddir : Option FindDir
  tmpfsDir : Bool

/-- `fat32_node_data_t`. -/
structure FatNodeData where
  startCluster : Nat
  size : Nat

/-- A directory entry on the disk. -/
structure FatDirEntry where
  isDirectory : Bool
  cluster : Nat
  fileSize : Nat

/-- The nodes with their links, and what the callbacks read besides. -/
structure VfsTreeState extends VfsState where
  root : Ptr
  links : Ptr → VfsLinks
  fatNodes : Ptr → Option FatNodeData
  fatDir : Nat → List Nat → Option FatDirEntry
  outcomes : Nat → Option Ptr
  mallocs : Nat

namespace VfsTreeState

/-- A pointer that `kmalloc` delivered and that is not freed. -/
def live (s : VfsTreeState) (p : Ptr) : Bool :=
  (s.files p).isSome || (s.nodes p).isSome || (s.fileData p).isSome || (s.fatNodes p).isSome

def setLinks (s : VfsTreeState) (n : Ptr) (links : VfsLinks) : VfsTreeState :=
  { s with links := Function.update s.links n links }

def putVfsNode (s : VfsTreeState) (n : Ptr) (node : Option VfsNode) : VfsTreeState :=
  { s with toVfsState := s.toVfsState.setNode n node }

section

variable (s : VfsTreeState) (n : Ptr) (l : VfsLinks) (node : Option VfsNode)

@[simp] theorem setLinks_toVfsState : (s.setLinks n l).toVfsState = s.toVfsState := rfl
@[simp] theorem setLinks_links : (s.setLinks n l).links = Function.update s.links n l := rfl
@[simp] theorem setLinks_root : (s.setLinks n l).root = s.root := rfl
@[simp] theorem setLinks_fatNodes : (s.setLinks n l).fatNodes = s.fatNodes := rfl
@[simp] theorem setLinks_fatDir : (s.setLinks n l).fatDir = s.fatDir := rfl
@[simp] theorem putVfsNode_toVfsState :
    (s.putVfsNode n node).toVfsState = s.toVfsState.setNode n node := rfl
@[simp] theorem putVfsNode_links : (s.putVfsNode n node).links = s.links := rfl
@[simp] theorem putVfsNode_root : (s.putVfsNode n node).root = s.root := rfl
@[simp] theorem putVfsNode_fatNodes : (s.putVfsNode n node).fatNodes = s.fatNodes := rfl
@[simp] theorem putVfsNode_fatDir : (s.putVfsNode n node).fatDir = s.fatDir := rfl

end

/-- `kmalloc` of an object. -/
def kmalloc (s : VfsTreeState) : VfsTreeState × Option Ptr :=
  ({ s with mallocs := s.mallocs + 1 }, (s.outcomes s.mallocs).filter fun p => !s.live p)

/-- The siblings from `first_child` on. -/
def children (s : VfsTreeState) (n : Ptr) : Option (List Ptr) :=
  chainFrom (fun c => (s.links c).nextSibling) 4294967296 (s.links n).firstChild

/-- `vfs_add_child`. -/
def vfsAddChild (s : VfsTreeState) (parent child : Ptr) : Option VfsTreeState :=
  let s := s.setLinks child { s.links child with nextSibling := none }
  match (s.links parent).firstChild with
  | none => some (s.setLinks parent { s.links parent with firstChild := some child })
  | some _ => do
    let current ← (← s.children parent).getLast?
    some (s.setLinks current { s.links current with nextSibling := some child })

/-- `vfs_create_node` under a parent and without data. -/
def vfsCreateNode (s : VfsTreeState) (name : List Nat) (flags : Nat) (parent : Ptr) :
    Option (VfsTreeState × Option Ptr) :=
  match s.kmalloc with
  | (s, none) => some (s, none)
  | (s, some node) => do
    let s := (s.putVfsNode node (some ⟨0, flags, .other, none, 0, false⟩)).setLinks node
      { name := name.take (vfsMaxFilename - 1)
        firstChild := none
        nextSibling := none
        mountpointNode := none
        finddir := if flags &&& fsDirectory ≠ 0 then some .generic else none
        tmpfsDir := false }
    let s ← s.vfsAddChild parent node
    some (s, some node)

/-- `vfs_generic_finddir`. -/
def vfsGenericFinddir (s : VfsTreeState) (n : Ptr) (name : List Nat) : Option (Option Ptr) :=
  (s.children n).map fun l => l.find? fun c => (s.links c).name = name

/-- `vfs_generic_readdir`: the name and the type of a child, or `none` for the end. -/
def vfsGenericReaddir (s : VfsTreeState) (n : Ptr) (index : Nat) : Option (Option Ptr) :=
  (s.children n).map fun l => l[index]?

/-- `fat32_finddir`: a node is made for an entry that is found, and its two blocks are not
checked. -/
def fat32Finddir (s : VfsTreeState) (n : Ptr) (name : List Nat) :
    Option (VfsTreeState × Option Ptr) := do
  let node ← s.nodes n
  match node.privateData with
  | none => some (s, none)
  | some p =>
    let data ← s.fatNodes p
    match s.fatDir data.startCluster name with
    | none => some (s, none)
    | some dir =>
      let flags := if dir.isDirectory then fsDirectory else fsFile
      let (s, child) ← s.vfsCreateNode name flags n
      let child ← child
      let (s, childData) := s.kmalloc
      let childData ← childData
      let s := { s with
        fatNodes := Function.update s.fatNodes childData (some ⟨dir.cluster, dir.fileSize⟩) }
      let s := s.putVfsNode child (some ⟨dir.fileSize, flags, .other, some childData, 0, false⟩)
      let finddir := if dir.isDirectory then some .fat32 else (s.links child).finddir
      some (s.setLinks child { s.links child with finddir }, some child)

/-- `tmpfs_create`: the node is linked in when all its blocks are there. -/
def tmpfsCreate (s : VfsTreeState) (parent : Ptr) (name : List Nat) (mode : Nat) :
    Option (VfsTreeState × Option Ptr) :=
  match s.kmalloc with
  | (s, none) => some (s, none)
  | (s, some newNode) =>
    let isDir := mode &&& sIfdir ≠ 0
    let s := s.setLinks newNode
      { name := name.take (vfsMaxFilename - 1)
        firstChild := none
        nextSibling := none
        mountpointNode := none
        finddir := if isDir then some .generic else none
        tmpfsDir := isDir }
    if isDir then do
      let s := s.putVfsNode newNode (some ⟨0, fsDirectory, .tmpfs, none, 0, false⟩)
      let s ← s.vfsAddChild parent newNode
      some (s, some newNode)
    else
      let s := s.putVfsNode newNode (some ⟨0, fsFile, .tmpfs, none, 0, false⟩)
      match s.kmalloc with
      | (s, none) => some (s.putVfsNode newNode none, none)
      | (s, some fdata) => do
        let s := { s with fileData := Function.update s.fileData fdata (some ⟨none, 0, 0⟩) }
        let s := s.putVfsNode newNode (some ⟨0, fsFile, .tmpfs, some fdata, 0, false⟩)
        let s ← s.vfsAddChild parent newNode
        some (s, some newNode)

/-- `current->finddir(current, token)`. -/
def finddir (s : VfsTreeState) (n : Ptr) (name : List Nat) : Option (VfsTreeState × Option Ptr) :=
  match (s.links n).finddir with
  | none => some (s, none)
  | some .generic => (s.vfsGenericFinddir n name).map fun r => (s, r)
  | some .fat32 => s.fat32Finddir n name

/-- The loop that follows mounts; `left` is `MAX_MOUNT_HOPS - hops`. -/
def teleport (s : VfsTreeState) : Nat → Ptr → Option (Option (Nat × Ptr))
  | 0, current =>
    (s.nodes current).map fun node =>
      if node.flags &&& fsMountpoint ≠ 0 then none else some (0, current)
  | left + 1, current =>
    (s.nodes current).bind fun node =>
      if node.flags &&& fsMountpoint ≠ 0 then
        match (s.links current).mountpointNode with
        | none => some none
        | some target => teleport s left target
      else some (some (left + 1, current))

/-- The loop of `vfs_findnode` over the path from `i` on. -/
def resolve (s : VfsTreeState) (left : Nat) (current : Ptr) (path : List Nat) :
    Option (VfsTreeState × Option Ptr) :=
  match _h : path.dropWhile fun c => c = slash with
  | [] => (s.teleport left current).map fun r => (s, r.map Prod.snd)
  | c :: cs =>
    let token := ((c :: cs).takeWhile fun c => c ≠ slash).take (vfsMaxFilename - 1)
    match s.teleport left current with
    | none => none
    | some none => some (s, none)
    | some (some (left, current)) =>
      match s.finddir current token with
      | none => none
      | some (s, none) => some (s, none)
      | some (s, some current) => resolve s left current ((c :: cs).drop token.length)
termination_by path.length
decreasing_by
  have hle : (c :: cs).length ≤ path.length := by
    rw [← _h]
    exact (List.dropWhile_sublist _).length_le
  have hc : c ≠ slash := by
    intro hc
    have hhead := List.head_dropWhile_not (fun c => decide (c = slash)) (l := path) (by simp [_h])
    simp [_h, hc] at hhead
  have htoken : 0 < (((c :: cs).takeWhile fun c => c ≠ slash).take (vfsMaxFilename - 1)).length := by
    rw [List.takeWhile_cons_of_pos (by simpa using hc)]
    simp [vfsMaxFilename]
  rw [List.length_drop]
  simp only [List.length_cons] at hle ⊢
  omega

end VfsTreeState

/-- `vfs_findnode`. -/
def vfsFindnode (s : VfsTreeState) : List Nat → Option (VfsTreeState × Option Ptr)
  | [] => some (s, none)
  | c :: path =>
    if c ≠ slash then some (s, none)
    else if path = [] then some (s, some s.root)
    else s.resolve maxMountHops s.root path

end EnclaveOS
