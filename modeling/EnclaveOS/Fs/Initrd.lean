import EnclaveOS.Fs.Vfs

/-!
# Initrd - mounting the boot archive

`initrd_init` of `initrd.c` on the bytes of the first boot module, and the part of
`vfs.c` that builds the tree of nodes.  A node is named by its position in the list of
nodes; `vfs_add_child` appends, so the children of a node stand in the list in the order of
the sibling chain.  The heap is empty when the archive is mounted, and its calls of
`kmalloc` succeed.  Serial output and the callbacks of the nodes are left out.
-/

namespace EnclaveOS

def fsFile : Nat := 0x01
def fsCharDevice : Nat := 0x04
def vfsMaxFilename : Nat := 256

/-- The fields of `vfs_node_t` that mounting reads and writes; `data` is the address of the
contents. -/
structure TreeNode where
  name : List Nat
  flags : Nat
  parent : Option Nat
  size : Nat
  data : Option Nat
deriving DecidableEq

abbrev VfsTree := List TreeNode

namespace VfsTree

/-- `FS_SYSTEM` is set in the flags of a node. -/
def system (t : VfsTree) (i : Nat) : Bool :=
  (t[i]?).any fun n => n.flags &&& fsSystem ≠ 0

/-- `vfs_create_node` with a parent. -/
def createNode (t : VfsTree) (name : List Nat) (flags parent size : Nat) (data : Option Nat) :
    VfsTree :=
  t ++ [⟨name.take (vfsMaxFilename - 1), flags, some parent, size, data⟩]

/-- The search of `get_or_create_dir` through the children. -/
def findChild (t : VfsTree) (parent : Nat) (name : List Nat) : Option Nat :=
  t.findIdx? fun n => n.parent = some parent ∧ n.name = name

/-- The flag a new child inherits. -/
def inherited (t : VfsTree) (parent : Nat) : Nat := if t.system parent then fsSystem else 0

/-- `get_or_create_dir`. -/
def getOrCreateDir (t : VfsTree) (parent : Nat) (name : List Nat) : VfsTree × Nat :=
  match t.findChild parent name with
  | some child => (t, child)
  | none => (t.createNode name (fsDirectory ||| t.inherited parent) parent 0 none, t.length)

/-- The directories of a path, one below the other. -/
def makeDirs (t : VfsTree) (parent : Nat) : List (List Nat) → VfsTree × Nat
  | [] => (t, parent)
  | name :: names =>
    let (t, child) := t.getOrCreateDir parent name
    makeDirs t child names

/-- `dir->flags |= FS_SYSTEM`. -/
def setSystem (t : VfsTree) (i : Nat) : VfsTree :=
  t.modify i fun n => { n with flags := n.flags ||| fsSystem }

end VfsTree

/-- The character `/`. -/
def slash : Nat := 47

/-- The name `boot`. -/
def bootName : List Nat := [98, 111, 111, 116]

/-- What one header of the archive says: the path without a leading `./` and a trailing
slash, the type, and where the contents lie. -/
structure TarEntry where
  path : List Nat
  typeflag : Nat
  size : Nat
  data : Nat
deriving DecidableEq

/-- The loop over a path: the names in front of the slashes, without the empty ones, and what is
left behind the last slash.  Each name is cut to fit its buffer. -/
def splitPath (token : List Nat) : List Nat → List (List Nat) × List Nat
  | [] => ([], token.take (vfsMaxFilename - 1))
  | c :: cs =>
    if c = slash then
      let (dirs, file) := splitPath [] cs
      (if token = [] then dirs else token.take (vfsMaxFilename - 1) :: dirs, file)
    else splitPath (token ++ [c]) cs

namespace TarEntry

def dirs (e : TarEntry) : List (List Nat) := (splitPath [] e.path).1
def file (e : TarEntry) : List Nat := (splitPath [] e.path).2

/-- `typeflag == '5'`. -/
def IsDir (e : TarEntry) : Prop := e.path ≠ [] ∧ e.typeflag = 53

/-- `typeflag == '0'`, or the old spelling of it. -/
def IsFile (e : TarEntry) : Prop := e.path ≠ [] ∧ (e.typeflag = 48 ∨ e.typeflag = 0)

instance (e : TarEntry) : Decidable e.IsDir := inferInstanceAs (Decidable (_ ∧ _))
instance (e : TarEntry) : Decidable e.IsFile := inferInstanceAs (Decidable (_ ∧ _))

end TarEntry

/-- What `initrd_init` makes of one entry: the directories of its path, and its own node. -/
def mountEntry (t : VfsTree) (e : TarEntry) : VfsTree :=
  if e.path = [] then t
  else
    let (t, parent) := t.makeDirs 0 e.dirs
    if e.typeflag = 53 then
      let (t, dir) := t.getOrCreateDir parent e.file
      if parent = 0 ∧ e.file = bootName then t.setSystem dir else t
    else if e.typeflag = 48 ∨ e.typeflag = 0 then
      t.createNode e.file (fsFile ||| t.inherited parent) parent e.size (some e.data)
    else t

/-- The tree `vfs_init` and `devfs_init` leave: the root, `/dev` and
`/dev/console`. -/
def devTree : VfsTree :=
  [⟨[47], fsDirectory, none, 0, none⟩, ⟨[100, 101, 118], fsDirectory, some 0, 0, none⟩,
    ⟨[99, 111, 110, 115, 111, 108, 101], fsCharDevice, some 1, 0, none⟩]

/-- The tree after the entries of an archive. -/
def mountAll (es : List TarEntry) : VfsTree := es.foldl mountEntry devTree

/-- The first module of the loader: its extent, and the bytes of memory at virtual addresses. -/
structure BootModule where
  tarStart : Nat
  tarEnd : Nat
  mem : Nat → Nat

namespace BootModule

variable (m : BootModule)

/-- `PHYS_TO_VIRT`. -/
def physToVirt (phys : Nat) : Nat := wrap32 (phys + kernelSpaceStart)

/-- `count` bytes of a header field. -/
def bytes (h offset count : Nat) : List Nat :=
  (List.range' offset count).map fun i => m.mem (wrap32 (h + i))

/-- `initrd_strncpy` into a buffer of `size` bytes. -/
def strncpy (h offset size : Nat) : List Nat :=
  (m.bytes h offset (size - 1)).takeWhile fun c => c ≠ 0

/-- The magic of a header is `ustar`. -/
def magicAt (h : Nat) : Bool := m.bytes h 257 5 = [117, 115, 116, 97, 114]

/-- `parse_octal`. -/
def parseOctal (digits : List Nat) : Nat :=
  (digits.takeWhile fun c => 48 ≤ c ∧ c ≤ 55).foldl (fun acc c => wrap32 (acc * 8 + (c - 48))) 0

/-- `prefix` and `name` joined. -/
def fullPath (h : Nat) : List Nat :=
  let pre := m.strncpy h 345 155
  let pre := if pre ≠ [] ∧ pre.getLast? ≠ some slash then pre ++ [slash] else pre
  pre ++ m.strncpy h 0 100

/-- The path without `./` in front and without one slash at its end. -/
def cleanPath (path : List Nat) : List Nat :=
  let path := if path.take 2 = [46, slash] then path.drop 2 else path
  if path.getLast? = some slash then path.dropLast else path

/-- The entry of a header. -/
def entryAt (h : Nat) : TarEntry :=
  ⟨cleanPath (m.fullPath h), m.mem (wrap32 (h + 156)), parseOctal (m.bytes h 124 12),
    wrap32 (h + 512)⟩

/-- The search for the first header, at most 8 KB into the module. -/
def searchHeader : Nat → Nat → Nat
  | 0, h => h
  | fuel + 1, h =>
    if h < physToVirt (m.tarStart + 8192) ∧ h < physToVirt m.tarEnd then
      if m.magicAt h then h else searchHeader fuel (wrap32 (h + 512))
    else h

/-- The header loop.  The contents of an entry are skipped in blocks of 512 bytes; an entry
without a name has none. -/
def walkHeaders : Nat → Nat → Option (List TarEntry)
  | 0, _ => none
  | fuel + 1, h =>
    if physToVirt m.tarEnd ≤ h then some []
    else if m.mem h = 0 then
      if m.mem (wrap32 (h + 257)) = 0 then some [] else walkHeaders fuel (wrap32 (h + 512))
    else if !m.magicAt h then some []
    else
      let e := m.entryAt h
      let dataBlocks := wrap32 (e.size + 511) / 512
      (walkHeaders fuel (wrap32 (h + 512 + dataBlocks * 512))).map (e :: ·)

/-- The entries that `initrd_init` mounts; `none` when the fuel is spent before the loop
ends. -/
def readArchive (fuel : Nat) : Option (List TarEntry) :=
  if m.tarStart = 0 ∨ m.tarEnd ≤ m.tarStart then some []
  else
    let h := m.searchHeader 17 (physToVirt m.tarStart)
    if m.magicAt h then m.walkHeaders fuel h else some []

/-- `initrd_init`. -/
def initrdInit (fuel : Nat) : Option VfsTree := (m.readArchive fuel).map mountAll

end BootModule
end EnclaveOS
