import EnclaveOS.Foundation.Scan
import EnclaveOS.Fs.Fat32

/-!
# FatVolume - the FAT32 driver

`fat32.c` as a whole: mounting a partition, the cached FAT sector, reading a file, and
the two walks over a directory with their long-name buffers.  A call that follows a cluster
chain is run for a number of rounds, one a cluster; it may still be running after them.
`kmalloc` delivers.
-/

namespace EnclaveOS

open ByteMemory

/-- `fat_sector_buffer` and `fat_buffer_sector`. -/
structure FatCache where
  buffer : Bytes
  sector : Nat

/-- The cache at boot. -/
def FatCache.boot : FatCache := ⟨fun _ => 0, 0⟩

/-- The fields of `fat32_fs_t` that are used after the mount. -/
structure Fat32Volume where
  partitionLba : Nat
  sectorsPerCluster : Nat
  rootCluster : Nat
  firstDataSector : Nat
  fat1Lba : Nat

/-- `partition_info_t`: the type and the first sector. -/
structure PartitionInfo where
  type : Nat
  lbaStart : Nat

/-- A 16-bit field. -/
def loadHalf (mem : Bytes) (a : Nat) : Nat := (mem (a + 1)).toNat * 256 + (mem a).toNat

/-- `fat32_init`: the first FAT32 partition, if its boot sector has sectors of 512 bytes. -/
def fat32Init (disk : Disk) (partitions : List PartitionInfo) : Option Fat32Volume := do
  let part ← partitions.find? fun p => p.type = 0x0B ∨ p.type = 0x0C
  let bootSector ← disk part.lbaStart
  if loadHalf bootSector 11 ≠ 512 then none
  else
    let reservedSectors := loadHalf bootSector 14
    let numFats := (bootSector 16).toNat
    let fatSize32 := (loadWord bootSector 36).toNat
    some {
      partitionLba := part.lbaStart
      sectorsPerCluster := (bootSector 13).toNat
      rootCluster := (loadWord bootSector 44).toNat
      firstDataSector := wrap32 (reservedSectors + numFats * fatSize32)
      fat1Lba := wrap32 (part.lbaStart + reservedSectors) }

namespace Fat32Volume

variable (disk : Disk) (v : Fat32Volume)

/-- `cluster_to_lba`. -/
def clusterToLba (cluster : Nat) : Nat :=
  wrap32 (v.partitionLba + v.firstDataSector +
    wrap32 (cluster + 4294967296 - 2) * v.sectorsPerCluster)

/-- The sector of the FAT with the entry of a cluster. -/
def fatSector (cluster : Nat) : Nat := wrap32 (v.fat1Lba + wrap32 (cluster * 4) / 512)

/-- The entry of a cluster in its FAT sector. -/
def fatEntry (buffer : Bytes) (cluster : Nat) : Nat :=
  (loadWord buffer (wrap32 (cluster * 4) % 512) &&& 0x0FFFFFFF#32).toNat

/-- `fat32_next_cluster`: a failing read leaves the cached sector as it is. -/
def nextCluster (cluster : Nat) (cache : FatCache) : Nat × FatCache :=
  if v.fatSector cluster = cache.sector then (fatEntry cache.buffer cluster, cache)
  else
    match disk (v.fatSector cluster) with
    | none => (fat32Eof, cache)
    | some buffer => (fatEntry buffer cluster, ⟨buffer, v.fatSector cluster⟩)

end Fat32Volume

/-- `fat32_node_data_t`. -/
structure Fat32NodeData where
  fs : Option Fat32Volume
  startCluster : Nat
  size : Nat

/-- The fields of `vfs_node_t` that the driver uses. -/
structure FatNode where
  name : List (BitVec 8)
  flags : Nat
  size : Nat
  privateData : Option Fat32NodeData

/-- The root node that `fat32_init` makes, named `fat32_root`. -/
def Fat32Volume.root (v : Fat32Volume) : FatNode where
  name := "fat32_root".toList.map fun c => BitVec.ofNat 8 c.toNat
  flags := 0x02
  size := 0
  privateData := some ⟨some v, v.rootCluster, 0⟩

/-- A call that follows a cluster chain. -/
inductive FatResult (α : Type)
  /-- More rounds are needed. -/
  | running
  /-- The processor has divided by zero. -/
  | divideError
  /-- A byte was stored outside of `lfn_buffer`. -/
  | overrun
  /-- The call has returned. -/
  | done (a : α) (cache : FatCache)

/-- The clusters whose sectors a call reads, and how the call goes. -/
structure FatCall (α : Type) where
  visited : List Nat
  result : FatResult α

/-- The volume and the first cluster of a node. -/
def FatNode.volume (node : FatNode) : Option (Fat32Volume × Nat) := do
  let data ← node.privateData
  let fs ← data.fs
  some (fs, data.startCluster)

namespace Fat32Volume

variable (disk : Disk) (v : Fat32Volume)

/-- The loop that skips the clusters before the offset. -/
def skipClusters : Nat → Nat → FatCache → Option Nat × FatCache
  | 0, cluster, cache => (some cluster, cache)
  | n + 1, cluster, cache =>
    let (cluster, cache) := v.nextCluster disk cluster cache
    if fat32Eof ≤ cluster then (none, cache) else skipClusters n cluster cache

/-- The loop over the clusters of a file. -/
def readClusters (size : Nat) : Nat → Nat → FatCache → Nat → List (BitVec 8) →
    FatCall (Int × List (BitVec 8))
  | 0, _, _, _, _ => ⟨[], .running⟩
  | rounds + 1, cluster, cache, clusterOffset, out =>
    if out.length < size ∧ cluster < fat32Eof then
      match fat32ReadSectors disk (v.clusterToLba cluster) size (List.range v.sectorsPerCluster)
          clusterOffset out with
      | (true, out) => ⟨[cluster], .done (int32 out.length, out) cache⟩
      | (false, out) =>
        let next := v.nextCluster disk cluster cache
        let rest := readClusters size rounds next.1 next.2 0 out
        ⟨cluster :: rest.visited, rest.result⟩
    else ⟨[], .done (int32 out.length, out) cache⟩

end Fat32Volume

/-- `fat32_read`: the return value and the bytes stored. -/
def FatNode.read (disk : Disk) (node : FatNode) (offset size rounds : Nat) (cache : FatCache) :
    FatCall (Int × List (BitVec 8)) :=
  match node.volume with
  | none => ⟨[], .done (0, []) cache⟩
  | some (v, startCluster) =>
    if node.size ≤ offset then ⟨[], .done (0, []) cache⟩
    else
      let size := if node.size < wrap32 (offset + size) then node.size - offset else size
      if v.sectorsPerCluster = 0 then ⟨[], .divideError⟩
      else
        match v.skipClusters disk (offset / (v.sectorsPerCluster * 512)) startCluster cache with
        | (none, cache) => ⟨[], .done (0, []) cache⟩
        | (some cluster, cache) =>
          v.readClusters disk size rounds cluster cache (offset % (v.sectorsPerCluster * 512)) []

/-- The 32 bytes of `fat32_dir_entry_t` and of `fat32_lfn_entry_t`. -/
abbrev DirEntry := Nat → BitVec 8

namespace DirEntry

variable (dir : DirEntry)

def attr : BitVec 8 := dir 11

/-- `cluster_hi` and `cluster_lo`. -/
def cluster : Nat := loadHalf dir 20 * 65536 + loadHalf dir 26

def fileSize : Nat := (loadWord dir 28).toNat

/-- `order` of a long-name entry. -/
def order : BitVec 8 := dir 0

/-- `checksum` of a long-name entry. -/
def checksum : BitVec 8 := dir 13

/-- `name1`, `name2` and `name3` of a long-name entry. -/
def units : List (BitVec 16) :=
  (List.range 5).map (fun j => dir (2 + 2 * j) ++ dir (1 + 2 * j)) ++
    (List.range 6).map (fun j => dir (15 + 2 * j) ++ dir (14 + 2 * j)) ++
    (List.range 2).map (fun j => dir (29 + 2 * j) ++ dir (28 + 2 * j))

end DirEntry

def fat32AttrVolumeId : BitVec 8 := 0x08
def fat32AttrDirectory : BitVec 8 := 0x10
def fat32AttrLfn : BitVec 8 := 0x0F
def fat32EntryDeleted : BitVec 8 := 0xE5
def fat32EntryEnd : BitVec 8 := 0x00
def space : BitVec 8 := 0x20
def dot : BitVec 8 := 0x2E

/-- `ucs2_to_utf8`: the bytes it stores. -/
def ucs2ToUtf8 (ucs2 : BitVec 16) : List (BitVec 8) :=
  if ucs2 < 0x80 then [ucs2.setWidth 8]
  else if ucs2 < 0x800 then
    [0xC0 ||| (ucs2 >>> 6).setWidth 8, 0x80 ||| (ucs2 &&& 0x3F).setWidth 8]
  else
    [0xE0 ||| (ucs2 >>> 12).setWidth 8, 0x80 ||| ((ucs2 >>> 6) &&& 0x3F).setWidth 8,
      0x80 ||| (ucs2 &&& 0x3F).setWidth 8]

/-- `lfn_checksum`. -/
def lfnChecksum (name : DirEntry) : BitVec 8 :=
  (List.range 11).foldl
    (fun sum i => (if sum &&& 1 ≠ 0 then 0x80 else 0) + (sum >>> 1) + name i) 0

/-- The name of an entry without a long name, as both walks build it. -/
def shortName (dir : DirEntry) : List (BitVec 8) :=
  ((List.range 8).map dir).takeWhile (· ≠ space) ++
    if dir 8 ≠ space then dot :: ((List.range 3).map fun j => dir (8 + j)).takeWhile (· ≠ space)
    else []

/-- `lfn_buffer`, `expected_checksum` and `lfn_active`. -/
structure LfnState where
  buffer : Bytes
  expectedChecksum : BitVec 8
  active : Bool

/-- The three variables at the start of a walk. -/
def LfnState.start (buffer : Bytes) : LfnState := ⟨buffer, 0, false⟩

/-- The loops over the units of a long-name entry, or nothing if a byte falls outside of the
buffer. -/
def lfnStore : List (BitVec 16) → Int → Bytes → Option Bytes
  | [], _, buffer => some buffer
  | unit :: rest, pos, buffer =>
    if unit ≠ 0xFFFF then
      if 0 ≤ pos ∧ pos + (ucs2ToUtf8 unit).length ≤ 256 then
        lfnStore rest (pos + (ucs2ToUtf8 unit).length)
          (storeBytes buffer pos.toNat (ucs2ToUtf8 unit))
      else none
    else lfnStore rest pos buffer

/-- A long-name entry, in both walks. -/
def lfnEntry (lfn : DirEntry) (s : LfnState) : Option LfnState :=
  let s := if lfn.order &&& 0x40 ≠ 0 then ⟨fun _ => 0, lfn.checksum, true⟩ else s
  if s.active ∧ lfn.checksum = s.expectedChecksum then
    let pos : Int := (((lfn.order &&& 0x1F).toNat : Int) - 1) * 13
    (lfnStore lfn.units pos s.buffer).map fun buffer => { s with buffer := buffer }
  else some s

/-- `k_strncpy`. -/
def kStrncpy (dest src : Bytes) (n : Nat) : Bytes := fun i =>
  if i < n then if ∀ j ≤ i, src j ≠ 0 then src i else 0 else dest i

/-- The string in a buffer of 256 bytes. -/
def nameIn (buffer : Bytes) : List (BitVec 8) :=
  ((List.range 256).map buffer).takeWhile (· ≠ 0)

/-- The entries of a sector. -/
def sectorEntries (secBuf : Bytes) : List DirEntry :=
  (List.range 16).map fun i k => secBuf (i * 32 + k)

section Walk

variable {σ α : Type} (disk : Disk)

/-- The loop over the sectors of a cluster; an unreadable one ends the walk. -/
def scanSectors (step : DirEntry → σ → Scan σ (Option α)) (lba : Nat) :
    List Nat → σ → Scan σ (Option α)
  | [], s => .next s
  | i :: rest, s =>
    match disk (wrap32 (lba + i)) with
    | none => .done none
    | some secBuf => (scanList step (sectorEntries secBuf) s).andThen (scanSectors step lba rest)

/-- The loop over the clusters of a directory. -/
def Fat32Volume.walk (v : Fat32Volume) (step : DirEntry → σ → Scan σ (Option α)) :
    Nat → Nat → FatCache → σ → FatCall (Option α)
  | 0, _, _, _ => ⟨[], .running⟩
  | rounds + 1, cluster, cache, s =>
    if cluster < fat32Eof then
      match scanSectors disk step (v.clusterToLba cluster) (List.range v.sectorsPerCluster) s with
      | .next s =>
        let next := v.nextCluster disk cluster cache
        let rest := Fat32Volume.walk v step rounds next.1 next.2 s
        ⟨cluster :: rest.visited, rest.result⟩
      | .done a => ⟨[cluster], .done a cache⟩
      | .overrun => ⟨[cluster], .overrun⟩
    else ⟨[], .done none cache⟩

end Walk

/-- The fields of `dirent_t` that `fat32_readdir` stores. -/
structure FatDirent where
  ino : Nat
  name : Bytes

/-- `current_index` and the long name of `fat32_readdir`. -/
structure ReaddirState where
  currentIndex : Nat
  lfn : LfnState

/-- One entry in `fat32_readdir`. -/
def readdirEntry (index : Nat) (entry : FatDirent) (dir : DirEntry) (s : ReaddirState) :
    Scan ReaddirState (Option FatDirent) :=
  if dir 0 = fat32EntryEnd then .done none
  else if dir 0 = fat32EntryDeleted then .next s
  else if dir.attr = fat32AttrLfn then
    match lfnEntry dir s.lfn with
    | none => .overrun
    | some lfn => .next { s with lfn := lfn }
  else
    let active := s.lfn.active && !(s.lfn.active && lfnChecksum dir ≠ s.lfn.expectedChecksum)
    if dir.attr &&& fat32AttrVolumeId ≠ 0 then .next { s with lfn.active := false }
    else if s.currentIndex = index then
      .done (some {
        ino := dir.cluster
        name :=
          if active ∧ s.lfn.buffer 0 ≠ 0 then kStrncpy entry.name s.lfn.buffer 255
          else storeBytes entry.name 0 (shortName dir ++ [0]) })
    else .next { s with currentIndex := wrap32 (s.currentIndex + 1), lfn.active := false }

/-- `fat32_readdir`: the entry filled in, or the error. -/
def FatNode.readdir (disk : Disk) (node : FatNode) (index : Nat) (entry : FatDirent)
    (rounds : Nat) (cache : FatCache) : FatCall (Option FatDirent) :=
  match node.volume with
  | none => ⟨[], .done none cache⟩
  | some (v, startCluster) =>
    v.walk disk (readdirEntry index entry) rounds startCluster cache
      ⟨0, .start fun _ => 0⟩

/-- The node that `fat32_finddir` makes for an entry. -/
def fatChild (fs : Fat32Volume) (name : List (BitVec 8)) (dir : DirEntry) : FatNode where
  name := name
  flags := if dir.attr &&& fat32AttrDirectory ≠ 0 then 0x02 else 0x01
  size := dir.fileSize
  privateData := some ⟨some fs, dir.cluster, dir.fileSize⟩

/-- One entry in `fat32_finddir`; `stack` is what `final_name` held before. -/
def finddirEntry (fs : Fat32Volume) (name : List (BitVec 8)) (stack : Bytes) (dir : DirEntry)
    (s : LfnState) : Scan LfnState (Option FatNode) :=
  if dir 0 = fat32EntryEnd then .done none
  else if dir 0 = fat32EntryDeleted then .next s
  else if dir.attr = fat32AttrLfn then
    match lfnEntry dir s with
    | none => .overrun
    | some s => .next s
  else if dir.attr &&& fat32AttrVolumeId ≠ 0 then .next { s with active := false }
  else
    let finalName :=
      if s.active ∧ lfnChecksum dir = s.expectedChecksum ∧ s.buffer 0 ≠ 0 then
        kStrncpy stack s.buffer 255
      else storeBytes stack 0 (shortName dir ++ [0])
    if nameIn finalName = name then .done (some (fatChild fs name dir))
    else .next { s with active := false }

/-- `fat32_finddir`; `stack` is what its two buffers held before. -/
def FatNode.finddir (disk : Disk) (node : FatNode) (name : List (BitVec 8)) (stack : Bytes × Bytes)
    (rounds : Nat) (cache : FatCache) : FatCall (Option FatNode) :=
  match node.volume with
  | none => ⟨[], .done none cache⟩
  | some (v, startCluster) =>
    v.walk disk (finddirEntry v name stack.2) rounds startCluster cache (.start stack.1)

/-- The FAT lies behind the first sector of the disk. -/
def Fat32Volume.FatBehindBoot (v : Fat32Volume) : Prop :=
  0 < v.fat1Lba ∧ v.fat1Lba + 8388608 ≤ 4294967296

/-- The cached sector was read from the disk, or none was read yet. -/
def FatCache.Valid (disk : Disk) (cache : FatCache) : Prop :=
  cache.sector = 0 ∨ disk cache.sector = some cache.buffer

theorem FatCache.boot_valid (disk : Disk) : FatCache.boot.Valid disk := Or.inl rfl

/-- A volume whose clusters have sectors. -/
def Fat32Volume.toFs (v : Fat32Volume) (h : 0 < v.sectorsPerCluster) : Fat32Fs :=
  ⟨v.partitionLba, v.firstDataSector, v.sectorsPerCluster, v.fat1Lba, h⟩

section Cache

variable {disk : Disk} {v : Fat32Volume} {cache : FatCache}

theorem toFs_sectorsPerCluster (h : 0 < v.sectorsPerCluster) :
    (v.toFs h).sectorsPerCluster = v.sectorsPerCluster := rfl

theorem toFs_clusterToLba (h : 0 < v.sectorsPerCluster) (cluster : Nat) :
    clusterToLba (v.toFs h) cluster = v.clusterToLba cluster := rfl

theorem Fat32Volume.FatBehindBoot.fatSector_ne (h : v.FatBehindBoot) (cluster : Nat) :
    v.fatSector cluster ≠ 0 := by
  obtain ⟨hpos, hfit⟩ := h
  unfold Fat32Volume.fatSector wrap32
  omega

/-- The cached sector stays one of the disk. -/
theorem FatCache.Valid.nextCluster (h : cache.Valid disk) (cluster : Nat) :
    (v.nextCluster disk cluster cache).2.Valid disk := by
  unfold Fat32Volume.nextCluster
  split_ifs
  · exact h
  · cases hdisk : disk (v.fatSector cluster) with
    | none => exact h
    | some buffer => exact Or.inr hdisk

/-- The link of a cluster in the FAT on the disk. -/
def Fat32Volume.link (disk : Disk) (v : Fat32Volume) (cluster : Nat) : Nat :=
  match disk (v.fatSector cluster) with
  | none => fat32Eof
  | some buffer => Fat32Volume.fatEntry buffer cluster

/-- The cached sector answers as the disk does. -/
theorem nextCluster_link (hfat : v.FatBehindBoot) (h : cache.Valid disk) (cluster : Nat) :
    (v.nextCluster disk cluster cache).1 = v.link disk cluster := by
  have hne := hfat.fatSector_ne cluster
  unfold Fat32Volume.nextCluster Fat32Volume.link
  by_cases hhit : v.fatSector cluster = cache.sector
  · rw [if_pos hhit]
    rcases h with hzero | hdisk
    · exact absurd (hhit.trans hzero) hne
    · rw [hhit, hdisk]
  · rw [if_neg hhit]
    cases disk (v.fatSector cluster) <;> rfl

/-- A cluster that is read to its end delivers bytes. -/
theorem fat32ReadSectors_grows (lba size : Nat) {sectors : List Nat} {clusterOffset : Nat}
    {out out' : List (BitVec 8)} (hoff : clusterOffset < sectors.length * 512)
    (hlt : out.length < size)
    (h : fat32ReadSectors disk lba size sectors clusterOffset out = (false, out')) :
    out.length < out'.length ∧ out'.length < size := by
  induction sectors generalizing clusterOffset out with
  | nil => exact absurd hoff (by simp)
  | cons s rest ih =>
    rw [fat32ReadSectors] at h
    by_cases hskip : 512 ≤ clusterOffset
    · rw [if_pos hskip] at h
      exact ih (by rw [List.length_cons] at hoff; omega) hlt h
    · rw [if_neg hskip] at h
      cases hdisk : disk (wrap32 (lba + s)) with
      | none =>
        rw [hdisk] at h
        cases h
      | some secBuf =>
        rw [hdisk] at h
        dsimp only at h
        have hlen : (out ++ (List.range (min (512 - clusterOffset) (size - out.length))).map
            fun i => secBuf (clusterOffset + i)).length =
            out.length + min (512 - clusterOffset) (size - out.length) := by
          rw [List.length_append, List.length_map, List.length_range]
        by_cases hfull : size ≤ out.length + min (512 - clusterOffset) (size - out.length)
        · rw [if_pos (hlen ▸ hfull)] at h
          cases h
        · rw [if_neg (hlen ▸ hfull)] at h
          by_cases hrest : rest = []
          · subst hrest
            rw [fat32ReadSectors] at h
            cases h
            rw [hlen]
            omega
          · have hpos := List.length_pos_iff.mpr hrest
            obtain ⟨hmore, hsize⟩ := ih (by omega) (by omega) h
            rw [hlen] at hmore
            omega

end Cache

end EnclaveOS
