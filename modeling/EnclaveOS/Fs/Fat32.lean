import EnclaveOS.Config
import EnclaveOS.Foundation.ByteMemory
import Mathlib.Data.List.GetD

/-!
# Fat32 - reading files from a disk

`fat32_read` of `fat32.c`.  The disk answers a read of one sector with its bytes
or with an error; nothing in the kernel writes it, so the cache of one FAT sector is not
modelled.
-/

namespace EnclaveOS

open ByteMemory

/-- `ata_read_sectors` for one sector. -/
abbrev Disk := Nat → Option Bytes

/-- The fields of `fat32_fs_t` that a read uses. -/
structure Fat32Fs where
  partitionLba : Nat
  firstDataSector : Nat
  sectorsPerCluster : Nat
  fat1Lba : Nat
  spcPos : 0 < sectorsPerCluster

/-- `fat32_node_data_t`. -/
structure Fat32Data where
  fs : Fat32Fs
  startCluster : Nat

/-- The fields of `vfs_node_t` that a read uses. -/
structure Fat32Node where
  size : Nat
  privateData : Option Fat32Data

def fat32Eof : Nat := 0x0FFFFFF8

/-- `cluster_to_lba`. -/
def clusterToLba (fs : Fat32Fs) (cluster : Nat) : Nat :=
  wrap32 (fs.partitionLba + fs.firstDataSector +
    wrap32 (cluster + 4294967296 - 2) * fs.sectorsPerCluster)

/-- `fat32_next_cluster`. -/
def fat32NextCluster (disk : Disk) (fs : Fat32Fs) (cluster : Nat) : Nat :=
  let fatOffset := wrap32 (cluster * 4)
  let fatSector := wrap32 (fs.fat1Lba + fatOffset / 512)
  let entOffset := fatOffset % 512
  match disk fatSector with
  | none => fat32Eof
  | some buffer => (loadWord buffer entOffset &&& 0x0FFFFFFF#32).toNat

/-- The loop over the sectors of a cluster: whether `fat32_read` returns from it, and the
bytes copied so far. -/
def fat32ReadSectors (disk : Disk) (lba size : Nat) :
    List Nat → Nat → List (BitVec 8) → Bool × List (BitVec 8)
  | [], _, out => (false, out)
  | s :: rest, clusterOffset, out =>
    if 512 ≤ clusterOffset then
      fat32ReadSectors disk lba size rest (clusterOffset - 512) out
    else
      match disk (wrap32 (lba + s)) with
      | none => (true, out)
      | some secBuf =>
        let toCopy := min (512 - clusterOffset) (size - out.length)
        let out := out ++ (List.range toCopy).map fun i => secBuf (clusterOffset + i)
        if size ≤ out.length then (true, out)
        else fat32ReadSectors disk lba size rest 0 out

/-- The loop over the clusters, with a bound on its rounds. -/
def fat32ReadClusters (disk : Disk) (fs : Fat32Fs) (size : Nat) :
    Nat → Nat → Nat → List (BitVec 8) → List (BitVec 8)
  | 0, _, _, out => out
  | rounds + 1, cluster, clusterOffset, out =>
    if out.length < size ∧ cluster < fat32Eof then
      match fat32ReadSectors disk (clusterToLba fs cluster) size
          (List.range fs.sectorsPerCluster) clusterOffset out with
      | (true, out) => out
      | (false, out) =>
        fat32ReadClusters disk fs size rounds (fat32NextCluster disk fs cluster) 0 out
    else out

/-- The loop that skips the clusters before the offset. -/
def fat32SkipClusters (disk : Disk) (fs : Fat32Fs) : Nat → Nat → Option Nat
  | 0, cluster => some cluster
  | n + 1, cluster =>
    let cluster := fat32NextCluster disk fs cluster
    if fat32Eof ≤ cluster then none else fat32SkipClusters disk fs n cluster

/-- `fat32_read`: the return value and the bytes stored.  Every round of the loop copies
a byte, so `size` rounds are enough. -/
def fat32Read (disk : Disk) (node : Fat32Node) (offset size : Nat) : Int × List (BitVec 8) :=
  match node.privateData with
  | none => (0, [])
  | some data =>
    if node.size ≤ offset then (0, [])
    else
      let size := if node.size < wrap32 (offset + size) then node.size - offset else size
      let clusterSize := data.fs.sectorsPerCluster * 512
      match fat32SkipClusters disk data.fs (offset / clusterSize) data.startCluster with
      | none => (0, [])
      | some cluster =>
        let out := fat32ReadClusters disk data.fs size size cluster (offset % clusterSize) []
        (int32 out.length, out)

/-- The cluster of a chain after `n` links, if the chain reaches it. -/
def Fat32Data.clusterAt (disk : Disk) (data : Fat32Data) (n : Nat) : Option Nat :=
  (fat32SkipClusters disk data.fs n data.startCluster).filter (· < fat32Eof)

/-- The byte at a position of the cluster chain, if it can be read. -/
def Fat32Data.byteAt (disk : Disk) (data : Fat32Data) (p : Nat) : Option (BitVec 8) := do
  let cluster ← data.clusterAt disk (p / (data.fs.sectorsPerCluster * 512))
  let sector ← disk (wrap32 (clusterToLba data.fs cluster +
    p % (data.fs.sectorsPerCluster * 512) / 512))
  some (sector (p % 512))

section Read

variable {disk : Disk} {data : Fat32Data}

theorem fat32SkipClusters_succ (fs : Fat32Fs) (n cluster : Nat) :
    fat32SkipClusters disk fs (n + 1) cluster =
      (fat32SkipClusters disk fs n cluster).bind fun c =>
        if fat32Eof ≤ fat32NextCluster disk fs c then none
        else some (fat32NextCluster disk fs c) := by
  induction n generalizing cluster with
  | zero => rfl
  | succ n ih =>
    rw [fat32SkipClusters]
    conv_rhs => rw [fat32SkipClusters]
    split_ifs
    · rfl
    · exact ih _

/-- The chain is followed link by link. -/
theorem clusterAt_succ {n cluster : Nat} (h : data.clusterAt disk n = some cluster) :
    data.clusterAt disk (n + 1) =
      (some (fat32NextCluster disk data.fs cluster)).filter (· < fat32Eof) := by
  unfold Fat32Data.clusterAt at h ⊢
  obtain ⟨hskip, -⟩ := Option.filter_eq_some_iff.mp h
  rw [fat32SkipClusters_succ, hskip, Option.bind_some]
  split_ifs with heof
  · rw [Option.filter_none, Option.filter_some, if_neg (by simpa using heof)]
  · rfl

/-- Quotients and remainders of a place in a sector of a cluster. -/
theorem place_div {k cb n s x : Nat} (hcb : k * 512 = cb) (hs : s < k) (hx : x < 512) :
    (n * cb + s * 512 + x) / cb = n ∧ (n * cb + s * 512 + x) % cb / 512 = s ∧
      (n * cb + s * 512 + x) % 512 = x := by
  have hin : s * 512 + x < cb := by
    have hle : (s + 1) * 512 ≤ k * 512 := Nat.mul_le_mul_right 512 hs
    omega
  have hbyte : n * cb = n * k * 512 := by rw [← hcb, Nat.mul_assoc]
  refine ⟨?_, ?_, by omega⟩
  · rw [Nat.add_assoc, Nat.mul_comm, Nat.mul_add_div (by omega), Nat.div_eq_of_lt hin,
      Nat.add_zero]
  · rw [Nat.add_assoc, Nat.mul_comm, Nat.mul_add_mod, Nat.mod_eq_of_lt hin]
    omega

/-- The byte at a place in a sector of a cluster. -/
theorem byteAt_place {n s x : Nat} (hs : s < data.fs.sectorsPerCluster) (hx : x < 512) :
    data.byteAt disk (n * (data.fs.sectorsPerCluster * 512) + s * 512 + x) =
      (data.clusterAt disk n).bind fun cluster =>
        (disk (wrap32 (clusterToLba data.fs cluster + s))).map fun sector => sector x := by
  obtain ⟨hdiv, hsector, hbyte⟩ := place_div (n := n) rfl hs hx
  unfold Fat32Data.byteAt
  rw [hdiv, hsector, hbyte]
  cases data.clusterAt disk n with
  | none => rfl
  | some cluster => cases h : disk (wrap32 (clusterToLba data.fs cluster + s)) <;> simp [h]

/-- Bytes that a read has copied so far. -/
structure Fat32Data.Copied (disk : Disk) (data : Fat32Data) (offset size : Nat)
    (out : List (BitVec 8)) : Prop where
  bytes : ∀ i, ∀ h : i < out.length, data.byteAt disk (offset + i) = some out[i]
  le : out.length ≤ size

/-- A read that ended: nothing is left to copy, or the next byte cannot be read. -/
structure Fat32Data.Ended (disk : Disk) (data : Fat32Data) (offset size : Nat)
    (out : List (BitVec 8)) : Prop extends data.Copied disk offset size out where
  stop : out.length = size ∨ data.byteAt disk (offset + out.length) = none

variable {offset size : Nat} {out : List (BitVec 8)}

theorem Fat32Data.Copied.append (h : data.Copied disk offset size out) {k : Nat}
    {f : Nat → BitVec 8} (hfit : out.length + k ≤ size)
    (hf : ∀ j < k, data.byteAt disk (offset + out.length + j) = some (f j)) :
    data.Copied disk offset size (out ++ (List.range k).map f) := by
  refine ⟨fun i hi => ?_, by simpa using hfit⟩
  by_cases hlt : i < out.length
  · rw [List.getElem_append_left hlt]
    exact h.bytes i hlt
  · have hj : i - out.length < k := by
      simp only [List.length_append, List.length_map, List.length_range] at hi
      omega
    rw [List.getElem_append_right (by omega), List.getElem_map, List.getElem_range,
      ← hf _ hj]
    congr 1
    omega

/-- What the loop over the sectors of a cluster leaves to the loop around it. -/
def Fat32Data.AfterCluster (disk : Disk) (data : Fat32Data) (offset size n : Nat) :
    Bool × List (BitVec 8) → Prop
  | (true, out) => data.Ended disk offset size out
  | (false, out) => data.Copied disk offset size out ∧ out.length < size ∧
      n * (data.fs.sectorsPerCluster * 512) + data.fs.sectorsPerCluster * 512 =
        offset + out.length

/-- The loop over the sectors, from sector `s` with `m` sectors to go. -/
theorem fat32ReadSectors_spec {n cluster : Nat} (hc : data.clusterAt disk n = some cluster)
    (m : Nat) {s clusterOffset : Nat} (hm : s + m = data.fs.sectorsPerCluster)
    (hoff : clusterOffset = 0 ∨ clusterOffset < m * 512)
    (hpos : n * (data.fs.sectorsPerCluster * 512) + s * 512 + clusterOffset = offset + out.length)
    (h : data.Copied disk offset size out) (hlt : out.length < size) :
    data.AfterCluster disk offset size n (fat32ReadSectors disk (clusterToLba data.fs cluster) size
      (List.range' s m) clusterOffset out) := by
  obtain ⟨base, hbase⟩ : ∃ base, n * (data.fs.sectorsPerCluster * 512) = base := ⟨_, rfl⟩
  rw [hbase] at hpos
  induction m generalizing s clusterOffset out with
  | zero =>
    refine ⟨h, hlt, ?_⟩
    rw [hbase, ← hpos, ← hm]
    omega
  | succ m ih =>
    rw [List.range'_succ, fat32ReadSectors]
    have hs : s < data.fs.sectorsPerCluster := by omega
    by_cases hskip : 512 ≤ clusterOffset
    · rw [if_pos hskip]
      obtain ⟨rest', rfl⟩ := Nat.exists_eq_add_of_le hskip
      rw [Nat.add_sub_cancel_left]
      have hstep : base + (s + 1) * 512 + rest' = offset + out.length := by
        rw [← hpos]
        ring
      exact ih (by omega) (by omega) h hlt hstep
    · rw [if_neg hskip]
      have hplace : ∀ j, clusterOffset + j < 512 → data.byteAt disk (offset + out.length + j) =
          (disk (wrap32 (clusterToLba data.fs cluster + s))).map
            fun sector => sector (clusterOffset + j) := by
        intro j hj
        rw [← hpos, ← hbase, Nat.add_assoc, byteAt_place hs hj, hc]
        rfl
      cases hdisk : disk (wrap32 (clusterToLba data.fs cluster + s)) with
      | none =>
        refine ⟨h, Or.inr ?_⟩
        have hnext := hplace 0 (by omega)
        rw [hdisk] at hnext
        exact hnext
      | some sector =>
        dsimp only
        have happend := h.append (k := min (512 - clusterOffset) (size - out.length))
          (f := fun i => sector (clusterOffset + i)) (by omega) fun j hj => by
            rw [hplace j (by omega), hdisk]
            rfl
        have hlen : (out ++ (List.range (min (512 - clusterOffset) (size - out.length))).map
            fun i => sector (clusterOffset + i)).length =
            out.length + min (512 - clusterOffset) (size - out.length) := by
          rw [List.length_append, List.length_map, List.length_range]
        by_cases hfull : size ≤ out.length + min (512 - clusterOffset) (size - out.length)
        · rw [if_pos (hlen ▸ hfull)]
          exact ⟨happend, Or.inl (by omega)⟩
        · rw [if_neg (hlen ▸ hfull)]
          have hk : clusterOffset + min (512 - clusterOffset) (size - out.length) = 512 := by
            omega
          have hstep : base + (s + 1) * 512 + 0 = offset + (out.length +
              min (512 - clusterOffset) (size - out.length)) := by
            rw [← Nat.add_assoc, ← hpos, Nat.add_assoc _ clusterOffset, hk]
            ring
          rw [← hlen] at hstep hfull
          exact ih (by omega) (Or.inl rfl) happend (Nat.not_le.mp hfull) hstep

/-- The byte at an offset into a cluster that the chain does not reach. -/
theorem byteAt_none {n off : Nat} (hc : data.clusterAt disk n = none)
    (hoff : off < data.fs.sectorsPerCluster * 512) :
    data.byteAt disk (n * (data.fs.sectorsPerCluster * 512) + off) = none := by
  have hplace := @byteAt_place disk data n _ _ (by omega : off / 512 < data.fs.sectorsPerCluster)
    (Nat.mod_lt off (by omega : 0 < 512))
  rw [hc, Nat.add_assoc, Nat.div_add_mod'] at hplace
  exact hplace

/-- The loop over the clusters. -/
theorem fat32ReadClusters_spec (rounds : Nat) {n cluster clusterOffset : Nat}
    (hc : data.clusterAt disk n = (some cluster).filter (· < fat32Eof))
    (hoff : clusterOffset < data.fs.sectorsPerCluster * 512)
    (hpos : n * (data.fs.sectorsPerCluster * 512) + clusterOffset = offset + out.length)
    (h : data.Copied disk offset size out) (hrounds : size ≤ out.length + rounds) :
    data.Ended disk offset size
      (fat32ReadClusters disk data.fs size rounds cluster clusterOffset out) := by
  induction rounds generalizing n cluster clusterOffset out with
  | zero => exact ⟨h, Or.inl (Nat.le_antisymm h.le hrounds)⟩
  | succ rounds ih =>
    rw [fat32ReadClusters]
    have hle := h.le
    by_cases hlive : cluster < fat32Eof
    · rw [Option.filter_some, if_pos (by simpa using hlive)] at hc
      by_cases hlt : out.length < size
      · rw [if_pos ⟨hlt, hlive⟩, List.range_eq_range']
        have hsectors := fat32ReadSectors_spec hc data.fs.sectorsPerCluster (Nat.zero_add _)
          (Or.inr hoff) (by omega) h hlt
        rcases hres : fat32ReadSectors disk (clusterToLba data.fs cluster) size
          (List.range' 0 data.fs.sectorsPerCluster) clusterOffset out with ⟨done, out'⟩
        rw [hres] at hsectors
        cases done with
        | true => exact hsectors
        | false =>
          obtain ⟨hcopied, -, hend⟩ := hsectors
          have hspc := data.fs.spcPos
          refine ih (clusterAt_succ hc) (by omega) ?_ hcopied (by omega)
          rw [Nat.succ_mul, Nat.add_zero]
          exact hend
      · rw [if_neg fun hcond => hlt hcond.1]
        exact ⟨h, Or.inl (by omega)⟩
    · rw [if_neg fun hcond => hlive hcond.2]
      rw [Option.filter_some, if_neg (by simpa using hlive)] at hc
      refine ⟨h, Or.inr ?_⟩
      rw [← hpos]
      exact byteAt_none hc hoff

end Read

/-- A read below the size of the file returns the bytes of the chain from its offset on, as
many as the clipped size asks for, or up to the first that cannot be read. -/
theorem fat32Read_spec (disk : Disk) {node : Fat32Node} {data : Fat32Data}
    (hdata : node.privateData = some data) {offset : Nat} (hoffset : offset < node.size)
    (size : Nat) :
    data.Ended disk offset
      (if node.size < wrap32 (offset + size) then node.size - offset else size)
      (fat32Read disk node offset size).2 := by
  have hcb : 0 < data.fs.sectorsPerCluster * 512 := by
    have hspc := data.fs.spcPos
    omega
  have hempty : ∀ size', data.Copied disk offset size' [] :=
    fun size' => ⟨fun i hi => absurd hi (Nat.not_lt_zero i), Nat.zero_le _⟩
  unfold fat32Read
  rw [hdata]
  dsimp only
  rw [if_neg (Nat.not_le.mpr hoffset)]
  cases hskip : fat32SkipClusters disk data.fs (offset / (data.fs.sectorsPerCluster * 512))
      data.startCluster with
  | none =>
    refine ⟨hempty _, Or.inr ?_⟩
    have hc : data.clusterAt disk (offset / (data.fs.sectorsPerCluster * 512)) = none := by
      unfold Fat32Data.clusterAt
      rw [hskip]
      rfl
    have hnone := byteAt_none hc (Nat.mod_lt offset hcb)
    rw [Nat.div_add_mod'] at hnone
    exact hnone
  | some cluster =>
    refine fat32ReadClusters_spec _ ?_ (Nat.mod_lt offset hcb) (Nat.div_add_mod' ..) (hempty _)
      (Nat.le_add_left ..)
    unfold Fat32Data.clusterAt
    rw [hskip]

end EnclaveOS
