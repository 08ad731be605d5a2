import EnclaveOS.Fs.FatVolume
import Mathlib.Data.List.Chain

/-!
# FatRead - a file of a volume is read as it is stored

A file is the list of its clusters, linked by the FAT.  Its contents are the bytes of their
sectors, one after the other.
-/

namespace EnclaveOS

open ByteMemory

section Pieces

variable {ι α : Type*} {f : ι → List α} {k : Nat}

theorem length_flatMap_pieces {l : List ι} (hf : ∀ x ∈ l, (f x).length = k) :
    (l.flatMap f).length = l.length * k := by
  induction l with
  | nil => simp
  | cons x l ih =>
    rw [List.flatMap_cons, List.length_append, hf x List.mem_cons_self,
      ih fun y hy => hf y (List.mem_cons_of_mem x hy), List.length_cons, Nat.succ_mul, Nat.add_comm]

/-- The place of an item in a row of pieces. -/
theorem getElem?_flatMap_pieces {l : List ι} (hf : ∀ x ∈ l, (f x).length = k) {n i : Nat}
    (hi : i < k) : (l.flatMap f)[n * k + i]? = l[n]?.bind fun x => (f x)[i]? := by
  induction l generalizing n with
  | nil => simp
  | cons x l ih =>
    have hx := hf x List.mem_cons_self
    rw [List.flatMap_cons]
    cases n with
    | zero =>
      rw [List.getElem?_append_left (by omega)]
      simp
    | succ n =>
      rw [List.getElem?_append_right (by rw [Nat.succ_mul]; omega), hx,
        show (n + 1) * k + i - k = n * k + i by rw [Nat.succ_mul]; omega,
        ih fun y hy => hf y (List.mem_cons_of_mem x hy), List.getElem?_cons_succ]

end Pieces

/-- The bytes of a sector. -/
def sectorBytes (disk : Disk) (lba : Nat) : List (BitVec 8) :=
  match disk lba with
  | none => []
  | some sector => (List.range 512).map sector

namespace Fat32Volume

variable (disk : Disk) (v : Fat32Volume)

/-- The bytes of a cluster. -/
def clusterBytes (cluster : Nat) : List (BitVec 8) :=
  (List.range v.sectorsPerCluster).flatMap fun s =>
    sectorBytes disk (wrap32 (v.clusterToLba cluster + s))

/-- The FAT on the disk links a cluster to the next one. -/
def Links (cluster next : Nat) : Prop :=
  (disk (v.fatSector cluster)).map (fatEntry · cluster) = some next

/-- The clusters of a file. -/
structure FileOn (start size : Nat) (clusters : List Nat) : Prop where
  head : 0 < size → clusters.head? = some start
  links : clusters.IsChain (v.Links disk)
  live : ∀ c ∈ clusters, c < fat32Eof
  readable : ∀ c ∈ clusters, ∀ s < v.sectorsPerCluster,
    (disk (wrap32 (v.clusterToLba c + s))).isSome
  enough : size ≤ clusters.length * (v.sectorsPerCluster * 512)

end Fat32Volume

section File

variable {disk : Disk} {v : Fat32Volume} {start size : Nat} {clusters : List Nat}

theorem Fat32Volume.FileOn.length_clusterBytes (h : v.FileOn disk start size clusters) :
    ∀ c ∈ clusters, (v.clusterBytes disk c).length = v.sectorsPerCluster * 512 := by
  intro c hc
  unfold Fat32Volume.clusterBytes
  rw [length_flatMap_pieces (k := 512), List.length_range]
  intro s hs
  obtain ⟨sector, hsector⟩ := Option.isSome_iff_exists.mp
    (h.readable c hc s (List.mem_range.mp hs))
  unfold sectorBytes
  rw [hsector]
  simp

/-- The FAT is followed along the clusters of a file. -/
theorem Fat32Volume.FileOn.clusterAt (h : v.FileOn disk start size clusters)
    (hspc : 0 < v.sectorsPerCluster) (hsize : 0 < size) {n c : Nat} (hc : clusters[n]? = some c) :
    (⟨v.toFs hspc, start⟩ : Fat32Data).clusterAt disk n = some c := by
  have hlive : ∀ {c}, c ∈ clusters → decide (c < fat32Eof) = true := fun hc => by
    simpa using h.live _ hc
  induction n generalizing c with
  | zero =>
    have hhead := h.head hsize
    rw [List.head?_eq_getElem?, hc] at hhead
    cases hhead
    unfold Fat32Data.clusterAt fat32SkipClusters
    rw [Option.filter_some, if_pos (hlive (List.mem_of_getElem? hc))]
  | succ n ih =>
    obtain ⟨hn, rfl⟩ := List.getElem?_eq_some_iff.mp hc
    rw [clusterAt_succ (ih (List.getElem?_eq_getElem (by omega : n < clusters.length)))]
    have hlink := List.isChain_iff_getElem.mp h.links n hn
    have hnext : fat32NextCluster disk (v.toFs hspc) clusters[n] = clusters[n + 1] := by
      obtain ⟨buffer, hbuffer, hentry⟩ := Option.map_eq_some_iff.mp hlink
      unfold fat32NextCluster
      change (match disk (v.fatSector clusters[n]) with
        | none => fat32Eof
        | some buffer => Fat32Volume.fatEntry buffer clusters[n]) = _
      rw [hbuffer]
      exact hentry
    rw [hnext, Option.filter_some, if_pos (hlive (List.getElem_mem hn))]

/-- The bytes on the chain of a file are its contents. -/
theorem Fat32Volume.FileOn.byteAt (h : v.FileOn disk start size clusters)
    (hspc : 0 < v.sectorsPerCluster) {p : Nat} (hp : p < size) :
    (⟨v.toFs hspc, start⟩ : Fat32Data).byteAt disk p =
      (clusters.flatMap (v.clusterBytes disk))[p]? := by
  have hcb : 0 < v.sectorsPerCluster * 512 := by omega
  have hn : p / (v.sectorsPerCluster * 512) < clusters.length :=
    Nat.div_lt_of_lt_mul (by rw [Nat.mul_comm]; exact hp.trans_le h.enough)
  have hoff := Nat.mod_lt p hcb
  have hsector : p % (v.sectorsPerCluster * 512) / 512 < v.sectorsPerCluster := by omega
  have hmem := List.getElem_mem hn
  obtain ⟨sector, hdisk⟩ := Option.isSome_iff_exists.mp (h.readable _ hmem _ hsector)
  have hbyte : p % (v.sectorsPerCluster * 512) % 512 = p % 512 :=
    Nat.mod_mul_left_mod p v.sectorsPerCluster 512
  conv_rhs => rw [← Nat.div_add_mod' p (v.sectorsPerCluster * 512)]
  rw [getElem?_flatMap_pieces h.length_clusterBytes hoff, List.getElem?_eq_getElem hn,
    Option.bind_some]
  unfold Fat32Data.byteAt Fat32Volume.clusterBytes
  simp only [toFs_sectorsPerCluster, toFs_clusterToLba]
  rw [h.clusterAt hspc (by omega) (List.getElem?_eq_getElem hn)]
  have hlen : ∀ s ∈ List.range v.sectorsPerCluster, (sectorBytes disk
      (wrap32 (v.clusterToLba clusters[p / (v.sectorsPerCluster * 512)] + s))).length = 512 := by
    intro s hs
    obtain ⟨sector, hsector⟩ := Option.isSome_iff_exists.mp
      (h.readable _ hmem s (List.mem_range.mp hs))
    unfold sectorBytes
    rw [hsector]
    simp
  conv_rhs => rw [← Nat.div_add_mod' (p % (v.sectorsPerCluster * 512)) 512]
  rw [getElem?_flatMap_pieces hlen (Nat.mod_lt _ (by decide)), List.getElem?_range hsector,
    Option.bind_some]
  unfold sectorBytes
  rw [hdisk, hbyte, List.getElem?_map, List.getElem?_range (Nat.mod_lt _ (by decide))]
  change (disk (wrap32 (v.clusterToLba clusters[p / (v.sectorsPerCluster * 512)] +
    p % (v.sectorsPerCluster * 512) / 512))).bind (fun sector => some (sector (p % 512))) = _
  rw [hdisk]
  rfl

/-- A read of a file delivers its bytes from the offset on. -/
theorem Fat32Volume.FileOn.fat32Read (h : v.FileOn disk start size clusters)
    (hspc : 0 < v.sectorsPerCluster) {offset count : Nat} (hsum : offset + count < 4294967296) :
    (fat32Read disk ⟨size, some ⟨v.toFs hspc, start⟩⟩ offset count).2 =
      ((clusters.flatMap (v.clusterBytes disk)).drop offset).take (min count (size - offset)) := by
  by_cases hpast : size ≤ offset
  · unfold EnclaveOS.fat32Read
    dsimp only
    rw [if_pos hpast, show min count (size - offset) = 0 by omega, List.take_zero]
  have hlen := length_flatMap_pieces h.length_clusterBytes
  have henough := h.enough
  rw [← hlen] at henough
  have hdata : (⟨size, some ⟨v.toFs hspc, start⟩⟩ : Fat32Node).privateData =
      some ⟨v.toFs hspc, start⟩ := rfl
  obtain ⟨⟨hbytes, hle⟩, hstop⟩ := fat32Read_spec disk hdata (Nat.not_le.mp hpast) count
  rw [show wrap32 (offset + count) = offset + count from Nat.mod_eq_of_lt hsum] at hle hstop
  have hclip : (if size < offset + count then size - offset else count) =
      min count (size - offset) := by
    split_ifs <;> omega
  dsimp only at hle hstop
  rw [hclip] at hle hstop
  generalize (EnclaveOS.fat32Read disk _ offset count).2 = out at hbytes hle hstop ⊢
  have hfull : out.length = min count (size - offset) := by
    rcases hstop with hfull | hnone
    · exact hfull
    · by_contra hshort
      rw [h.byteAt hspc (by omega), List.getElem?_eq_getElem (by omega)] at hnone
      cases hnone
  apply List.ext_getElem
  · rw [List.length_take, List.length_drop, hfull]
    omega
  · intro i hi hi'
    have hbyte := hbytes i hi
    rw [h.byteAt hspc (by omega), List.getElem?_eq_getElem (by omega)] at hbyte
    rw [List.getElem_take, List.getElem_drop]
    exact (Option.some.inj hbyte).symm

end File

end EnclaveOS
