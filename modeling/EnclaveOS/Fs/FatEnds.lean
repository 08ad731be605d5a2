import EnclaveOS.Fs.FatListing

/-!
# FatEnds - when the FAT calls return

A read gets bytes in each of its rounds, so that it comes to an end on every disk.  The two
walks over a directory follow the links in the FAT as long as they find no end, and a chain
need not have one.
-/

namespace EnclaveOS

open ByteMemory

/-- A call returns after some rounds. -/
def Returns {α : Type} (call : Nat → FatCall α) : Prop :=
  ∃ rounds a cache, (call rounds).result = .done a cache

section Reading

variable {disk : Disk} {v : Fat32Volume} {size : Nat}

/-- Each cluster is read for at least a byte. -/
theorem readClusters_returns (hspc : 0 < v.sectorsPerCluster) (rounds : Nat) {cluster : Nat}
    {cache : FatCache} {clusterOffset : Nat} {out : List (BitVec 8)}
    (hoff : clusterOffset < v.sectorsPerCluster * 512) (hrounds : size - out.length < rounds) :
    ∃ a cache', (v.readClusters disk size rounds cluster cache clusterOffset out).result =
      .done a cache' := by
  induction rounds generalizing cluster cache clusterOffset out with
  | zero => exact absurd hrounds (Nat.not_lt_zero _)
  | succ rounds ih =>
    unfold Fat32Volume.readClusters
    by_cases hgo : out.length < size ∧ cluster < fat32Eof
    · rw [if_pos hgo]
      cases hres : fat32ReadSectors disk (v.clusterToLba cluster) size
          (List.range v.sectorsPerCluster) clusterOffset out with
      | mk stop out' =>
        cases stop with
        | true => exact ⟨_, cache, rfl⟩
        | false =>
          obtain ⟨hmore, hsize⟩ := fat32ReadSectors_grows _ _ (by simpa using hoff) hgo.1 hres
          exact ih (by omega) (by omega)
    · rw [if_neg hgo]
      exact ⟨_, cache, rfl⟩

/-- A read returns exactly when it does not divide by zero. -/
theorem read_returns_iff (disk : Disk) (node : FatNode) (offset size : Nat) (cache : FatCache) :
    Returns (fun rounds => node.read disk offset size rounds cache) ↔
      ∀ v start, node.volume = some (v, start) → offset < node.size → v.sectorsPerCluster ≠ 0 := by
  unfold Returns FatNode.read
  cases hnode : node.volume with
  | none => simp
  | some place =>
    obtain ⟨v, start⟩ := place
    dsimp only
    by_cases hpast : node.size ≤ offset
    · simp [if_pos hpast, Nat.not_lt.mpr hpast]
    simp only [if_neg hpast]
    by_cases hspc : v.sectorsPerCluster = 0
    · simp [hspc, Nat.not_le.mp hpast]
    simp only [if_neg hspc]
    refine iff_of_true ?_ (by simpa using fun _ => hspc)
    cases hskip : v.skipClusters disk (offset / (v.sectorsPerCluster * 512)) start cache with
    | mk cluster cache' =>
      cases cluster with
      | none => exact ⟨0, _, cache', rfl⟩
      | some cluster =>
        have hpos : 0 < v.sectorsPerCluster * 512 := by omega
        exact ⟨_, readClusters_returns (Nat.pos_of_ne_zero hspc) _ (Nat.mod_lt offset hpos)
          (Nat.lt_succ_self _)⟩

end Reading

/-- The first clusters of a chain bring a walk to an end: an entry or an unreadable sector ends
the directory, or the chain ends behind them. -/
def Fat32Volume.Ends (disk : Disk) (v : Fat32Volume) (start : Nat) (cache : FatCache) (n : Nat) :
    Prop :=
  listEnd (v.chainItems disk start cache n) none = .done () ∨
    fat32Eof ≤ (v.chain disk start cache n).1 ∧
      ∃ long, listEnd (v.chainItems disk start cache n) none = .next long

section Walks

variable {disk : Disk} {v : Fat32Volume} {start : Nat} {cache : FatCache}

@[simp] theorem start_long (buffer : Bytes) : (LfnState.start buffer).long = none := rfl

theorem ReadsListing.done_iff {σ α : Type} {answer : Option α} {stop : Scan (Option LongName) Unit}
    {x : Scan σ (Option α)} (h : ReadsListing answer stop x) :
    (∃ a, x = .done a) ↔ answer.isSome ∨ stop = .done () := by
  unfold ReadsListing at h
  cases answer with
  | some a => simp [h]
  | none =>
    cases stop with
    | next long =>
      obtain ⟨s, hnext⟩ := h
      simp [hnext]
    | done u => simp [h]
    | overrun => simp [h]

theorem ReadsListing.next_iff {σ α : Type} {answer : Option α} {stop : Scan (Option LongName) Unit}
    {x : Scan σ (Option α)} (h : ReadsListing answer stop x) :
    (∃ s, x = .next s) ↔ answer = none ∧ ∃ long, stop = .next long := by
  unfold ReadsListing at h
  cases answer with
  | some a => simp [h]
  | none =>
    cases stop with
    | next long =>
      obtain ⟨s, hnext⟩ := h
      simp [hnext]
    | done u => simp [h]
    | overrun => simp [h]

/-- A walk that reads the listing returns when the first clusters have its answer or an end. -/
theorem walk_returns_iff {σ α : Type} {step : DirEntry → σ → Scan σ (Option α)} {s : σ}
    {answer : List (Option DirEntry) → Option α}
    (hreads : ∀ items, ReadsListing (answer items) (listEnd items none)
      (scanList (itemStep step) items s)) :
    Returns (fun rounds => v.walk disk step rounds start cache s) ↔
      ∃ n, v.Live disk start cache n ∧
        ((answer (v.chainItems disk start cache n)).isSome ∨ v.Ends disk start cache n) := by
  unfold Returns Fat32Volume.Ends
  rw [walk_done_iff]
  refine exists_congr fun n => and_congr_right fun _ => ?_
  rw [(hreads _).done_iff, (hreads _).next_iff]
  cases answer (v.chainItems disk start cache n) with
  | some a => simp
  | none => simp

end Walks

/-- When the calls return: a read when it does not divide by zero, a walk over a directory when
some first clusters of its chain have what it looks for or bring it to an end. -/
theorem fat_calls_return_iff (disk : Disk) (node : FatNode) (cache : FatCache) :
    (∀ offset size, Returns (fun rounds => node.read disk offset size rounds cache) ↔
      ∀ v start, node.volume = some (v, start) → offset < node.size → v.sectorsPerCluster ≠ 0) ∧
    (∀ (index : BitVec 32) entry,
      Returns (fun rounds => node.readdir disk index.toNat entry rounds cache) ↔
        ∀ v start, node.volume = some (v, start) → ∃ n, v.Live disk start cache n ∧
          (index.toNat < (listing (v.chainItems disk start cache n) none).length ∨
            v.Ends disk start cache n)) ∧
    ∀ name stack, Returns (fun rounds => node.finddir disk name stack rounds cache) ↔
      ∀ v start, node.volume = some (v, start) → ∃ n, v.Live disk start cache n ∧
        ((∃ file ∈ listing (v.chainItems disk start cache n) none,
            nameIn (storedName stack.2 file.1 file.2) = name) ∨ v.Ends disk start cache n) := by
  refine ⟨fun offset size => read_returns_iff disk node offset size cache, fun index entry => ?_,
    fun name stack => ?_⟩
  · unfold FatNode.readdir
    cases hnode : node.volume with
    | none => simp [Returns]
    | some place =>
      obtain ⟨v, start⟩ := place
      have hwalk := @walk_returns_iff disk v start cache _ _ _ _ _ fun items =>
        readdir_listing index.isLt entry items (s := ⟨0, .start fun _ => 0⟩) (Nat.zero_le _)
      dsimp only at hwalk ⊢
      rw [hwalk]
      simp
  · unfold FatNode.finddir
    cases hnode : node.volume with
    | none => simp [Returns]
    | some place =>
      obtain ⟨v, start⟩ := place
      have hwalk := @walk_returns_iff disk v start cache _ _ _ _ _ fun items =>
        finddir_listing v name stack.2 items (s := .start stack.1)
      dsimp only at hwalk ⊢
      rw [hwalk]
      simp

/-- The boot sector of the small volume. -/
def volumeBoot : Bytes := fun x =>
  if x = 12 then 2 else if x = 13 ∨ x = 14 ∨ x = 16 ∨ x = 36 then 1 else if x = 44 then 2 else 0

/-- A disk with its boot sector in sector 1. -/
def bootDisk (fat : List (BitVec 32)) (entries : List (List (BitVec 8))) : Disk := fun lba =>
  if lba = 1 then some volumeBoot else smallDisk fat entries lba

/-- A disk whose root directory has deleted entries only, in a cluster that is linked to
itself. -/
def loopDisk : Disk := bootDisk [0, 0, 2] (List.replicate 16 [0xE5])

theorem loop_link {cache : FatCache} (h : cache.Valid loopDisk) :
    (smallVolume.nextCluster loopDisk 2 cache).1 = 2 := by
  rw [nextCluster_link ⟨by decide, by decide⟩ h]
  decide +kernel

theorem fat32Init_loopDisk : fat32Init loopDisk [⟨0x0B, 1⟩] = some smallVolume := by
  have hsize : loadHalf volumeBoot 11 = 512 := by decide +kernel
  have hboot : loopDisk 1 = some volumeBoot := rfl
  have hfields : (volumeBoot 13).toNat = 1 ∧ (loadWord volumeBoot 44).toNat = 2 ∧
      wrap32 (loadHalf volumeBoot 14 + (volumeBoot 16).toNat * (loadWord volumeBoot 36).toNat) = 2 ∧
      wrap32 (1 + loadHalf volumeBoot 14) = 2 := by decide +kernel
  simp [fat32Init, smallVolume, hboot, hsize, hfields]

/-- A listing of the directory goes around for ever. -/
theorem fat_walk_never_ends :
    fat32Init loopDisk [⟨0x0B, 1⟩] = some smallVolume ∧
      ∀ rounds, (smallVolume.root.readdir loopDisk 0 ⟨0, fun _ => 0⟩ rounds .boot).result =
        .running := by
  refine ⟨fat32Init_loopDisk, fun rounds => ?_⟩
  have hround : ∀ rounds cache, cache.Valid loopDisk →
      (smallVolume.walk loopDisk (readdirEntry 0 ⟨0, fun _ => 0⟩) rounds 2 cache
        ⟨0, .start fun _ => 0⟩).result = .running := by
    intro rounds
    induction rounds with
    | zero => exact fun _ _ => rfl
    | succ rounds ih =>
      intro cache hcache
      have hscan : scanList (itemStep (readdirEntry 0 ⟨0, fun _ => 0⟩))
          (smallVolume.clusterItems loopDisk 2) ⟨0, .start fun _ => 0⟩ =
          .next ⟨0, .start fun _ => 0⟩ := rfl
      rw [walk_next (by decide) hscan, loop_link hcache]
      exact ih _ (hcache.nextCluster 2)
  exact hround rounds .boot (FatCache.boot_valid _)

end EnclaveOS
