import EnclaveOS.Fs.FatVolume
import Mathlib.Order.Interval.Finset.Nat

/-!
# FatScan - a directory as the list of its entries

The two walks over a directory read one cluster after the other.  Here they become scans of
the list of all entries on the chain, where an unreadable sector is an item without an entry.
-/

namespace EnclaveOS

open ByteMemory

/-- The entries of a sector, or the item that stands for an unreadable one. -/
def sectorItems (disk : Disk) (lba : Nat) : List (Option DirEntry) :=
  match disk lba with
  | none => [none]
  | some secBuf => (sectorEntries secBuf).map some

/-- One item in a walk. -/
def itemStep {σ α : Type} (step : DirEntry → σ → Scan σ (Option α)) :
    Option DirEntry → σ → Scan σ (Option α)
  | none, _ => .done none
  | some dir, s => step dir s

namespace Fat32Volume

variable (disk : Disk) (v : Fat32Volume)

/-- The items of a cluster. -/
def clusterItems (cluster : Nat) : List (Option DirEntry) :=
  (List.range v.sectorsPerCluster).flatMap fun s =>
    sectorItems disk (wrap32 (v.clusterToLba cluster + s))

/-- The cluster after some links, and the cache there. -/
def chain (start : Nat) (cache : FatCache) (n : Nat) : Nat × FatCache :=
  (fun c => v.nextCluster disk c.1 c.2)^[n] (start, cache)

/-- The items of the first clusters of a chain. -/
def chainItems (start : Nat) (cache : FatCache) (n : Nat) : List (Option DirEntry) :=
  (List.range n).flatMap fun i => v.clusterItems disk (v.chain disk start cache i).1

/-- The first clusters of a chain are none that end it. -/
def Live (start : Nat) (cache : FatCache) (n : Nat) : Prop :=
  ∀ i < n, (v.chain disk start cache i).1 < fat32Eof

/-- A chain that ends, with readable sectors: the entries on it. -/
structure Listed (start : Nat) (cache : FatCache) (clusters : Nat) (entries : List DirEntry) :
    Prop where
  live : v.Live disk start cache clusters
  last : fat32Eof ≤ (v.chain disk start cache clusters).1
  items : v.chainItems disk start cache clusters = entries.map some

end Fat32Volume

section Items

variable {disk : Disk} {v : Fat32Volume} {start : Nat} {cache : FatCache}

@[simp] theorem chain_zero : v.chain disk start cache 0 = (start, cache) := rfl

theorem chain_succ (n : Nat) :
    v.chain disk start cache (n + 1) =
      v.chain disk (v.nextCluster disk start cache).1 (v.nextCluster disk start cache).2 n :=
  rfl

theorem chain_succ' (n : Nat) :
    v.chain disk start cache (n + 1) = v.nextCluster disk (v.chain disk start cache n).1
      (v.chain disk start cache n).2 :=
  Function.iterate_succ_apply' _ _ _

@[simp] theorem chainItems_zero : v.chainItems disk start cache 0 = [] := rfl

theorem chainItems_succ (n : Nat) :
    v.chainItems disk start cache (n + 1) = v.clusterItems disk start ++
      v.chainItems disk (v.nextCluster disk start cache).1 (v.nextCluster disk start cache).2 n := by
  unfold Fat32Volume.chainItems
  rw [List.range_succ_eq_map, List.flatMap_cons, List.flatMap_map]
  rfl

/-- The items of a cluster among those of the chain. -/
theorem chainItems_split {n m : Nat} (h : n < m) :
    ∃ rest, v.chainItems disk start cache m = (v.chainItems disk start cache n ++
      v.clusterItems disk (v.chain disk start cache n).1) ++ rest := by
  obtain ⟨k, rfl⟩ := Nat.exists_eq_add_of_lt h
  refine ⟨((List.range k).map (n + 1 + ·)).flatMap fun i =>
    v.clusterItems disk (v.chain disk start cache i).1, ?_⟩
  unfold Fat32Volume.chainItems
  rw [show n + k + 1 = n + 1 + k by omega, List.range_add, List.flatMap_append, List.range_succ,
    List.flatMap_append, List.flatMap_singleton]

theorem live_succ {n : Nat} :
    v.Live disk start cache (n + 1) ↔ start < fat32Eof ∧
      v.Live disk (v.nextCluster disk start cache).1 (v.nextCluster disk start cache).2 n := by
  unfold Fat32Volume.Live
  constructor
  · intro h
    exact ⟨h 0 (Nat.succ_pos n), fun i hi => h (i + 1) (Nat.succ_lt_succ hi)⟩
  · rintro ⟨hstart, hrest⟩ i hi
    cases i with
    | zero => exact hstart
    | succ i => exact hrest i (Nat.lt_of_succ_lt_succ hi)

/-- With a cache of the FAT, a chain follows the links on the disk. -/
theorem chain_link (hfat : v.FatBehindBoot) (hcache : cache.Valid disk) (n : Nat) :
    (v.chain disk start cache n).1 = (v.link disk)^[n] start ∧
      (v.chain disk start cache n).2.Valid disk := by
  induction n with
  | zero => exact ⟨rfl, hcache⟩
  | succ n ih =>
    obtain ⟨hlink, hvalid⟩ := ih
    rw [chain_succ', Function.iterate_succ_apply', nextCluster_link hfat hvalid, hlink]
    exact ⟨rfl, hvalid.nextCluster _⟩

/-- A chain that ends visits no cluster twice. -/
theorem chain_injOn (hfat : v.FatBehindBoot) (hcache : cache.Valid disk) {n : Nat}
    (hlive : v.Live disk start cache n) (hlast : fat32Eof ≤ (v.chain disk start cache n).1) :
    Set.InjOn (fun i => (v.chain disk start cache i).1) (Finset.range n) := by
  have hlt : ∀ i j, i < j → j < n →
      (v.chain disk start cache i).1 ≠ (v.chain disk start cache j).1 := by
    intro i j hij hj heq
    -- a repeated cluster would bring the end of the chain forward
    have hback := hlive (i + (n - j)) (by omega)
    rw [(chain_link hfat hcache _).1, Nat.add_comm, Function.iterate_add_apply,
      ← (chain_link hfat hcache i).1, heq, (chain_link hfat hcache j).1,
      ← Function.iterate_add_apply, Nat.sub_add_cancel hj.le, ← (chain_link hfat hcache n).1] at hback
    omega
  intro i hi j hj heq
  rw [Finset.coe_range, Set.mem_Iio] at hi hj
  rcases Nat.lt_trichotomy i j with h | h | h
  · exact absurd heq (hlt i j h hj)
  · exact h
  · exact absurd heq.symm (hlt j i h hi)

end Items

/-- The FAT and the data area of a volume with `n` clusters lie where
`ata_read_sectors` can read. -/
structure Fat32Volume.OnDisk (v : Fat32Volume) (n : Nat) : Prop where
  behindBoot : 0 < v.fat1Lba
  fat : v.fat1Lba ≤ 268435456
  data : v.partitionLba + v.firstDataSector + n * v.sectorsPerCluster ≤ 268435456

/-- The numbers of the data clusters. -/
def DataCluster (n cluster : Nat) : Prop := 2 ≤ cluster ∧ cluster < n + 2

/-- A directory of a volume: its chain of data clusters ends, and its sectors can be read. -/
structure FatDirectory (disk : Disk) (v : Fat32Volume) (start : Nat) (cache : FatCache)
    (clusters : Nat) (entries : List DirEntry) : Prop extends
    v.Listed disk start cache clusters entries where
  cached : cache.Valid disk
  volume : ∃ n, v.OnDisk n ∧ ∀ i < clusters, DataCluster n (v.chain disk start cache i).1

theorem Fat32Volume.OnDisk.fatBehindBoot {v : Fat32Volume} {n : Nat} (h : v.OnDisk n) :
    v.FatBehindBoot :=
  ⟨h.behindBoot, by have := h.fat; omega⟩

section Size

variable {disk : Disk} {v : Fat32Volume} {start : Nat} {cache : FatCache}

theorem length_sectorItems_le (disk : Disk) (lba : Nat) : (sectorItems disk lba).length ≤ 16 := by
  unfold sectorItems sectorEntries
  cases disk lba <;> simp

theorem length_flatMap_le {ι α : Type*} {f : ι → List α} {k : Nat} {l : List ι}
    (hf : ∀ x ∈ l, (f x).length ≤ k) : (l.flatMap f).length ≤ l.length * k := by
  induction l with
  | nil => simp
  | cons x l ih =>
    have hx := hf x List.mem_cons_self
    have hl := ih fun y hy => hf y (List.mem_cons_of_mem x hy)
    rw [List.flatMap_cons, List.length_append, List.length_cons, Nat.succ_mul]
    omega

theorem length_chainItems_le (n : Nat) :
    (v.chainItems disk start cache n).length ≤ n * (v.sectorsPerCluster * 16) := by
  have hcluster : ∀ i ∈ List.range n,
      (v.clusterItems disk (v.chain disk start cache i).1).length ≤ v.sectorsPerCluster * 16 := by
    intro i _
    have hle := length_flatMap_le (l := List.range v.sectorsPerCluster) fun s _ =>
      length_sectorItems_le disk (wrap32 (v.clusterToLba (v.chain disk start cache i).1 + s))
    rwa [List.length_range] at hle
  have hle := length_flatMap_le hcluster
  rwa [List.length_range] at hle

/-- A directory on the disk has at most 2^32 entries. -/
theorem FatDirectory.length_le {clusters : Nat} {entries : List DirEntry}
    (h : FatDirectory disk v start cache clusters entries) : entries.length ≤ 4294967296 := by
  obtain ⟨n, hdisk, hdata⟩ := h.volume
  have hcount : clusters ≤ n := by
    have hcard := Finset.card_le_card_of_injOn (s := Finset.range clusters)
      (t := Finset.Ico 2 (n + 2)) (fun i => (v.chain disk start cache i).1)
      (fun i hi => Finset.mem_coe.mpr (Finset.mem_Ico.mpr
        (hdata i (Finset.mem_range.mp (Finset.mem_coe.mp hi)))))
      (chain_injOn hdisk.fatBehindBoot h.cached h.live h.last)
    rw [Finset.card_range, Nat.card_Ico] at hcard
    omega
  have hsectors : clusters * v.sectorsPerCluster ≤ n * v.sectorsPerCluster :=
    Nat.mul_le_mul_right _ hcount
  have hdata' := hdisk.data
  have hle : (v.chainItems disk start cache clusters).length ≤
      clusters * (v.sectorsPerCluster * 16) := length_chainItems_le clusters
  rw [← Nat.mul_assoc, h.items, List.length_map] at hle
  omega

end Size

section Walk

variable {σ α : Type} {disk : Disk} {v : Fat32Volume} {start : Nat} {cache : FatCache}
  {step : DirEntry → σ → Scan σ (Option α)} {s : σ}

theorem scanList_map_some (entries : List DirEntry) :
    scanList (itemStep step) (entries.map some) s = scanList step entries s := by
  induction entries generalizing s with
  | nil => rfl
  | cons dir entries ih =>
    rw [List.map_cons, scanList_cons, scanList_cons]
    exact congrArg (step dir s).andThen (funext fun _ => ih)

/-- The loop over sectors is the scan of their items. -/
theorem scanSectors_eq (lba : Nat) (sectors : List Nat) :
    scanSectors disk step lba sectors s = scanList (itemStep step)
      (sectors.flatMap fun i => sectorItems disk (wrap32 (lba + i))) s := by
  induction sectors generalizing s with
  | nil => rfl
  | cons i sectors ih =>
    rw [scanSectors, List.flatMap_cons, scanList_append]
    unfold sectorItems
    cases disk (wrap32 (lba + i)) with
    | none => rfl
    | some secBuf =>
      dsimp only
      rw [scanList_map_some]
      congr
      funext s'
      exact ih

/-- What a scan of all entries comes to at the end of the chain. -/
def FatResult.ofScan (cache : FatCache) : Scan σ (Option α) → FatResult (Option α)
  | .next _ => .done none cache
  | .done a => .done a cache
  | .overrun => .overrun

/-- What the round at a cluster answers, if it is the last one. -/
def lastRound (disk : Disk) (v : Fat32Volume) (step : DirEntry → σ → Scan σ (Option α))
    (c : Nat × FatCache) (s : σ) : Option (FatResult (Option α)) :=
  if c.1 < fat32Eof then
    match scanList (itemStep step) (v.clusterItems disk c.1) s with
    | .next _ => none
    | .done a => some (.done a c.2)
    | .overrun => some .overrun
  else some (.done none c.2)

theorem walk_last {r : FatResult (Option α)} (h : lastRound disk v step (start, cache) s = some r)
    (rounds : Nat) : (v.walk disk step (rounds + 1) start cache s).result = r := by
  unfold lastRound at h
  rw [Fat32Volume.walk, scanSectors_eq]
  change (if start < fat32Eof then match scanList (itemStep step) (v.clusterItems disk start) s with
    | .next _ => _
    | .done a => ⟨[start], .done a cache⟩
    | .overrun => ⟨[start], .overrun⟩
    else ⟨[], .done none cache⟩ : FatCall (Option α)).result = r
  by_cases hlive : start < fat32Eof
  · rw [if_pos hlive] at h ⊢
    cases hscan : scanList (itemStep step) (v.clusterItems disk start) s with
    | next s' =>
      rw [hscan] at h
      cases h
    | done a =>
      rw [hscan] at h
      exact Option.some.inj h
    | overrun =>
      rw [hscan] at h
      exact Option.some.inj h
  · rw [if_neg hlive] at h ⊢
    exact Option.some.inj h

theorem walk_next {s' : σ} (hlive : start < fat32Eof)
    (h : scanList (itemStep step) (v.clusterItems disk start) s = .next s') (rounds : Nat) :
    v.walk disk step (rounds + 1) start cache s =
      ⟨start :: (v.walk disk step rounds (v.nextCluster disk start cache).1
          (v.nextCluster disk start cache).2 s').visited,
        (v.walk disk step rounds (v.nextCluster disk start cache).1
          (v.nextCluster disk start cache).2 s').result⟩ := by
  unfold Fat32Volume.clusterItems at h
  rw [Fat32Volume.walk, if_pos hlive, scanSectors_eq, h]

theorem round_cases (c : Nat × FatCache) (s : σ) :
    (∃ r, lastRound disk v step c s = some r) ∨
      c.1 < fat32Eof ∧ ∃ s', scanList (itemStep step) (v.clusterItems disk c.1) s = .next s' := by
  unfold lastRound
  by_cases hlive : c.1 < fat32Eof
  · rw [if_pos hlive]
    cases scanList (itemStep step) (v.clusterItems disk c.1) s with
    | next s' => exact Or.inr ⟨hlive, s', rfl⟩
    | done a => exact Or.inl ⟨_, rfl⟩
    | overrun => exact Or.inl ⟨_, rfl⟩
  · rw [if_neg hlive]
    exact Or.inl ⟨_, rfl⟩

/-- The clusters before the last round only change the state. -/
theorem walk_add (n : Nat) {s' : σ} (hlive : v.Live disk start cache n)
    (h : scanList (itemStep step) (v.chainItems disk start cache n) s = .next s') (rounds : Nat) :
    v.walk disk step (n + rounds) start cache s =
      ⟨(List.range n).map (fun i => (v.chain disk start cache i).1) ++
          (v.walk disk step rounds (v.chain disk start cache n).1
            (v.chain disk start cache n).2 s').visited,
        (v.walk disk step rounds (v.chain disk start cache n).1
          (v.chain disk start cache n).2 s').result⟩ := by
  induction n generalizing start cache s with
  | zero =>
    cases h
    rw [Nat.zero_add]
    rfl
  | succ n ih =>
    obtain ⟨hstart, hrest⟩ := live_succ.mp hlive
    rw [chainItems_succ, scanList_append, Scan.andThen_eq_next] at h
    obtain ⟨s₁, hhere, hthere⟩ := h
    rw [show n + 1 + rounds = n + rounds + 1 by omega, walk_next hstart hhere, ih hrest hthere,
      List.range_succ_eq_map, List.map_cons, List.map_map]
    rfl

/-- How a walk of some rounds ends: it is still running, or a round at one of the clusters is
its last one. -/
theorem walk_cases (rounds : Nat) :
    ∃ n s', v.Live disk start cache n ∧
      scanList (itemStep step) (v.chainItems disk start cache n) s = .next s' ∧
      ((n = rounds ∧ (v.walk disk step rounds start cache s).result = .running) ∨
        n < rounds ∧ lastRound disk v step (v.chain disk start cache n) s' =
          some (v.walk disk step rounds start cache s).result) := by
  induction rounds generalizing start cache s with
  | zero => exact ⟨0, s, fun i hi => absurd hi (Nat.not_lt_zero i), rfl, Or.inl ⟨rfl, rfl⟩⟩
  | succ rounds ih =>
    rcases @round_cases _ _ disk v step (start, cache) s with ⟨r, hlast⟩ | ⟨hlive, s₁, hscan⟩
    · refine ⟨0, s, fun i hi => absurd hi (Nat.not_lt_zero i), rfl, Or.inr ⟨Nat.succ_pos _, ?_⟩⟩
      rw [walk_last hlast]
      exact hlast
    · obtain ⟨n, s', hl, hn, hend⟩ := @ih (v.nextCluster disk start cache).1
        (v.nextCluster disk start cache).2 s₁
      refine ⟨n + 1, s', live_succ.mpr ⟨hlive, hl⟩, ?_, ?_⟩
      · rw [chainItems_succ, scanList_append, hscan]
        exact hn
      · rw [chain_succ, walk_next hlive hscan]
        rcases hend with ⟨rfl, hend⟩ | ⟨hlt, hend⟩
        · exact Or.inl ⟨rfl, hend⟩
        · exact Or.inr ⟨Nat.succ_lt_succ hlt, hend⟩

/-- A walk that has rounds left at its last round. -/
theorem walk_result {n : Nat} {s' : σ} (hlive : v.Live disk start cache n)
    (h : scanList (itemStep step) (v.chainItems disk start cache n) s = .next s')
    {r : FatResult (Option α)} (hlast : lastRound disk v step (v.chain disk start cache n) s' = some r)
    {rounds : Nat} (hrounds : n < rounds) :
    (v.walk disk step rounds start cache s).result = r := by
  obtain ⟨k, rfl⟩ := Nat.exists_eq_add_of_lt hrounds
  rw [Nat.add_assoc, walk_add n hlive h]
  exact walk_last hlast k

/-- A longer part of the chain does not change a result that a part of it has. -/
theorem scan_chainItems_mono {n m : Nat} (hle : n ≤ m) {x : Scan σ (Option α)}
    (h : scanList (itemStep step) (v.chainItems disk start cache n) s = x)
    (hx : ∀ s', x ≠ .next s') :
    scanList (itemStep step) (v.chainItems disk start cache m) s = x := by
  rcases hle.eq_or_lt with rfl | hlt
  · exact h
  · obtain ⟨rest, hrest⟩ := @chainItems_split disk v start cache n m hlt
    rw [hrest, scanList_append, scanList_append, h]
    cases x with
    | next s' => exact absurd rfl (hx s')
    | done a => rfl
    | overrun => rfl

/-- The scan of the clusters up to the last round of a walk. -/
theorem scan_lastRound {n : Nat} {s' : σ} (hlive : v.Live disk start cache n)
    (h : scanList (itemStep step) (v.chainItems disk start cache n) s = .next s')
    {r : FatResult (Option α)}
    (hlast : lastRound disk v step (v.chain disk start cache n) s' = some r) :
    (fat32Eof ≤ (v.chain disk start cache n).1 ∧ r = .done none (v.chain disk start cache n).2) ∨
      v.Live disk start cache (n + 1) ∧ ∃ x, (∀ s', x ≠ .next s') ∧
        scanList (itemStep step) (v.chainItems disk start cache (n + 1)) s = x ∧
        r = FatResult.ofScan (v.chain disk start cache n).2 x := by
  unfold lastRound at hlast
  by_cases heof : (v.chain disk start cache n).1 < fat32Eof
  · rw [if_pos heof] at hlast
    refine Or.inr ⟨fun i hi => ?_, ?_⟩
    · rcases (Nat.lt_succ_iff.mp hi).eq_or_lt with rfl | hlt
      · exact heof
      · exact hlive i hlt
    · unfold Fat32Volume.chainItems at h ⊢
      rw [List.range_succ, List.flatMap_append, List.flatMap_singleton, scanList_append, h,
        Scan.next_andThen]
      refine ⟨_, ?_, rfl, ?_⟩
      · intro s'' hnext
        rw [hnext] at hlast
        cases hlast
      · cases hscan : scanList (itemStep step)
          (v.clusterItems disk (v.chain disk start cache n).1) s' with
        | next s'' =>
          rw [hscan] at hlast
          cases hlast
        | done a =>
          rw [hscan] at hlast
          exact (Option.some.inj hlast).symm
        | overrun =>
          rw [hscan] at hlast
          exact (Option.some.inj hlast).symm
  · rw [if_neg heof] at hlast
    exact Or.inl ⟨Nat.not_lt.mp heof, (Option.some.inj hlast).symm⟩

/-- A walk comes to a scan that has its result, whatever the number of rounds. -/
theorem walk_of_scan {n : Nat} (hlive : v.Live disk start cache n) {x : Scan σ (Option α)}
    (h : scanList (itemStep step) (v.chainItems disk start cache n) s = x)
    (hx : ∀ s', x ≠ .next s') {rounds : Nat} (hrounds : n ≤ rounds) :
    ∃ cache', (v.walk disk step rounds start cache s).result = FatResult.ofScan cache' x := by
  obtain ⟨m, s', hlive', hm, hend⟩ := @walk_cases _ _ disk v start cache step s rounds
  have hlt : m < n := by
    by_contra hge
    rw [scan_chainItems_mono (Nat.not_lt.mp hge) h hx] at hm
    exact hx s' hm
  rcases hend with ⟨rfl, -⟩ | ⟨-, hlast⟩
  · omega
  rcases scan_lastRound hlive' hm hlast with ⟨heof, -⟩ | ⟨-, y, hy, hscan, hr⟩
  · exact absurd (hlive m hlt) (Nat.not_lt.mpr heof)
  · have hsame := scan_chainItems_mono (show m + 1 ≤ n from hlt) hscan hy
    rw [h] at hsame
    exact ⟨_, hsame ▸ hr⟩

/-- A walk overruns when the scan of some first clusters does. -/
theorem walk_overrun_iff :
    (∃ rounds, (v.walk disk step rounds start cache s).result = .overrun) ↔
      ∃ n, v.Live disk start cache n ∧
        scanList (itemStep step) (v.chainItems disk start cache n) s = .overrun := by
  constructor
  · rintro ⟨rounds, hresult⟩
    obtain ⟨n, s', hlive, hn, ⟨-, hrunning⟩ | ⟨-, hlast⟩⟩ :=
      @walk_cases _ _ disk v start cache step s rounds
    · rw [hresult] at hrunning
      cases hrunning
    · rw [hresult] at hlast
      rcases scan_lastRound hlive hn hlast with ⟨-, hr⟩ | ⟨hlive', x, hx, hscan, hr⟩
      · cases hr
      · refine ⟨n + 1, hlive', hscan.trans ?_⟩
        cases x with
        | next s'' => exact absurd rfl (hx s'')
        | done a => cases hr
        | overrun => rfl
  · rintro ⟨n, hlive, hscan⟩
    obtain ⟨cache', hresult⟩ := walk_of_scan hlive hscan (by rintro s' ⟨⟩) le_rfl
    exact ⟨n, hresult⟩

/-- A walk returns when the scan of some first clusters has its result, or the chain ends behind
them. -/
theorem walk_done_iff :
    (∃ rounds a cache', (v.walk disk step rounds start cache s).result = .done a cache') ↔
      ∃ n, v.Live disk start cache n ∧
        ((∃ a, scanList (itemStep step) (v.chainItems disk start cache n) s = .done a) ∨
          fat32Eof ≤ (v.chain disk start cache n).1 ∧
            ∃ s', scanList (itemStep step) (v.chainItems disk start cache n) s = .next s') := by
  constructor
  · rintro ⟨rounds, a, cache', hresult⟩
    obtain ⟨n, s', hlive, hn, ⟨-, hrunning⟩ | ⟨-, hlast⟩⟩ :=
      @walk_cases _ _ disk v start cache step s rounds
    · rw [hresult] at hrunning
      cases hrunning
    · rw [hresult] at hlast
      rcases scan_lastRound hlive hn hlast with ⟨heof, -⟩ | ⟨hlive', x, hx, hscan, hr⟩
      · exact ⟨n, hlive, Or.inr ⟨heof, s', hn⟩⟩
      · refine ⟨n + 1, hlive', Or.inl ?_⟩
        cases x with
        | next s'' => exact absurd rfl (hx s'')
        | done a => exact ⟨a, hscan⟩
        | overrun => cases hr
  · rintro ⟨n, hlive, ⟨a, hscan⟩ | ⟨heof, s', hscan⟩⟩
    · obtain ⟨cache', hresult⟩ := walk_of_scan hlive hscan (by rintro s' ⟨⟩) le_rfl
      exact ⟨n, a, cache', hresult⟩
    · refine ⟨n + 1, none, (v.chain disk start cache n).2, walk_result hlive hscan ?_ n.lt_succ_self⟩
      unfold lastRound
      rw [if_neg (Nat.not_lt.mpr heof)]

/-- A walk over a directory whose chain ends is the scan of its entries. -/
theorem walk_listed {clusters : Nat} {entries : List DirEntry}
    (h : v.Listed disk start cache clusters entries) {rounds : Nat} (hrounds : clusters < rounds) :
    ∃ cache', (v.walk disk step rounds start cache s).result =
      FatResult.ofScan cache' (scanList step entries s) := by
  have hentries : scanList (itemStep step) (entries.map some) s = scanList step entries s :=
    scanList_map_some entries
  rw [← h.items] at hentries
  cases hscan : scanList step entries s with
  | next s' =>
    rw [hscan] at hentries
    refine ⟨(v.chain disk start cache clusters).2, walk_result h.live hentries ?_ hrounds⟩
    unfold lastRound
    rw [if_neg (Nat.not_lt.mpr h.last)]
    rfl
  | done a =>
    rw [hscan] at hentries
    exact walk_of_scan h.live hentries (by rintro s' ⟨⟩) hrounds.le
  | overrun =>
    rw [hscan] at hentries
    exact walk_of_scan h.live hentries (by rintro s' ⟨⟩) hrounds.le

end Walk
end EnclaveOS
