import EnclaveOS.Fs.FatVolume

/-!
# FatLookups - the cached FAT sector on a failing drive

Calls of `fat32_next_cluster` of `fat32.c`, for any volumes and clusters, on a drive of
which each read may fail in `ata_read_sectors` of `ata.c`.
-/

namespace EnclaveOS

open ByteMemory Fat32Volume

/-- Whether `ata_wait_ready` and `ata_wait_drq` succeed. -/
structure AtaWaits where
  ready : Bool
  drq : Bool

/-- `ata_read_sectors` of one sector: what the drive has at the lower 28 bits of the address. -/
def ataReadSector (image : Nat → Bytes) (waits : AtaWaits) : Disk := fun lba =>
  if 0x10000000 < wrap32 (lba + 1) then none
  else if waits.ready = false then none
  else if waits.drq = false then none
  else some (image (lba % 0x10000000))

theorem ataReadSector_some {image : Nat → Bytes} {waits : AtaWaits} {lba : Nat} {buffer : Bytes}
    (h : ataReadSector image waits lba = some buffer) : buffer = image (lba % 0x10000000) := by
  unfold ataReadSector at h
  split_ifs at h
  exact (Option.some.inj h).symm

/-- A call of `fat32_next_cluster`, and how the drive would answer. -/
structure FatLookup where
  volume : Fat32Volume
  cluster : Nat
  waits : AtaWaits

/-- The static variables, and the sector that was read last. -/
structure FatLookups where
  cache : FatCache
  held : Option Nat

/-- Before the first call. -/
def FatLookups.boot : FatLookups := ⟨.boot, none⟩

namespace FatLookup

variable (image : Nat → Bytes) (call : FatLookup) (s : FatLookups)

/-- `fat_sector`. -/
def sector : Nat := call.volume.fatSector call.cluster

/-- What the drive answers. -/
def answer : Option Bytes := ataReadSector image call.waits call.sector

/-- The call reads its sector. -/
def Reads : Prop := call.sector ≠ s.cache.sector ∧ (call.answer image).isSome

instance : Decidable (call.Reads image s) := inferInstanceAs (Decidable (_ ∧ _))

/-- The value that is returned, and the variables after the call. -/
def run : Nat × FatLookups :=
  let (next, cache) :=
    call.volume.nextCluster (ataReadSector image call.waits) call.cluster s.cache
  (next, ⟨cache, if call.Reads image s then some call.sector else s.held⟩)

/-- A lookup without a cache. -/
def uncached : Nat := fatEntry (image (call.sector % 0x10000000)) call.cluster

/-- What a call has to return: the entry on the disk when its sector was the last one read or is
read now, and otherwise the end of the chain, without a change of the variables. -/
def Meets : Prop :=
  if s.held = some call.sector ∨ call.Reads image s then
    (call.run image s).1 = call.uncached image
  else (call.run image s).1 = fat32Eof ∧ (call.run image s).2 = s

end FatLookup

/-- The cached sector is the last one that was read, and is as at boot before that. -/
inductive FatLookups.Traced (image : Nat → Bytes) : FatLookups → Prop
  | boot : Traced image .boot
  | read (lba : Nat) : Traced image ⟨⟨image (lba % 0x10000000), lba⟩, some lba⟩

section Calls

variable {image : Nat → Bytes} {call : FatLookup} {s : FatLookups}

theorem nextCluster_cached {disk : Disk} {v : Fat32Volume} {cache : FatCache} {cluster : Nat}
    (h : v.fatSector cluster = cache.sector) :
    v.nextCluster disk cluster cache = (fatEntry cache.buffer cluster, cache) :=
  if_pos h

theorem nextCluster_read {disk : Disk} {v : Fat32Volume} {cache : FatCache} {cluster : Nat}
    {buffer : Bytes} (hne : v.fatSector cluster ≠ cache.sector)
    (h : disk (v.fatSector cluster) = some buffer) :
    v.nextCluster disk cluster cache =
      (fatEntry buffer cluster, ⟨buffer, v.fatSector cluster⟩) := by
  rw [nextCluster, if_neg hne, h]

theorem nextCluster_failed {disk : Disk} {v : Fat32Volume} {cache : FatCache} {cluster : Nat}
    (hne : v.fatSector cluster ≠ cache.sector) (h : disk (v.fatSector cluster) = none) :
    v.nextCluster disk cluster cache = (fat32Eof, cache) := by
  rw [nextCluster, if_neg hne, h]

/-- The entry of the sector in the cache, which stays. -/
theorem FatLookup.run_cached (h : call.sector = s.cache.sector) :
    call.run image s = (fatEntry s.cache.buffer call.cluster, s) := by
  have hreads : ¬ call.Reads image s := fun hread => hread.1 h
  unfold run
  rw [nextCluster_cached h, if_neg hreads]

/-- The entry of a sector that is read. -/
theorem FatLookup.run_read (h : call.Reads image s) :
    call.run image s = (call.uncached image,
      ⟨⟨image (call.sector % 0x10000000), call.sector⟩, some call.sector⟩) := by
  obtain ⟨buffer, hbuffer⟩ := Option.isSome_iff_exists.mp h.2
  have hsector : buffer = image (call.sector % 0x10000000) := ataReadSector_some hbuffer
  unfold run
  rw [nextCluster_read h.1 hbuffer, if_pos h, hsector]
  rfl

/-- A failing read changes nothing. -/
theorem FatLookup.run_failed (hne : call.sector ≠ s.cache.sector)
    (h : ¬ call.Reads image s) : call.run image s = (fat32Eof, s) := by
  have hnone : call.answer image = none := by
    by_contra hsome
    exact h ⟨hne, Option.isSome_iff_ne_none.mpr hsome⟩
  unfold run
  rw [nextCluster_failed hne hnone, if_neg h]

theorem fatEntry_boot (cluster : Nat) : fatEntry FatCache.boot.buffer cluster = 0 := by
  simp [fatEntry, FatCache.boot, loadWord]

namespace FatLookups

/-- Every call keeps the trace. -/
theorem Traced.run (h : s.Traced image) (call : FatLookup) : (call.run image s).2.Traced image := by
  by_cases hcached : call.sector = s.cache.sector
  · rw [FatLookup.run_cached hcached]
    exact h
  by_cases hread : call.Reads image s
  · rw [FatLookup.run_read hread]
    exact .read call.sector
  · rw [FatLookup.run_failed hcached hread]
    exact h

/-- A call answers as the disk does, unless it looks into sector 0 before a sector was read. -/
theorem Traced.meets_iff (h : s.Traced image) :
    call.Meets image s ↔ (s.held = none → call.sector ≠ 0) := by
  unfold FatLookup.Meets
  by_cases hcached : call.sector = s.cache.sector
  · have hreads : ¬ call.Reads image s := fun hread => hread.1 hcached
    rw [FatLookup.run_cached hcached]
    cases h with
    | boot =>
      have hheld : ¬ (FatLookups.boot.held = some call.sector ∨ call.Reads image .boot) := by
        rintro (hheld | hread)
        · cases hheld
        · exact hreads hread
      rw [if_neg hheld]
      constructor
      · rintro ⟨heof, -⟩
        exact absurd ((fatEntry_boot call.cluster).symm.trans heof) (by decide)
      · intro hne
        exact absurd hcached (hne rfl)
    | read lba =>
      change call.sector = lba at hcached
      subst hcached
      rw [if_pos (Or.inl rfl)]
      exact ⟨fun _ hnone => absurd hnone (Option.some_ne_none _), fun _ => rfl⟩
  · have hfirst : s.held = none → call.sector ≠ 0 := by
      intro hnone
      cases h with
      | boot => exact hcached
      | read lba => cases hnone
    apply iff_of_true _ hfirst
    by_cases hread : call.Reads image s
    · rw [if_pos (Or.inr hread), FatLookup.run_read hread]
    · have hheld : ¬ (s.held = some call.sector ∨ call.Reads image s) := by
        rintro (hheld | hnow)
        · cases h with
          | boot => cases hheld
          | read lba => exact hcached (Option.some.inj hheld).symm
        · exact hread hnow
      rw [if_neg hheld, FatLookup.run_failed hcached hread]
      exact ⟨rfl, rfl⟩

end FatLookups

/-- The variables after some calls. -/
def afterLookups (image : Nat → Bytes) (calls : List FatLookup) : FatLookups :=
  calls.foldl (fun s call => (call.run image s).2) .boot

/-- No sector was read: each call asked for sector 0, or its read failed. -/
def NothingRead (image : Nat → Bytes) (calls : List FatLookup) : Prop :=
  ∀ call ∈ calls, call.sector = 0 ∨ call.answer image = none

/-- The trace is kept, and nothing is held as long as nothing is read. -/
theorem foldl_traced (h : s.Traced image) (calls : List FatLookup) :
    (calls.foldl (fun s call => (call.run image s).2) s).Traced image ∧
      ((calls.foldl (fun s call => (call.run image s).2) s).held = none ↔
        s.held = none ∧ NothingRead image calls) := by
  induction calls generalizing s with
  | nil => exact ⟨h, by simp [NothingRead]⟩
  | cons call calls ih =>
    obtain ⟨htraced, hheld⟩ := ih (h.run call)
    refine ⟨htraced, hheld.trans ?_⟩
    have hrun : (call.run image s).2.held = none ↔ s.held = none ∧ ¬ call.Reads image s := by
      by_cases hreads : call.Reads image s
      · simp [FatLookup.run, hreads]
      · simp [FatLookup.run, hreads]
    have hfirst : s.held = none →
        (¬ call.Reads image s ↔ call.sector = 0 ∨ call.answer image = none) := by
      intro hnone
      cases h with
      | boot => simp [FatLookup.Reads, FatLookups.boot, FatCache.boot, imp_iff_not_or]
      | read lba => cases hnone
    have hcons : NothingRead image (call :: calls) ↔
        (call.sector = 0 ∨ call.answer image = none) ∧ NothingRead image calls :=
      List.forall_mem_cons
    rw [hrun, hcons, and_assoc]
    exact and_congr_right fun hnone => and_congr_left' (hfirst hnone)

/-- Each of the calls from boot on meets the disk exactly when none looks into sector 0 before a
sector was read. -/
theorem fat_cache_iff (image : Nat → Bytes) (calls : List FatLookup) :
    (∀ before call after, calls = before ++ call :: after →
        call.Meets image (afterLookups image before)) ↔
      ∀ before call after, calls = before ++ call :: after →
        NothingRead image before → call.sector ≠ 0 := by
  have hcall : ∀ (before : List FatLookup) (call : FatLookup),
      call.Meets image (afterLookups image before) ↔
        (NothingRead image before → call.sector ≠ 0) := by
    intro before call
    obtain ⟨htraced, hheld⟩ := foldl_traced (.boot : FatLookups.Traced image .boot) before
    rw [afterLookups, htraced.meets_iff, hheld]
    simp [FatLookups.boot]
  simp only [hcall]

/-- A boot sector of a volume without reserved sectors. -/
def lastSectorImage : Nat → Bytes := fun _ x =>
  if x = 12 then 2 else if x = 13 then 8 else if x = 16 then 2 else if x = 36 then 1
  else if x = 44 then 128 else 0

/-- The volume at the last address; its root directory begins at cluster 128. -/
def lastSectorVolume : Fat32Volume where
  partitionLba := 4294967295
  sectorsPerCluster := 8
  rootCluster := 128
  firstDataSector := 2
  fat1Lba := 4294967295

/-- The drive delivers its boot sector from the lower bits of the address. -/
theorem lastSectorVolume_mounted :
    fat32Init (ataReadSector lastSectorImage ⟨true, true⟩) [⟨0x0C, 4294967295⟩] =
      some lastSectorVolume := by
  have hread : ataReadSector lastSectorImage ⟨true, true⟩ 4294967295 =
      some (lastSectorImage 268435455) := by
    unfold ataReadSector
    rw [if_neg (by decide), if_neg (by decide), if_neg (by decide)]
  simp [fat32Init, hread, lastSectorVolume, loadHalf, lastSectorImage, wrap32, loadWord]

/-- The first lookup for its root directory, on a drive that delivers. -/
def lastSectorLookup : FatLookup := ⟨lastSectorVolume, 128, ⟨true, true⟩⟩

theorem lastSectorLookup_sector : lastSectorLookup.sector = 0 := by decide

/-- This volume is mounted, and the first lookup for its root directory takes the empty cache for
sector 0. -/
theorem fat_cache_sector_zero :
    fat32Init (ataReadSector lastSectorImage ⟨true, true⟩) [⟨0x0C, 4294967295⟩] =
        some lastSectorVolume ∧
      ¬ ∀ (image : Nat → Bytes) (calls : List FatLookup),
        (∀ call ∈ calls, 1 ≤ call.volume.fat1Lba) →
          ∀ before call after, calls = before ++ call :: after →
            call.Meets image (afterLookups image before) := by
  constructor
  · exact lastSectorVolume_mounted
  · intro h
    have hbehind : ∀ call ∈ [lastSectorLookup], 1 ≤ call.volume.fat1Lba := by
      simp [lastSectorLookup, lastSectorVolume]
    have hmeets : lastSectorLookup.Meets lastSectorImage .boot :=
      h lastSectorImage _ hbehind [] lastSectorLookup [] rfl
    have hne : FatLookups.boot.held = none → lastSectorLookup.sector ≠ 0 :=
      (FatLookups.Traced.meets_iff .boot).mp hmeets
    exact hne rfl lastSectorLookup_sector

end Calls

end EnclaveOS
