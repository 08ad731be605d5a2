import EnclaveOS.Fs.FatEnds

/-!
# FatClusters - the clusters that the FAT calls read

A call gets the sectors of the clusters on a chain, as far as it comes.  On a well-formed volume
these are data clusters as long as the call does not take one of two marks for a cluster: the
zero that the entry of a parent stores for the root directory, and the mark of a bad cluster.
-/

namespace EnclaveOS

open ByteMemory

/-- `FAT32_BAD`. -/
def fat32Bad : Nat := 0x0FFFFFF7

section Walks

variable {σ α : Type} {disk : Disk} {v : Fat32Volume} {start : Nat} {cache : FatCache}
  {step : DirEntry → σ → Scan σ (Option α)} {s : σ} {c : Nat}

theorem head_walk_visited (hlive : start < fat32Eof) (rounds : Nat) :
    start ∈ (v.walk disk step (rounds + 1) start cache s).visited := by
  unfold Fat32Volume.walk
  rw [if_pos hlive]
  cases scanSectors disk step (v.clusterToLba start) (List.range v.sectorsPerCluster) s with
  | next s' => simp
  | done a => simp
  | overrun => simp

/-- A walk comes to the clusters of its chain as long as the scan of those before goes on. -/
theorem mem_walk_visited_iff :
    (∃ rounds, c ∈ (v.walk disk step rounds start cache s).visited) ↔
      ∃ i, v.Live disk start cache (i + 1) ∧
        (∃ s', scanList (itemStep step) (v.chainItems disk start cache i) s = .next s') ∧
        (v.chain disk start cache i).1 = c := by
  constructor
  · rintro ⟨rounds, hmem⟩
    induction rounds generalizing start cache s with
    | zero => exact absurd hmem List.not_mem_nil
    | succ rounds ih =>
      by_cases hlive : start < fat32Eof
      · have hfirst : c = start → ∃ i, v.Live disk start cache (i + 1) ∧
            (∃ s', scanList (itemStep step) (v.chainItems disk start cache i) s = .next s') ∧
            (v.chain disk start cache i).1 = c := by
          rintro rfl
          exact ⟨0, live_succ.mpr ⟨hlive, fun i hi => absurd hi (Nat.not_lt_zero i)⟩, ⟨s, rfl⟩, rfl⟩
        cases hscan : scanList (itemStep step) (v.clusterItems disk start) s with
        | next s' =>
          rw [walk_next hlive hscan, List.mem_cons] at hmem
          rcases hmem with hhead | hmem
          · exact hfirst hhead
          · obtain ⟨i, hi, ⟨s'', hscan'⟩, hc⟩ := ih hmem
            refine ⟨i + 1, live_succ.mpr ⟨hlive, hi⟩, ⟨s'', ?_⟩, hc⟩
            rw [chainItems_succ, scanList_append, hscan]
            exact hscan'
        | done a =>
          unfold Fat32Volume.clusterItems at hscan
          rw [Fat32Volume.walk, if_pos hlive, scanSectors_eq, hscan] at hmem
          exact hfirst (List.mem_singleton.mp hmem)
        | overrun =>
          unfold Fat32Volume.clusterItems at hscan
          rw [Fat32Volume.walk, if_pos hlive, scanSectors_eq, hscan] at hmem
          exact hfirst (List.mem_singleton.mp hmem)
      · rw [Fat32Volume.walk, if_neg hlive] at hmem
        exact absurd hmem List.not_mem_nil
  · rintro ⟨i, hlive, ⟨s', hscan⟩, rfl⟩
    have hbefore : v.Live disk start cache i := fun j hj => hlive j (hj.trans i.lt_succ_self)
    refine ⟨i + 1, ?_⟩
    rw [walk_add i hbefore hscan]
    exact List.mem_append_right _ (head_walk_visited (hlive i i.lt_succ_self) 0)

end Walks

section Sectors

variable {disk : Disk} {lba size : Nat}

/-- One sector of a cluster that is read. -/
theorem fat32ReadSectors_cons (rest : List Nat) {s clusterOffset : Nat}
    {out : List (BitVec 8)} {secBuf : Bytes} (hoff : clusterOffset < 512)
    (hdisk : disk (wrap32 (lba + s)) = some secBuf)
    (hfit : out.length + (512 - clusterOffset) < size) :
    ∃ out₁, out₁.length = out.length + (512 - clusterOffset) ∧
      fat32ReadSectors disk lba size (s :: rest) clusterOffset out =
        fat32ReadSectors disk lba size rest 0 out₁ := by
  refine ⟨out ++ (List.range (min (512 - clusterOffset) (size - out.length))).map
    fun i => secBuf (clusterOffset + i), ?_, ?_⟩
  · rw [List.length_append, List.length_map, List.length_range]
    omega
  · rw [fat32ReadSectors, if_neg (Nat.not_le.mpr hoff), hdisk]
    dsimp only
    rw [if_neg]
    rw [List.length_append, List.length_map, List.length_range]
    omega

/-- The loop over the sectors of a cluster stops at an unreadable sector and with the last
byte. -/
theorem fat32ReadSectors_cons_stop (s : Nat) (rest : List Nat) {clusterOffset : Nat}
    {out : List (BitVec 8)} (hoff : clusterOffset < 512)
    (h : disk (wrap32 (lba + s)) = none ∨ size ≤ out.length + (512 - clusterOffset)) :
    ∃ out', fat32ReadSectors disk lba size (s :: rest) clusterOffset out = (true, out') := by
  rw [fat32ReadSectors, if_neg (Nat.not_le.mpr hoff)]
  cases hdisk : disk (wrap32 (lba + s)) with
  | none => exact ⟨out, rfl⟩
  | some secBuf =>
    have hfull := h.resolve_left (by simp [hdisk])
    dsimp only
    rw [if_pos]
    · exact ⟨_, rfl⟩
    · rw [List.length_append, List.length_map, List.length_range]
      omega

/-- The sectors from an offset on can be read. -/
def ReadableFrom (disk : Disk) (lba clusterOffset : Nat) (sectors : List Nat) : Prop :=
  ∀ k s, sectors[k]? = some s → clusterOffset < (k + 1) * 512 → (disk (wrap32 (lba + s))).isSome

theorem readableFrom_cons {s clusterOffset : Nat} {rest : List Nat} :
    ReadableFrom disk lba clusterOffset (s :: rest) ↔
      (clusterOffset < 512 → (disk (wrap32 (lba + s))).isSome) ∧
        ReadableFrom disk lba (clusterOffset - 512) rest := by
  constructor
  · intro h
    exact ⟨fun hoff => h 0 s rfl (by omega), fun k s' hk hoff => h (k + 1) s' hk (by omega)⟩
  · rintro ⟨hhead, hrest⟩ k s' hk hoff
    cases k with
    | zero =>
      cases hk
      exact hhead (by omega)
    | succ k => exact hrest k s' hk (by omega)

theorem skipped_sector {clusterOffset : Nat} (sectors : Nat) (h : 512 ≤ clusterOffset) :
    sectors * 512 - (clusterOffset - 512) = (sectors + 1) * 512 - clusterOffset := by
  omega

/-- The loop over the sectors of a cluster goes on to the next cluster when all sectors from the
offset on can be read, and bytes are still missing. -/
theorem fat32ReadSectors_goes_on {sectors : List Nat} {clusterOffset : Nat}
    {out : List (BitVec 8)} (hread : ReadableFrom disk lba clusterOffset sectors)
    (hfit : out.length + (sectors.length * 512 - clusterOffset) < size) :
    ∃ out', fat32ReadSectors disk lba size sectors clusterOffset out = (false, out') := by
  induction sectors generalizing clusterOffset out with
  | nil => exact ⟨out, rfl⟩
  | cons s rest ih =>
    obtain ⟨hhead, hrest⟩ := readableFrom_cons.mp hread
    rw [List.length_cons] at hfit
    by_cases hskip : 512 ≤ clusterOffset
    · rw [← skipped_sector rest.length hskip] at hfit
      rw [fat32ReadSectors, if_pos hskip]
      exact ih hrest hfit
    · have hoff := Nat.not_le.mp hskip
      have hsector : out.length + (512 - clusterOffset) < size := by omega
      obtain ⟨secBuf, hdisk⟩ := Option.isSome_iff_exists.mp (hhead hoff)
      obtain ⟨out₁, hlen, hcons⟩ := fat32ReadSectors_cons rest hoff hdisk hsector
      have hfit' : out₁.length + (rest.length * 512 - 0) < size := by omega
      rw [Nat.sub_eq_zero_of_le hoff.le] at hrest
      rw [hcons]
      exact ih hrest hfit'

/-- It goes on only then. -/
theorem fat32ReadSectors_gone_on {sectors : List Nat} {clusterOffset : Nat}
    {out out' : List (BitVec 8)} (hlt : out.length < size)
    (h : fat32ReadSectors disk lba size sectors clusterOffset out = (false, out')) :
    ReadableFrom disk lba clusterOffset sectors ∧
      out'.length = out.length + (sectors.length * 512 - clusterOffset) ∧ out'.length < size := by
  induction sectors generalizing clusterOffset out with
  | nil =>
    cases h
    exact ⟨fun k s hk => absurd hk (by simp), by simp, hlt⟩
  | cons s rest ih =>
    rw [readableFrom_cons, List.length_cons]
    by_cases hskip : 512 ≤ clusterOffset
    · rw [fat32ReadSectors, if_pos hskip] at h
      obtain ⟨hread, hlen, hsize⟩ := ih hlt h
      rw [skipped_sector rest.length hskip] at hlen
      exact ⟨⟨fun hoff => absurd hskip (Nat.not_le.mpr hoff), hread⟩, hlen, hsize⟩
    · have hoff := Nat.not_le.mp hskip
      by_cases hstop : disk (wrap32 (lba + s)) = none ∨ size ≤ out.length + (512 - clusterOffset)
      · obtain ⟨out'', hstopped⟩ := fat32ReadSectors_cons_stop s rest hoff hstop
        rw [hstopped] at h
        cases h
      · obtain ⟨hsome, hfit⟩ := not_or.mp hstop
        obtain ⟨secBuf, hdisk⟩ := Option.ne_none_iff_exists'.mp hsome
        obtain ⟨out₁, hlen₁, hcons⟩ := fat32ReadSectors_cons rest hoff hdisk (Nat.not_le.mp hfit)
        rw [hcons] at h
        obtain ⟨hread, hlen, hsize⟩ := ih (by omega) h
        rw [Nat.sub_eq_zero_of_le hoff.le]
        exact ⟨⟨fun _ => by rw [hdisk]; rfl, hread⟩, by omega, hsize⟩

end Sectors

section Reading

variable {disk : Disk} {v : Fat32Volume} {size c start : Nat} {cache : FatCache}

/-- The sectors of the first clusters of a chain can be read, from an offset on. -/
def Fat32Volume.ReadableUpTo (disk : Disk) (v : Fat32Volume) (start : Nat) (cache : FatCache)
    (offset n : Nat) : Prop :=
  ∀ i < n, ReadableFrom disk (v.clusterToLba (v.chain disk start cache i).1)
    (offset - i * (v.sectorsPerCluster * 512)) (List.range v.sectorsPerCluster)

theorem readableUpTo_zero (offset : Nat) : v.ReadableUpTo disk start cache offset 0 :=
  fun i hi => absurd hi (Nat.not_lt_zero i)

theorem readableUpTo_succ {offset n : Nat} (hoff : offset ≤ v.sectorsPerCluster * 512) :
    v.ReadableUpTo disk start cache offset (n + 1) ↔
      ReadableFrom disk (v.clusterToLba start) offset (List.range v.sectorsPerCluster) ∧
        v.ReadableUpTo disk (v.nextCluster disk start cache).1
          (v.nextCluster disk start cache).2 0 n := by
  have hrest : ∀ i, offset - (i + 1) * (v.sectorsPerCluster * 512) =
      0 - i * (v.sectorsPerCluster * 512) := by
    intro i
    rw [Nat.succ_mul]
    omega
  constructor
  · intro h
    refine ⟨by simpa using h 0 n.succ_pos, fun i hi => ?_⟩
    rw [← hrest, ← chain_succ]
    exact h (i + 1) (Nat.succ_lt_succ hi)
  · rintro ⟨hhead, htail⟩ i hi
    cases i with
    | zero => simpa using hhead
    | succ i =>
      rw [hrest, chain_succ]
      exact htail i (Nat.lt_of_succ_lt_succ hi)

/-- The loop of a read comes to the clusters that are needed, as long as the sectors before can
be read. -/
theorem mem_readClusters_visited_iff (rounds : Nat) {cluster : Nat} {cache : FatCache}
    {clusterOffset : Nat} {out : List (BitVec 8)} (hoff : clusterOffset ≤ v.sectorsPerCluster * 512) :
    c ∈ (v.readClusters disk size rounds cluster cache clusterOffset out).visited ↔
      ∃ i < rounds, out.length + (i * (v.sectorsPerCluster * 512) - clusterOffset) < size ∧
        v.Live disk cluster cache (i + 1) ∧
        v.ReadableUpTo disk cluster cache clusterOffset i ∧
        (v.chain disk cluster cache i).1 = c := by
  induction rounds generalizing cluster cache clusterOffset out with
  | zero => simp [Fat32Volume.readClusters]
  | succ rounds ih =>
    rw [Fat32Volume.readClusters]
    by_cases hgo : out.length < size ∧ cluster < fat32Eof
    · have hzero : v.Live disk cluster cache (0 + 1) :=
        live_succ.mpr ⟨hgo.2, fun i hi => absurd hi (Nat.not_lt_zero i)⟩
      have hfits : out.length + (0 * (v.sectorsPerCluster * 512) - clusterOffset) < size := by
        simpa using hgo.1
      rw [if_pos hgo]
      cases hres : fat32ReadSectors disk (v.clusterToLba cluster) size
          (List.range v.sectorsPerCluster) clusterOffset out with
      | mk stop out' =>
        cases stop with
        | true =>
          simp only [List.mem_singleton]
          constructor
          · rintro rfl
            exact ⟨0, rounds.succ_pos, hfits, hzero, readableUpTo_zero _, rfl⟩
          · rintro ⟨i, -, hfit, -, hread, rfl⟩
            cases i with
            | zero => rfl
            | succ i =>
              -- with all its sectors read, the loop would have gone on
              rw [Nat.succ_mul] at hfit
              obtain ⟨out'', hgone⟩ := fat32ReadSectors_goes_on
                ((readableUpTo_succ hoff).mp hread).1
                (show out.length + ((List.range v.sectorsPerCluster).length * 512 - clusterOffset) <
                  size by rw [List.length_range]; omega)
              rw [hres] at hgone
              cases hgone
        | false =>
          obtain ⟨hread, hlen, hsize⟩ := fat32ReadSectors_gone_on hgo.1 hres
          rw [List.length_range] at hlen
          dsimp only
          rw [List.mem_cons, ih (Nat.zero_le _)]
          constructor
          · rintro (rfl | ⟨i, hi, hfit, hlive, hrest, rfl⟩)
            · exact ⟨0, rounds.succ_pos, hfits, hzero, readableUpTo_zero _, rfl⟩
            · refine ⟨i + 1, Nat.succ_lt_succ hi, ?_, live_succ.mpr ⟨hgo.2, hlive⟩,
                (readableUpTo_succ hoff).mpr ⟨hread, hrest⟩, rfl⟩
              rw [Nat.succ_mul]
              omega
          · rintro ⟨i, hi, hfit, hlive, hrest, rfl⟩
            cases i with
            | zero => exact Or.inl rfl
            | succ i =>
              rw [Nat.succ_mul] at hfit
              exact Or.inr ⟨i, Nat.lt_of_succ_lt_succ hi, by omega, (live_succ.mp hlive).2,
                ((readableUpTo_succ hoff).mp hrest).2, rfl⟩
    · rw [if_neg hgo]
      refine iff_of_false List.not_mem_nil ?_
      rintro ⟨i, -, hfit, hlive, -⟩
      exact hgo ⟨by omega, hlive 0 i.succ_pos⟩

/-- The loop that skips clusters. -/
theorem skipClusters_chain (n : Nat) :
    (∀ i < n, (v.chain disk start cache (i + 1)).1 < fat32Eof) ∧
        v.skipClusters disk n start cache =
          (some (v.chain disk start cache n).1, (v.chain disk start cache n).2) ∨
      (∃ i < n, fat32Eof ≤ (v.chain disk start cache (i + 1)).1) ∧
        ∃ cache', v.skipClusters disk n start cache = (none, cache') := by
  induction n generalizing start cache with
  | zero => exact Or.inl ⟨fun i hi => absurd hi (Nat.not_lt_zero i), rfl⟩
  | succ n ih =>
    rw [Fat32Volume.skipClusters]
    by_cases heof : fat32Eof ≤ (v.nextCluster disk start cache).1
    · exact Or.inr ⟨⟨0, n.succ_pos, heof⟩, _, if_pos heof⟩
    · simp only [if_neg heof]
      rcases @ih (v.nextCluster disk start cache).1 (v.nextCluster disk start cache).2 with
        ⟨hlive, hskip⟩ | ⟨⟨i, hi, hend⟩, hskip⟩
      · refine Or.inl ⟨fun i hi => ?_, hskip⟩
        cases i with
        | zero => exact Nat.not_le.mp heof
        | succ i => exact hlive i (Nat.lt_of_succ_lt_succ hi)
      · exact Or.inr ⟨⟨i + 1, Nat.succ_lt_succ hi, hend⟩, hskip⟩

theorem chain_add (n i : Nat) :
    v.chain disk (v.chain disk start cache n).1 (v.chain disk start cache n).2 i =
      v.chain disk start cache (n + i) := by
  unfold Fat32Volume.chain
  rw [Nat.add_comm, Function.iterate_add_apply]

/-- The clusters before the offset have no sectors to read. -/
theorem readableUpTo_add (offset i : Nat) (hspc : 0 < v.sectorsPerCluster) :
    v.ReadableUpTo disk start cache offset (offset / (v.sectorsPerCluster * 512) + i) ↔
      v.ReadableUpTo disk (v.chain disk start cache (offset / (v.sectorsPerCluster * 512))).1
        (v.chain disk start cache (offset / (v.sectorsPerCluster * 512))).2
        (offset % (v.sectorsPerCluster * 512)) i := by
  generalize hn : offset / (v.sectorsPerCluster * 512) = n
  have hsplit := Nat.div_add_mod' offset (v.sectorsPerCluster * 512)
  rw [hn] at hsplit
  have hplace : ∀ j, offset - (n + j) * (v.sectorsPerCluster * 512) =
      offset % (v.sectorsPerCluster * 512) - j * (v.sectorsPerCluster * 512) := by
    intro j
    rw [Nat.add_mul]
    omega
  constructor
  · intro h j hj
    rw [chain_add, ← hplace]
    exact h (n + j) (Nat.add_lt_add_left hj n)
  · intro h j hj
    rcases Nat.lt_or_ge j n with hbefore | hbehind
    · intro k s hk hoff
      have hkey : k < v.sectorsPerCluster := by
        simpa using (List.getElem?_eq_some_iff.mp hk).1
      have hcluster : (j + 1) * (v.sectorsPerCluster * 512) ≤ n * (v.sectorsPerCluster * 512) :=
        Nat.mul_le_mul_right _ hbefore
      rw [Nat.succ_mul] at hcluster
      omega
    · obtain ⟨i', rfl⟩ := Nat.exists_eq_add_of_le hbehind
      rw [hplace, ← chain_add]
      exact h i' (by omega)

/-- A read comes to a cluster of its chain. -/
def FatNode.ReadsTo (disk : Disk) (node : FatNode) (v : Fat32Volume) (start : Nat)
    (cache : FatCache) (offset size i : Nat) : Prop :=
  offset < node.size ∧ offset / (v.sectorsPerCluster * 512) ≤ i ∧
    i * (v.sectorsPerCluster * 512) - offset <
      (if node.size < wrap32 (offset + size) then node.size - offset else size) ∧
    v.Live disk start cache (i + 1) ∧ v.ReadableUpTo disk start cache offset i

/-- A read comes to the clusters from its offset on that are needed, as long as the sectors
before can be read. -/
theorem mem_read_visited_iff {node : FatNode} (hnode : node.volume = some (v, start))
    (hspc : 0 < v.sectorsPerCluster) (hstart : start < fat32Eof) {offset : Nat} :
    (∃ rounds, c ∈ (node.read disk offset size rounds cache).visited) ↔
      ∃ i, node.ReadsTo disk v start cache offset size i ∧
        (v.chain disk start cache i).1 = c := by
  unfold FatNode.read FatNode.ReadsTo
  rw [hnode]
  dsimp only
  by_cases hpast : node.size ≤ offset
  · simp [if_pos hpast, Nat.not_lt.mpr hpast]
  simp only [if_neg hpast, if_neg hspc.ne', Nat.not_le.mp hpast, true_and]
  generalize (if node.size < wrap32 (offset + size) then node.size - offset else size) = count
  have hsplit := Nat.div_add_mod' offset (v.sectorsPerCluster * 512)
  have hreadable := fun i => @readableUpTo_add disk v start cache offset i hspc
  have hmod := Nat.mod_lt offset (show 0 < v.sectorsPerCluster * 512 by omega)
  generalize offset / (v.sectorsPerCluster * 512) = n at hsplit hreadable ⊢
  rcases @skipClusters_chain disk v start cache n with ⟨hlive, hskip⟩ | ⟨⟨j, hj, hend⟩, cache', hskip⟩
  · simp only [hskip, mem_readClusters_visited_iff _ hmod.le, List.length_nil, Nat.zero_add]
    constructor
    · rintro ⟨rounds, i, -, hfit, hrest, hread, rfl⟩
      refine ⟨n + i, ⟨Nat.le_add_right n i, ?_, fun k hk => ?_, (hreadable i).mpr hread⟩, ?_⟩
      · rw [Nat.add_mul]
        omega
      · rcases Nat.lt_or_ge k n with hbefore | hbehind
        · cases k with
          | zero => exact hstart
          | succ k => exact hlive k (Nat.lt_of_succ_lt hbefore)
        · obtain ⟨k', rfl⟩ := Nat.exists_eq_add_of_le hbehind
          rw [← chain_add]
          exact hrest k' (by omega)
      · rw [← chain_add]
    · rintro ⟨i, ⟨hle, hfit, hall, hread⟩, rfl⟩
      obtain ⟨i, rfl⟩ := Nat.exists_eq_add_of_le hle
      refine ⟨i + 1, i, i.lt_succ_self, ?_, fun k hk => ?_, (hreadable i).mp hread, ?_⟩
      · rw [Nat.add_mul] at hfit
        omega
      · rw [chain_add]
        exact hall (n + k) (by omega)
      · rw [chain_add]
  · simp only [hskip]
    refine iff_of_false (by simp) ?_
    rintro ⟨i, ⟨hle, -, hall, -⟩, -⟩
    exact absurd (hall (j + 1) (by omega)) (Nat.not_lt.mpr hend)

end Reading

/-- A walk comes to a cluster of its chain: in those before it has found neither what it looks
for nor an end. -/
def Fat32Volume.Comes (disk : Disk) (v : Fat32Volume) (start : Nat) (cache : FatCache)
    (found : List (DirEntry × Option LongName) → Prop) (i : Nat) : Prop :=
  v.Live disk start cache (i + 1) ∧ ¬found (listing (v.chainItems disk start cache i) none) ∧
    ∃ long, listEnd (v.chainItems disk start cache i) none = .next long

/-- Neither the start cluster nor one that a walk comes to is a mark. -/
def Fat32Volume.Clear (disk : Disk) (v : Fat32Volume) (start : Nat) (cache : FatCache)
    (found : List (DirEntry × Option LongName) → Prop) : Prop :=
  start ≠ 0 ∧ ∀ i, v.Comes disk start cache found i → (v.chain disk start cache i).1 ≠ fat32Bad

/-- A chain of data clusters, with an end mark or the mark of a bad cluster behind them. -/
def Fat32Volume.WellChained (disk : Disk) (v : Fat32Volume) (n start : Nat) : Prop :=
  ∀ i, (∀ j ≤ i, DataCluster n ((v.link disk)^[j] start)) →
    DataCluster n ((v.link disk)^[i + 1] start) ∨ (v.link disk)^[i + 1] start = fat32Bad ∨
      fat32Eof ≤ (v.link disk)^[i + 1] start

section Clear

variable {σ α : Type} {disk : Disk} {v : Fat32Volume} {n start : Nat} {cache : FatCache}
  {step : DirEntry → σ → Scan σ (Option α)} {s : σ} {answer : List (Option DirEntry) → Option α}
  {found : List (DirEntry × Option LongName) → Prop}

/-- A chain stays on data clusters up to a mark. -/
theorem Fat32Volume.WellChained.data (h : v.WellChained disk n start) (hstart : DataCluster n start)
    (hfat : v.FatBehindBoot) (hcache : cache.Valid disk) {i : Nat}
    (hlive : v.Live disk start cache (i + 1))
    (hclear : ∀ j ≤ i, (v.chain disk start cache j).1 ≠ fat32Bad) :
    ∀ j ≤ i, DataCluster n (v.chain disk start cache j).1 := by
  intro j
  induction j using Nat.strong_induction_on with
  | _ j ih =>
    intro hj
    cases j with
    | zero => exact hstart
    | succ j =>
      have hbefore : ∀ k ≤ j, DataCluster n ((v.link disk)^[k] start) := by
        intro k hk
        rw [← (chain_link hfat hcache k).1]
        exact ih k (Nat.lt_succ_of_le hk) (by omega)
      have hlt := hlive (j + 1) (by omega)
      have hne := hclear (j + 1) hj
      rw [(chain_link hfat hcache (j + 1)).1] at hlt hne ⊢
      rcases h j hbefore with hdata | hbad | heof
      · exact hdata
      · exact absurd hbad hne
      · exact absurd hlt (Nat.not_lt.mpr heof)

theorem not_dataCluster_zero : ¬DataCluster n 0 := by
  unfold DataCluster
  omega

theorem not_dataCluster_bad (hn : n + 2 ≤ fat32Bad) : ¬DataCluster n fat32Bad := by
  unfold DataCluster
  omega

/-- A walk that reads the listing comes to the clusters before it has found something. -/
theorem mem_walk_visited_comes
    (hreads : ∀ items, ReadsListing (answer items) (listEnd items none)
      (scanList (itemStep step) items s))
    (hfound : ∀ items, (answer items).isSome ↔ found (listing items none)) {c : Nat} :
    (∃ rounds, c ∈ (v.walk disk step rounds start cache s).visited) ↔
      ∃ i, v.Comes disk start cache found i ∧ (v.chain disk start cache i).1 = c := by
  rw [mem_walk_visited_iff]
  refine exists_congr fun i => ?_
  unfold Fat32Volume.Comes
  rw [(hreads _).next_iff, ← hfound, Option.not_isSome_iff_eq_none]
  simp only [and_assoc]

/-- Such a walk comes to each cluster before one it comes to. -/
theorem Fat32Volume.Comes.before
    (hreads : ∀ items, ReadsListing (answer items) (listEnd items none)
      (scanList (itemStep step) items s))
    (hfound : ∀ items, (answer items).isSome ↔ found (listing items none)) {i j : Nat}
    (h : v.Comes disk start cache found i) (hj : j ≤ i) : v.Comes disk start cache found j := by
  obtain ⟨hlive, hfresh, hend⟩ := h
  have hnext := (hreads _).next_iff.mpr
    ⟨Option.not_isSome_iff_eq_none.mp (mt (hfound _).mp hfresh), hend⟩
  obtain ⟨s', hs'⟩ := hnext
  have hscan : ∃ s'', scanList (itemStep step) (v.chainItems disk start cache j) s = .next s'' := by
    cases hx : scanList (itemStep step) (v.chainItems disk start cache j) s with
    | next s'' => exact ⟨s'', rfl⟩
    | done a =>
      rw [scan_chainItems_mono hj hx (by simp)] at hs'
      cases hs'
    | overrun =>
      rw [scan_chainItems_mono hj hx (by simp)] at hs'
      cases hs'
  obtain ⟨hnone, hend'⟩ := (hreads _).next_iff.mp hscan
  refine ⟨fun k hk => hlive k (by omega), fun hfind => ?_, hend'⟩
  rw [← hfound, hnone] at hfind
  cases hfind

/-- On a well-formed chain a walk reads data clusters only as long as it takes no mark for a
cluster. -/
theorem walk_data_iff (hn : n + 2 ≤ fat32Bad) (hfat : v.FatBehindBoot) (hcache : cache.Valid disk)
    (hstart : DataCluster n start ∧ v.WellChained disk n start ∨ start = 0)
    (hreads : ∀ items, ReadsListing (answer items) (listEnd items none)
      (scanList (itemStep step) items s))
    (hfound : ∀ items, (answer items).isSome ↔ found (listing items none)) :
    (∀ rounds, ∀ c ∈ (v.walk disk step rounds start cache s).visited, DataCluster n c) ↔
      v.Clear disk start cache found := by
  constructor
  · intro h
    have hdata : ∀ i, v.Comes disk start cache found i →
        DataCluster n (v.chain disk start cache i).1 := by
      intro i hi
      obtain ⟨rounds, hmem⟩ := (mem_walk_visited_comes hreads hfound).mpr ⟨i, hi, rfl⟩
      exact h rounds _ hmem
    refine ⟨?_, fun i hi hbad => not_dataCluster_bad hn (hbad ▸ hdata i hi)⟩
    rintro rfl
    exact not_dataCluster_zero (h 1 0 (head_walk_visited (by decide) 0))
  · rintro ⟨hne, hclear⟩ rounds c hmem
    obtain ⟨hdata, hchain⟩ := hstart.resolve_right hne
    obtain ⟨i, hi, rfl⟩ := (mem_walk_visited_comes hreads hfound).mp ⟨rounds, hmem⟩
    exact hchain.data hdata hfat hcache hi.1
      (fun j hj => hclear j (hi.before hreads hfound hj)) i le_rfl

end Clear

/-- The entries on the first clusters behind a start cluster. -/
def Fat32Volume.linkItems (disk : Disk) (v : Fat32Volume) (start n : Nat) :
    List (Option DirEntry) :=
  (List.range n).flatMap fun i => v.clusterItems disk ((v.link disk)^[i] start)

/-- What the directories of a volume store, from the root on: whether it is a directory, the
start cluster and the size. -/
inductive Fat32Volume.Stored (disk : Disk) (v : Fat32Volume) (n : Nat) : Bool → Nat → Nat → Prop
  | root : Stored disk v n true v.rootCluster 0
  | entry {start size clusters : Nat} {file : DirEntry × Option LongName}
      (dir : Stored disk v n true start size)
      (data : ∀ i < clusters, DataCluster n ((v.link disk)^[i] start))
      (mem : file ∈ listing (v.linkItems disk start clusters) none) :
      Stored disk v n (file.1.attr &&& fat32AttrDirectory ≠ 0) file.1.cluster file.1.fileSize

/-- A volume with `n` data clusters whose chains are well formed.  A directory entry may
store cluster 0 for the root directory, and a file without bytes has no cluster. -/
structure Fat32Volume.WellFormed (disk : Disk) (v : Fat32Volume) (n : Nat) : Prop where
  layout : v.OnDisk n
  sectors : 0 < v.sectorsPerCluster
  clusters : n + 2 ≤ fat32Bad
  chains : ∀ isDir start size, v.Stored disk n isDir start size →
    DataCluster n start ∧ v.WellChained disk n start ∨ start = 0 ∧ (isDir = true ∨ size = 0)

/-- What `fat32_readdir` looks for. -/
def AtIndex (index : Nat) (files : List (DirEntry × Option LongName)) : Prop :=
  index < files.length

/-- What `fat32_finddir` looks for. -/
def HasName (name : List (BitVec 8)) (stack : Bytes) (files : List (DirEntry × Option LongName)) :
    Prop :=
  ∃ file ∈ files, nameIn (storedName stack file.1 file.2) = name

/-- The nodes that lookups lead to from the root, none of which takes a mark for a cluster. -/
inductive FatReached (disk : Disk) (v : Fat32Volume) : FatNode → Prop
  | root : FatReached disk v v.root
  | child {node child : FatNode} {start rounds : Nat} {name : List (BitVec 8)}
      {stack : Bytes × Bytes} {cache cache' : FatCache} (parent : FatReached disk v node)
      (directory : node.flags = 0x02) (volume : node.volume = some (v, start))
      (cached : cache.Valid disk) (clear : v.Clear disk start cache (HasName name stack.2))
      (found : (node.finddir disk name stack rounds cache).result = .done (some child) cache') :
      FatReached disk v child

section Reached

variable {disk : Disk} {v : Fat32Volume} {n start : Nat} {cache : FatCache} {node : FatNode}

theorem chainItems_link (hfat : v.FatBehindBoot) (hcache : cache.Valid disk) (clusters : Nat) :
    v.chainItems disk start cache clusters = v.linkItems disk start clusters := by
  unfold Fat32Volume.chainItems Fat32Volume.linkItems
  simp only [(chain_link hfat hcache _).1]

/-- A lookup in a directory reads its listing. -/
theorem finddir_reads (v : Fat32Volume) (name : List (BitVec 8)) (stack : Bytes × Bytes)
    (items : List (Option DirEntry)) :
    ReadsListing (((listing items none).find? fun file =>
        nameIn (storedName stack.2 file.1 file.2) = name).map fun file => fatChild v name file.1)
      (listEnd items none)
      (scanList (itemStep (finddirEntry v name stack.2)) items (.start stack.1)) :=
  finddir_listing v name stack.2 items (s := .start stack.1)

theorem finddir_found_iff (v : Fat32Volume) (name : List (BitVec 8)) (stack : Bytes)
    (files : List (DirEntry × Option LongName)) :
    ((files.find? fun file => nameIn (storedName stack file.1 file.2) = name).map
      fun file => fatChild v name file.1).isSome ↔ HasName name stack files := by
  simp [HasName]

/-- A listing of a directory reads it. -/
theorem readdir_reads (index : BitVec 32) (entry : FatDirent) (items : List (Option DirEntry)) :
    ReadsListing ((listing items none)[index.toNat]?.map
        fun file => ⟨file.1.cluster, storedName entry.name file.1 file.2⟩)
      (listEnd items none)
      (scanList (itemStep (readdirEntry index.toNat entry)) items ⟨0, .start fun _ => 0⟩) :=
  readdir_listing index.isLt entry items (s := ⟨0, .start fun _ => 0⟩) (Nat.zero_le _)

theorem readdir_found_iff (index : Nat) (entry : FatDirent)
    (files : List (DirEntry × Option LongName)) :
    (files[index]?.map fun file =>
      (⟨file.1.cluster, storedName entry.name file.1 file.2⟩ : FatDirent)).isSome ↔
      AtIndex index files := by
  simp [AtIndex]

/-- The node that a lookup returns stands for an entry on a cluster that the lookup has come
to. -/
theorem finddir_child {child : FatNode} {rounds : Nat} {name : List (BitVec 8)}
    {stack : Bytes × Bytes} {cache' : FatCache} (hvolume : node.volume = some (v, start))
    (h : (node.finddir disk name stack rounds cache).result = .done (some child) cache') :
    ∃ i file, v.Comes disk start cache (HasName name stack.2) i ∧
      file ∈ listing (v.chainItems disk start cache (i + 1)) none ∧
      child = fatChild v name file.1 := by
  unfold FatNode.finddir at h
  rw [hvolume] at h
  dsimp only at h
  obtain ⟨i, s', hlive, hscan, ⟨-, hrunning⟩ | ⟨-, hlast⟩⟩ :=
    @walk_cases _ _ disk v start cache (finddirEntry v name stack.2) (.start stack.1) rounds
  · rw [h] at hrunning
    cases hrunning
  · rw [h] at hlast
    rcases scan_lastRound hlive hscan hlast with ⟨-, hr⟩ | ⟨hlive', x, -, hscan', hr⟩
    · cases hr
    obtain ⟨hnone, hend⟩ := (finddir_reads v name stack _).next_iff.mp ⟨s', hscan⟩
    have hfresh := mt (finddir_found_iff v name stack.2 _).mpr
      (Option.not_isSome_iff_eq_none.mpr hnone)
    have hreads := finddir_reads v name stack (v.chainItems disk start cache (i + 1))
    rw [hscan'] at hreads
    obtain rfl : x = .done (some child) := by
      cases x with
      | next s'' => cases hr
      | done a =>
        cases hr
        rfl
      | overrun => cases hr
    cases hfind : (listing (v.chainItems disk start cache (i + 1)) none).find? fun file =>
        nameIn (storedName stack.2 file.1 file.2) = name with
    | none =>
      rw [hfind] at hreads
      cases hstop : listEnd (v.chainItems disk start cache (i + 1)) none with
      | next long =>
        rw [hstop] at hreads
        obtain ⟨s'', hs''⟩ := hreads
        cases hs''
      | done u =>
        rw [hstop] at hreads
        cases hreads
      | overrun =>
        rw [hstop] at hreads
        cases hreads
    | some file =>
      rw [hfind] at hreads
      cases hreads
      exact ⟨i, file, ⟨hlive', hfresh, hend⟩, List.mem_of_find?_eq_some hfind, rfl⟩

/-- A node that lookups lead to stands for what a directory of the volume stores. -/
theorem FatReached.stored (hwf : v.WellFormed disk n) (h : FatReached disk v node) :
    ∃ start, node.volume = some (v, start) ∧
      v.Stored disk n (node.flags = 0x02) start node.size := by
  induction h with
  | root => exact ⟨v.rootCluster, rfl, .root⟩
  | @child node child start rounds name stack cache cache' _ hdir hvolume hcache hclear hfound ih =>
    obtain ⟨start', hvolume', hstored⟩ := ih
    rw [hvolume] at hvolume'
    cases hvolume'
    rw [decide_eq_true hdir] at hstored
    obtain ⟨hne, hmarks⟩ := hclear
    have hfat := hwf.layout.fatBehindBoot
    obtain ⟨hdata, hchain⟩ :=
      (hwf.chains _ _ _ hstored).resolve_right fun hzero => hne hzero.1
    obtain ⟨i, file, hi, hmem, rfl⟩ := finddir_child hvolume hfound
    have hclusters := hchain.data hdata hfat hcache hi.1 fun j hj => hmarks j
      (hi.before (finddir_reads v name stack) (fun _ => finddir_found_iff v name stack.2 _) hj)
    rw [chainItems_link hfat hcache] at hmem
    have hentry := Fat32Volume.Stored.entry hstored (fun j hj => by
      rw [← (chain_link hfat hcache j).1]
      exact hclusters j (Nat.le_of_lt_succ hj)) hmem
    have hflags : decide ((fatChild v name file.1).flags = 0x02) =
        decide (file.1.attr &&& fat32AttrDirectory ≠ 0) := by
      unfold fatChild
      by_cases hflag : file.1.attr &&& fat32AttrDirectory = 0 <;> simp [hflag]
    refine ⟨file.1.cluster, rfl, ?_⟩
    rw [hflags]
    exact hentry

end Reached

/-- On a well-formed volume, the calls on a node that lookups lead to read data clusters only
exactly as long as they take no mark for a cluster.  A read whose offset lies behind the mark of
a bad cluster follows the words that it finds outside of the FAT. -/
theorem data_clusters_iff {disk : Disk} {v : Fat32Volume} {n : Nat} {node : FatNode}
    {cache : FatCache} (hwf : v.WellFormed disk n) (hnode : FatReached disk v node)
    (hcache : cache.Valid disk) :
    ∃ start, node.volume = some (v, start) ∧
      (node.flags = 0x02 →
        (∀ (index : BitVec 32) entry,
          (∀ rounds, ∀ c ∈ (node.readdir disk index.toNat entry rounds cache).visited,
              DataCluster n c) ↔
            v.Clear disk start cache (AtIndex index.toNat)) ∧
        ∀ name stack,
          (∀ rounds, ∀ c ∈ (node.finddir disk name stack rounds cache).visited,
              DataCluster n c) ↔
            v.Clear disk start cache (HasName name stack.2)) ∧
      (node.flags ≠ 0x02 → ∀ offset size,
        (∀ rounds, ∀ c ∈ (node.read disk offset size rounds cache).visited, DataCluster n c) ↔
          ∀ i, node.ReadsTo disk v start cache offset size i →
            (v.chain disk start cache i).1 ≠ fat32Bad ∧
              ((∃ j < i, (v.chain disk start cache j).1 = fat32Bad) →
                DataCluster n (v.chain disk start cache i).1)) := by
  obtain ⟨start, hvolume, hstored⟩ := hnode.stored hwf
  have hfat := hwf.layout.fatBehindBoot
  have hstart := hwf.chains _ _ _ hstored
  refine ⟨start, hvolume, fun hdir => ⟨fun index entry => ?_, fun name stack => ?_⟩,
    fun hfile offset size => ?_⟩
  · unfold FatNode.readdir
    rw [hvolume]
    exact walk_data_iff hwf.clusters hfat hcache (hstart.imp_right And.left)
      (readdir_reads index entry) fun _ => readdir_found_iff index.toNat entry _
  · unfold FatNode.finddir
    rw [hvolume]
    exact walk_data_iff hwf.clusters hfat hcache (hstart.imp_right And.left)
      (finddir_reads v name stack) fun _ => finddir_found_iff v name stack.2 _
  · rw [decide_eq_false hfile] at hstart
    have hvisited := fun c => @mem_read_visited_iff disk v size c start cache node hvolume
      hwf.sectors ?_ offset
    · constructor
      · intro h i hi
        obtain ⟨rounds, hmem⟩ := (hvisited _).mpr ⟨i, hi, rfl⟩
        have hdata := h rounds _ hmem
        exact ⟨fun hbad => not_dataCluster_bad hwf.clusters (hbad ▸ hdata), fun _ => hdata⟩
      · rintro h rounds c hmem
        obtain ⟨i, hi, rfl⟩ := (hvisited c).mp ⟨rounds, hmem⟩
        obtain ⟨hne, hskipped⟩ := h i hi
        by_cases hbad : ∃ j < i, (v.chain disk start cache j).1 = fat32Bad
        · exact hskipped hbad
        · rcases hstart with ⟨hdata, hchain⟩ | ⟨-, htrue | hempty⟩
          · refine hchain.data hdata hfat hcache hi.2.2.2.1 (fun j hj => ?_) i le_rfl
            rcases hj.lt_or_eq with hlt | rfl
            · exact fun heq => hbad ⟨j, hlt, heq⟩
            · exact hne
          · cases htrue
          · exact absurd hi.1 (by omega)
    · rcases hstart with ⟨hdata, -⟩ | ⟨rfl, -⟩
      · have hclusters := hwf.clusters
        unfold DataCluster at hdata
        unfold fat32Bad at hclusters
        unfold fat32Eof
        omega
      · decide

/-- The bytes of the entry of a directory. -/
def dirBytes (name : List (BitVec 8)) (cluster : BitVec 8) : List (BitVec 8) :=
  name ++ List.replicate (11 - name.length) 0x20 ++ [0x10] ++ List.replicate 14 0 ++
    [cluster, 0, 0, 0, 0, 0]

/-- The name `SUB`. -/
def subName : List (BitVec 8) := [0x53, 0x55, 0x42]

/-- The entries of the directory `SUB`. -/
def dotEntries : List (List (BitVec 8)) := [dirBytes [0x2E] 3, dirBytes [0x2E, 0x2E] 0]

/-- A disk with the directory `SUB` in its root directory. -/
def dotDisk : Disk := fun lba =>
  if lba = 4 then some fun x => (dotEntries.getD (x / 32) []).getD (x % 32) 0
  else smallDisk [0, 0, 0x0FFFFFFF, 0x0FFFFFFF] [dirBytes subName 3] lba

theorem dot_link {c : Nat} (h : DataCluster 2 c) : smallVolume.link dotDisk c = 0x0FFFFFFF := by
  obtain ⟨hle, hlt⟩ := h
  obtain rfl | rfl : c = 2 ∨ c = 3 := by omega
  · decide +kernel
  · decide +kernel

/-- The entries of the two directories: the kind, the start cluster and the size. -/
theorem dot_files :
    ((listing (smallVolume.linkItems dotDisk 2 1) none).map fun file =>
      (decide (file.1.attr &&& fat32AttrDirectory ≠ 0), file.1.cluster, file.1.fileSize)) =
        [(true, 3, 0)] ∧
    ((listing (smallVolume.linkItems dotDisk 3 1) none).map fun file =>
      (decide (file.1.attr &&& fat32AttrDirectory ≠ 0), file.1.cluster, file.1.fileSize)) =
        [(true, 3, 0), (true, 0, 0)] := by
  decide +kernel

theorem dot_stored {isDir : Bool} {start size : Nat}
    (h : smallVolume.Stored dotDisk 2 isDir start size) :
    isDir = true ∧ (DataCluster 2 start ∨ start = 0) := by
  induction h with
  | root => exact ⟨rfl, Or.inl ⟨le_rfl, by decide⟩⟩
  | @entry start size clusters file _ hdata hmem ih =>
    have hthree : DataCluster 2 3 := ⟨by decide, by decide⟩
    obtain rfl | rfl | hmany : clusters = 0 ∨ clusters = 1 ∨ 2 ≤ clusters := by omega
    · exact absurd hmem List.not_mem_nil
    · have hstart : DataCluster 2 start := hdata 0 Nat.one_pos
      have hentry := List.mem_map_of_mem (f := fun file : DirEntry × Option LongName =>
        (decide (file.1.attr &&& fat32AttrDirectory ≠ 0), file.1.cluster, file.1.fileSize)) hmem
      obtain rfl | rfl : start = 2 ∨ start = 3 := by
        obtain ⟨hle, hlt⟩ := hstart
        omega
      · rw [dot_files.1] at hentry
        simp only [List.mem_cons, List.not_mem_nil, or_false, Prod.mk.injEq] at hentry
        obtain ⟨hdir, hcluster, -⟩ := hentry
        exact ⟨hdir, Or.inl (hcluster ▸ hthree)⟩
      · rw [dot_files.2] at hentry
        simp only [List.mem_cons, List.not_mem_nil, or_false, Prod.mk.injEq] at hentry
        rcases hentry with ⟨hdir, hcluster, -⟩ | ⟨hdir, hcluster, -⟩
        · exact ⟨hdir, Or.inl (hcluster ▸ hthree)⟩
        · exact ⟨hdir, Or.inr hcluster⟩
    · -- the chain of either directory ends behind its first cluster
      have hstart : DataCluster 2 start := hdata 0 (by omega)
      have hnext := hdata 1 hmany
      rw [Function.iterate_one, dot_link hstart] at hnext
      exact absurd hnext.2 (by decide)

theorem dot_wellFormed : smallVolume.WellFormed dotDisk 2 where
  layout := ⟨by decide, by decide, by decide⟩
  sectors := by decide
  clusters := by decide
  chains isDir start size h := by
    obtain ⟨hdir, hdata | hzero⟩ := dot_stored h
    · refine Or.inl ⟨hdata, fun i hi => Or.inr (Or.inr ?_)⟩
      rw [Function.iterate_succ_apply', dot_link (hi i le_rfl)]
      decide
    · exact Or.inr ⟨hzero, Or.inl hdir⟩

/-- The two directories have one cluster each, so that a walk over them takes no mark. -/
theorem dot_clear {start : Nat} (h : DataCluster 2 start)
    (found : List (DirEntry × Option LongName) → Prop) :
    smallVolume.Clear dotDisk start .boot found := by
  refine ⟨fun hzero => not_dataCluster_zero (hzero ▸ h), fun i hi => ?_⟩
  have hlink := dot_link h
  cases i with
  | zero =>
    change start ≠ fat32Bad
    exact fun hbad => not_dataCluster_bad (by decide) (hbad ▸ h)
  | succ i =>
    have hlive := hi.1 1 (by omega)
    rw [(chain_link ⟨by decide, by decide⟩ (FatCache.boot_valid _) 1).1, Function.iterate_one,
      hlink] at hlive
    exact absurd hlive (by decide)

/-- A lookup in the root directory reads a data cluster. -/
theorem data_clusters_dot : smallVolume.WellFormed dotDisk 2 ∧
    ∀ rounds, ∀ c ∈ (smallVolume.root.finddir dotDisk subName (fun _ => 0, fun _ => 0) rounds
      .boot).visited, DataCluster 2 c := by
  obtain ⟨start, hvolume, hdir, -⟩ :=
    data_clusters_iff dot_wellFormed .root (FatCache.boot_valid dotDisk)
  cases hvolume
  refine ⟨dot_wellFormed, ?_⟩
  exact ((hdir rfl).2 subName _).mpr (dot_clear ⟨le_rfl, by decide⟩ _)

/-- The node of `SUB`. -/
def subNode : FatNode := ⟨subName, 0x02, 0, some ⟨some smallVolume, 3, 0⟩⟩

/-- The node that a lookup of its parent returns. -/
def parentNode : FatNode := ⟨[0x2E, 0x2E], 0x02, 0, some ⟨some smallVolume, 0, 0⟩⟩

/-- The parent of a directory in the root directory is read from cluster 0. -/
theorem parent_of_root_child : smallVolume.WellFormed dotDisk 2 ∧
    FatReached dotDisk smallVolume parentNode ∧
    (subNode.finddir dotDisk [0x2E, 0x2E] (fun _ => 0, fun _ => 0) 1 .boot).result =
      .done (some parentNode) .boot ∧
    0 ∈ (parentNode.readdir dotDisk 0 ⟨0, fun _ => 0⟩ 1 .boot).visited ∧ ¬DataCluster 2 0 := by
  have hsub : (smallVolume.root.finddir dotDisk subName (fun _ => 0, fun _ => 0) 1 .boot).result =
      .done (some subNode) .boot := by rfl
  have hparent : (subNode.finddir dotDisk [0x2E, 0x2E] (fun _ => 0, fun _ => 0) 1 .boot).result =
      .done (some parentNode) .boot := by rfl
  have hreached : FatReached dotDisk smallVolume subNode :=
    .child .root rfl rfl (FatCache.boot_valid _) (dot_clear ⟨le_rfl, by decide⟩ _) hsub
  refine ⟨dot_wellFormed, ?_, hparent, head_walk_visited (by decide) 0, not_dataCluster_zero⟩
  exact .child hreached rfl rfl (FatCache.boot_valid _) (dot_clear ⟨by decide, by decide⟩ _) hparent

end EnclaveOS
