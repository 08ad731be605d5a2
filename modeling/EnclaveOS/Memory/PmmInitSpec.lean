import EnclaveOS.Memory.BootSpec

/-!
# PmmInitSpec - which pages are free after pmm_init

The memory map and the reserved regions as sets of pages: a page is freed when one entry
holds all of it, and reserved when a region meets it.  The counter of available pages is
the number of clear bits.
-/

namespace EnclaveOS

/-- The entry holds every byte of the page. -/
def E820Entry.Holds (e : E820Entry) (f : Nat) : Prop :=
  e.addr ≤ f * 4096 ∧ (f + 1) * 4096 ≤ e.addr + e.len

/-- The page has a byte in the region. -/
def Touches (f : Nat) (region : Nat × Nat) : Prop :=
  region.1 < region.2 ∧ region.1 < (f + 1) * 4096 ∧ f * 4096 < region.2

/-- The pages below the limit that are free. -/
def Pmm.freeCount (p : Pmm) : Nat := (List.range p.maxPage).countP fun f => !p.bitmap f

theorem countP_range_split {n a b : Nat} (P : Nat → Bool) (hab : a ≤ b) (hb : b ≤ n) :
    (List.range n).countP P =
      (List.range' 0 a).countP P + (List.range' a (b - a)).countP P +
        (List.range' b (n - b)).countP P := by
  have hsplit : List.range n = List.range' 0 a ++ List.range' a (b - a) ++ List.range' b (n - b) := by
    have h₁ := List.range'_append_1 (s := 0) (m := a) (n := b - a)
    have h₂ := List.range'_append_1 (s := 0) (m := b) (n := n - b)
    rw [Nat.zero_add] at h₁ h₂
    rw [h₁, show a + (b - a) = b by omega, h₂, List.range_eq_range', show b + (n - b) = n by omega]
  rw [hsplit, List.countP_append, List.countP_append]

/-- Two predicates that agree outside of a range differ in their counts by what they count
there. -/
theorem countP_range_agree {n a b : Nat} {P Q : Nat → Bool} (hab : a ≤ b) (hb : b ≤ n)
    (hPQ : ∀ i, ¬ (a ≤ i ∧ i < b) → P i = Q i) :
    (List.range n).countP P + (List.range' a (b - a)).countP Q =
      (List.range n).countP Q + (List.range' a (b - a)).countP P := by
  rw [countP_range_split P hab hb, countP_range_split Q hab hb]
  have hbelow : (List.range' 0 a).countP P = (List.range' 0 a).countP Q := by
    apply List.countP_congr
    intro i hi
    rw [List.mem_range'_1] at hi
    rw [hPQ i (by omega)]
  have habove : (List.range' b (n - b)).countP P = (List.range' b (n - b)).countP Q := by
    apply List.countP_congr
    intro i hi
    rw [List.mem_range'_1] at hi
    rw [hPQ i (by omega)]
  omega

theorem countP_not_add (l : List Nat) (P : Nat → Bool) :
    l.countP P + l.countP (fun i => !P i) = l.length := by
  induction l with
  | nil => rfl
  | cons x xs ih =>
    rw [List.countP_cons, List.countP_cons, List.length_cons]
    cases P x <;> simp <;> omega

/-- Clearing a range of flags. -/
theorem countP_range_clear {n a b : Nat} (P : Nat → Bool) (hab : a ≤ b) (hb : b ≤ n) :
    (List.range n).countP (fun i => !if a ≤ i ∧ i < b then false else P i) =
      (List.range n).countP (fun i => !P i) + (List.range' a (b - a)).countP P := by
  have hagree := countP_range_agree (P := fun i => !if a ≤ i ∧ i < b then false else P i)
    (Q := fun i => !P i) hab hb fun i hi => by
      rw [if_neg hi]
  have hall : (List.range' a (b - a)).countP
      (fun i => !if a ≤ i ∧ i < b then false else P i) = b - a := by
    rw [List.countP_eq_length.mpr, List.length_range']
    intro i hi
    rw [List.mem_range'_1] at hi
    rw [if_pos (by omega)]
    rfl
  have hnot := countP_not_add (List.range' a (b - a)) P
  rw [List.length_range'] at hnot
  omega

/-- Setting a range of flags. -/
theorem countP_range_set {n a b : Nat} (P : Nat → Bool) (hab : a ≤ b) (hb : b ≤ n) :
    (List.range n).countP (fun i => !P i) =
      (List.range n).countP (fun i => !if a ≤ i ∧ i < b then true else P i) +
        (List.range' a (b - a)).countP fun i => !P i := by
  have hagree := countP_range_agree (P := fun i => !if a ≤ i ∧ i < b then true else P i)
    (Q := fun i => !P i) hab hb fun i hi => by
      rw [if_neg hi]
  have hnone : (List.range' a (b - a)).countP
      (fun i => !if a ≤ i ∧ i < b then true else P i) = 0 := by
    rw [List.countP_eq_zero]
    intro i hi
    rw [List.mem_range'_1] at hi
    rw [if_pos (by omega)]
    exact Bool.false_ne_true
  omega

/-- What `pmm_init` keeps while it frees and reserves regions. -/
structure PmmCounted (p : Pmm) : Prop where
  capped : PmmCapped p
  total : p.totalAvailablePages = p.freeCount

theorem Pmm.freeCount_le (p : Pmm) : p.freeCount ≤ p.maxPage :=
  List.countP_le_length.trans_eq List.length_range

theorem PmmCounted.freeRegion {p : Pmm} (h : PmmCounted p) {e : E820Entry}
    (hend : e.addr + e.len < 17592186044416) :
    PmmCounted (pmmFreeRegion p e.addr e.len) ∧
      ∀ f, (pmmFreeRegion p e.addr e.len).bitmap f = false ↔
        p.bitmap f = false ∨ f < p.maxPage ∧ e.Holds f := by
  have hmax := h.capped.limit
  unfold pmmMaxPages at hmax
  have hlo : wrap64 (e.addr + pmmPageSize - 1) / pmmPageSize * pmmPageSize =
      (e.addr + 4095) / 4096 * 4096 := by
    unfold wrap64 pmmPageSize
    omega
  have hhi : wrap64 (e.addr + e.len) / pmmPageSize * pmmPageSize =
      (e.addr + e.len) / 4096 * 4096 := by
    unfold wrap64 pmmPageSize
    omega
  have hcap := h.capped.freeRegion e.addr e.len
  have hcount := (pmmFreeRegion p e.addr e.len).freeCount_le
  unfold E820Entry.Holds
  unfold pmmFreeRegion at hcap hcount ⊢
  rw [hlo, hhi] at hcap hcount ⊢
  dsimp only at hcap hcount ⊢
  generalize hfirst : (e.addr + 4095) / 4096 = first at hcap hcount ⊢
  generalize hlast : (e.addr + e.len) / 4096 = last at hcap hcount ⊢
  by_cases hempty : last * 4096 ≤ first * 4096
  · rw [if_pos hempty]
    refine ⟨h, fun f => ⟨Or.inl, fun hf => hf.resolve_right fun hf => ?_⟩⟩
    omega
  · have hstart : wrap32 (first * 4096 / pmmPageSize) = first := by
      unfold wrap32 pmmPageSize
      omega
    have hstop : wrap32 (last * 4096 / pmmPageSize) = last := by
      unfold wrap32 pmmPageSize
      omega
    rw [if_neg hempty, hstart, hstop] at hcap hcount ⊢
    by_cases hpast : p.maxPage ≤ first
    · rw [if_pos hpast]
      refine ⟨h, fun f => ⟨Or.inl, fun hf => hf.resolve_right fun hf => ?_⟩⟩
      omega
    · rw [if_neg hpast] at hcap hcount ⊢
      have hclear := countP_range_clear p.bitmap (n := p.maxPage) (a := first)
        (b := min last p.maxPage) (by omega) (Nat.min_le_right _ _)
      refine ⟨⟨hcap, ?_⟩, fun f => ?_⟩
      · have hbefore := h.total
        unfold Pmm.freeCount at hcount hbefore ⊢
        dsimp only at hcount ⊢
        rw [hclear] at hcount ⊢
        rw [hbefore]
        exact Nat.mod_eq_of_lt (by omega)
      · dsimp only
        by_cases hin : first ≤ f ∧ f < min last p.maxPage
        · rw [if_pos hin]
          exact ⟨fun _ => Or.inr (by omega), fun _ => rfl⟩
        · rw [if_neg hin]
          refine ⟨Or.inl, fun hf => hf.resolve_right fun hf => ?_⟩
          omega

theorem PmmCounted.reserveRegion {p : Pmm} (h : PmmCounted p) (base : Nat) {stop : Nat}
    (hstop : stop ≤ 4294967296) :
    PmmCounted (pmmReserveRegion p base stop) ∧
      ∀ f, (pmmReserveRegion p base stop).bitmap f = false ↔
        p.bitmap f = false ∧ ¬ Touches f (base, stop) := by
  have hmax := h.capped.limit
  unfold pmmMaxPages at hmax
  have hcap := h.capped.reserveRegion base stop
  unfold Touches
  unfold pmmReserveRegion at hcap ⊢
  by_cases hempty : stop ≤ base
  · rw [if_pos hempty]
    refine ⟨h, fun f => ⟨fun hf => ⟨hf, fun ht => ?_⟩, And.left⟩⟩
    exact absurd ht.1 (Nat.not_lt.mpr hempty)
  · rw [if_neg hempty] at hcap ⊢
    have hlo : wrap32 (base / pmmPageSize) = base / 4096 := by
      unfold wrap32 pmmPageSize
      omega
    have hhi : wrap32 (wrap64 (stop + pmmPageSize - 1) / pmmPageSize) = (stop + 4095) / 4096 := by
      unfold wrap32 wrap64 pmmPageSize
      omega
    rw [hlo, hhi] at hcap ⊢
    dsimp only at hcap ⊢
    by_cases hpast : p.maxPage ≤ base / 4096
    · rw [if_pos hpast]
      refine ⟨h, fun f => ⟨fun hf => ⟨hf, fun ht => ?_⟩, And.left⟩⟩
      have hlow : f < p.maxPage := by
        apply Nat.lt_of_not_le
        intro habove
        rw [h.capped.above f habove] at hf
        cases hf
      omega
    · rw [if_neg hpast] at hcap ⊢
      have hset := countP_range_set p.bitmap (n := p.maxPage) (a := base / 4096)
        (b := min ((stop + 4095) / 4096) p.maxPage) (by omega) (Nat.min_le_right _ _)
      refine ⟨⟨hcap, ?_⟩, fun f => ?_⟩
      · have hbefore := h.total
        unfold Pmm.freeCount at hbefore ⊢
        dsimp only
        rw [hbefore]
        exact Nat.sub_eq_of_eq_add hset
      · dsimp only
        by_cases hin : base / 4096 ≤ f ∧ f < min ((stop + 4095) / 4096) p.maxPage
        · rw [if_pos hin]
          constructor
          · intro hf
            cases hf
          · intro hf
            exact absurd (by omega) hf.2
        · rw [if_neg hin]
          refine ⟨fun hf => ⟨hf, fun ht => ?_⟩, And.left⟩
          have hlow : f < p.maxPage := by
            apply Nat.lt_of_not_le
            intro habove
            rw [h.capped.above f habove] at hf
            cases hf
          omega

theorem PmmCounted.freeAll {map : List E820Entry}
    (hends : ∀ e ∈ map, e.addr + e.len < 17592186044416) {p : Pmm} (h : PmmCounted p) :
    let freed := map.foldl (fun p e => if e.type = multibootMemoryAvailable then
      pmmFreeRegion p e.addr e.len else p) p
    PmmCounted freed ∧ freed.maxPage = p.maxPage ∧
      ∀ f, freed.bitmap f = false ↔ p.bitmap f = false ∨
        f < p.maxPage ∧ ∃ e ∈ map, e.type = multibootMemoryAvailable ∧ e.Holds f := by
  induction map generalizing p with
  | nil => exact ⟨h, rfl, by simp⟩
  | cons e map ih =>
    have hrest : ∀ e ∈ map, e.addr + e.len < 17592186044416 :=
      fun e' he' => hends e' (List.mem_cons_of_mem e he')
    intro freed
    by_cases htype : e.type = multibootMemoryAvailable
    · obtain ⟨hone, hbits⟩ := h.freeRegion (hends e List.mem_cons_self)
      obtain ⟨hcounted, hmax, hall⟩ := ih hrest hone
      have hfreed : freed = map.foldl (fun p e => if e.type = multibootMemoryAvailable then
          pmmFreeRegion p e.addr e.len else p) (pmmFreeRegion p e.addr e.len) := by
        simp only [freed, List.foldl_cons, if_pos htype]
      rw [pmmFreeRegion_maxPage] at hmax hall
      rw [hfreed]
      refine ⟨hcounted, hmax, fun f => ?_⟩
      rw [hall, hbits]
      simp only [List.mem_cons, exists_eq_or_imp, htype, true_and]
      tauto
    · obtain ⟨hcounted, hmax, hall⟩ := ih hrest h
      have hfreed : freed = map.foldl (fun p e => if e.type = multibootMemoryAvailable then
          pmmFreeRegion p e.addr e.len else p) p := by
        simp only [freed, List.foldl_cons, if_neg htype]
      rw [hfreed]
      refine ⟨hcounted, hmax, fun f => ?_⟩
      rw [hall]
      simp only [List.mem_cons, exists_eq_or_imp, htype, false_and, false_or]

theorem PmmCounted.reserveAll {regions : List (Nat × Nat)}
    (hends : ∀ r ∈ regions, r.2 ≤ 4294967296) {p : Pmm} (h : PmmCounted p) :
    let reserved := regions.foldl (fun p r => pmmReserveRegion p r.1 r.2) p
    PmmCounted reserved ∧ reserved.maxPage = p.maxPage ∧
      ∀ f, reserved.bitmap f = false ↔ p.bitmap f = false ∧ ∀ r ∈ regions, ¬ Touches f r := by
  induction regions generalizing p with
  | nil => exact ⟨h, rfl, by simp⟩
  | cons r regions ih =>
    obtain ⟨hone, hbits⟩ := h.reserveRegion r.1 (hends r List.mem_cons_self)
    obtain ⟨hcounted, hmax, hall⟩ := ih (fun r' hr' => hends r' (List.mem_cons_of_mem r hr')) hone
    rw [pmmReserveRegion_maxPage] at hmax
    refine ⟨hcounted, hmax, fun f => ?_⟩
    rw [List.foldl_cons, hall, hbits, List.forall_mem_cons, and_assoc]

/-- Before the map is read nothing is free. -/
theorem PmmCounted.clean {n : Nat} (hn : n ≤ pmmMaxPages) :
    PmmCounted ⟨fun _ => true, fun _ => 0, 0, 0, n, 0, 0⟩ := by
  refine ⟨⟨hn, fun _ _ => rfl⟩, ?_⟩
  unfold Pmm.freeCount
  simp

/-- What `pmm_init` reads behind `info` when the loader passed a memory map: the
structure itself lies at `addr`, the map at `mmapAddr`. -/
structure MultibootInfo where
  addr : Nat
  mmapAddr : Nat
  mmapLength : Nat
  map : List E820Entry
  modules : List (Nat × Nat)
  kernelStart : Nat
  kernelEnd : Nat
  ends : ∀ e ∈ map, e.addr + e.len < 17592186044416
  sizes : 24 * map.length ≤ mmapLength
  mapFits : mmapAddr + mmapLength < 4294967296
  moduleEnds : ∀ m ∈ modules, m.2 < 4294967296
  kernelFits : kernelEnd < 4294967296

/-- `sizeof(multiboot_info_t)`, a packed structure. -/
def multibootInfoSize : Nat := 110

namespace MultibootInfo

variable (info : MultibootInfo)

/-- From `mb_phys_start` to `mb_phys_end`: what `pmm_init` reserves for the
structure and its map. -/
def region : Nat × Nat := (info.addr, wrap32 (info.addr + multibootInfoSize + info.mmapLength))

/-- Where the structure lies. -/
def block : Nat × Nat := (info.addr, info.addr + multibootInfoSize)

/-- Where the map lies. -/
def mapRegion : Nat × Nat := (info.mmapAddr, info.mmapAddr + info.mmapLength)

/-- The arguments of `pmm_init`. -/
def bootInfo : BootInfo :=
  ⟨some info.map, some info.region, info.modules, info.kernelStart, info.kernelEnd⟩

/-- The pages that are free but for the structure and its map. -/
def Usable (f : Nat) : Prop :=
  f < (pmmInit info.bootInfo).maxPage ∧
    (∃ e ∈ info.map, e.type = multibootMemoryAvailable ∧ e.Holds f) ∧
    ¬ Touches f (lowerMemStart, lowerMemEnd) ∧ ¬ Touches f (info.kernelStart, info.kernelEnd) ∧
    (∀ m ∈ info.modules, ¬ Touches f m) ∧ ¬ Touches f (pciMmioHoleStart, pciMmioHoleEnd)

/-- The regions `pmm_init` reserves, in its order. -/
def reservations : List (Nat × Nat) :=
  (lowerMemStart, lowerMemEnd) :: (info.kernelStart, info.kernelEnd) :: info.region ::
    (info.modules ++ [(pciMmioHoleStart, pciMmioHoleEnd)])

/-- `pmm_init` frees the entries of the map and reserves the regions.  The test of the
page limit in front of the last one is made again by `pmm_reserve_region`. -/
theorem pmmInit_eq :
    pmmInit info.bootInfo = info.reservations.foldl (fun p r => pmmReserveRegion p r.1 r.2)
      (info.map.foldl (fun p e => if e.type = multibootMemoryAvailable then
        pmmFreeRegion p e.addr e.len else p)
        ⟨fun _ => true, fun _ => 0, 0, 0, pmmDetectMaxPage info.map, 0, 0⟩) := by
  have hhole : ∀ p : Pmm, (if pciMmioHoleStart / pmmPageSize < p.maxPage then
      pmmReserveRegion p pciMmioHoleStart pciMmioHoleEnd else p) =
        pmmReserveRegion p pciMmioHoleStart pciMmioHoleEnd := by
    intro p
    have hwrap : wrap32 (pciMmioHoleStart / pmmPageSize) = pciMmioHoleStart / pmmPageSize := by
      decide
    split_ifs with hlimit
    · rfl
    · unfold pmmReserveRegion
      rw [if_neg (by decide), hwrap, if_pos (Nat.not_lt.mp hlimit)]
  unfold pmmInit bootInfo reservations
  dsimp only
  rw [hhole, List.foldl_cons, List.foldl_cons, List.foldl_cons, List.foldl_append,
    List.foldl_cons, List.foldl_nil]

theorem pmmInit_maxPage :
    (pmmInit info.bootInfo).maxPage = pmmDetectMaxPage info.map := by
  rw [info.pmmInit_eq]
  have hreserve : ∀ (l : List (Nat × Nat)) (p : Pmm),
      (l.foldl (fun p r => pmmReserveRegion p r.1 r.2) p).maxPage = p.maxPage := by
    intro l
    induction l with
    | nil => exact fun p => rfl
    | cons r l ih => exact fun p => (ih _).trans (pmmReserveRegion_maxPage p r.1 r.2)
  rw [hreserve]
  exact ((PmmCounted.clean (min_le_right _ _)).freeAll info.ends).2.1

end MultibootInfo

/-- After `pmm_init` the usable pages outside of the one region taken for the structure
and its map are free, and the counter holds their number. -/
theorem pmmInit_free (info : MultibootInfo) :
    PmmCounted (pmmInit info.bootInfo) ∧
      ∀ f, (pmmInit info.bootInfo).bitmap f = false ↔ info.Usable f ∧ ¬ Touches f info.region := by
  obtain ⟨hfreed, hmax, hbits⟩ := (PmmCounted.clean (n := pmmDetectMaxPage info.map)
    (min_le_right _ _)).freeAll info.ends
  have hregions : ∀ r ∈ info.reservations, r.2 ≤ 4294967296 := by
    intro r hr
    simp only [MultibootInfo.reservations, List.mem_cons, List.mem_append, List.not_mem_nil,
      or_false] at hr
    rcases hr with rfl | rfl | rfl | hr | rfl
    · decide
    · exact info.kernelFits.le
    · exact (Nat.mod_lt _ (by decide)).le
    · exact (info.moduleEnds r hr).le
    · decide
  obtain ⟨hcounted, hlimit, hall⟩ := hfreed.reserveAll hregions
  rw [hmax, ← info.pmmInit_eq] at hlimit
  rw [← info.pmmInit_eq] at hcounted hall
  refine ⟨hcounted, fun f => ?_⟩
  rw [hall, hbits]
  simp only [MultibootInfo.reservations, MultibootInfo.Usable, hlimit, List.forall_mem_cons,
    List.forall_mem_append, List.not_mem_nil, false_imp_iff, implies_true, and_true]
  simp only [Bool.true_eq_false, false_or]
  tauto

/-- A page is free exactly if it is usable and meets neither the structure nor its map, and
the counter holds the number of free pages. -/
def MultibootInfo.Exact (info : MultibootInfo) : Prop :=
  (∀ f, (pmmInit info.bootInfo).bitmap f = false ↔
    info.Usable f ∧ ¬ Touches f info.block ∧ ¬ Touches f info.mapRegion) ∧
  (pmmInit info.bootInfo).totalAvailablePages = (pmmInit info.bootInfo).freeCount

/-- `pmm_init` takes the map to lie right behind the structure and never looks at
`mmap_addr`: the result is exact if and only if the region it reserves and the two it is
meant for meet the same usable pages. -/
theorem pmm_init_exact_iff (info : MultibootInfo) :
    info.Exact ↔ ∀ f, info.Usable f →
      (Touches f info.region ↔ Touches f info.block ∨ Touches f info.mapRegion) := by
  obtain ⟨hcounted, hfree⟩ := pmmInit_free info
  unfold MultibootInfo.Exact
  constructor
  · intro h f hf
    have hiff := (hfree f).symm.trans (h.1 f)
    tauto
  · intro h
    refine ⟨fun f => ?_, hcounted.total⟩
    rw [hfree]
    have hf := h f
    tauto

/-- 31 MB of memory, with the map at 2 MB and the structure in the low memory. -/
def apartInfo : MultibootInfo where
  addr := 0x9000
  mmapAddr := 0x200000
  mmapLength := 24
  map := [⟨0x00100000, 0x01F00000, 1⟩]
  modules := []
  kernelStart := 0x00400000
  kernelEnd := 0x00800000
  ends := by decide
  sizes := by decide
  mapFits := by decide
  moduleEnds := by decide
  kernelFits := by decide

/-- The page that holds the memory map is handed out. -/
theorem pmm_init_frees_map : ¬ ∀ info : MultibootInfo, info.Exact := by
  intro h
  have husable : apartInfo.Usable 512 := by
    refine ⟨?_, ⟨_, List.mem_singleton_self _, rfl, ?_⟩, ?_, ?_, ?_, ?_⟩
    · rw [apartInfo.pmmInit_maxPage]
      decide
    · constructor <;> decide
    · exact fun ht => absurd ht.2.2 (by decide)
    · exact fun ht => absurd ht.2.1 (by decide)
    · exact fun m hm => absurd hm List.not_mem_nil
    · exact fun ht => absurd ht.2.1 (by decide)
  have hmap : Touches 512 apartInfo.mapRegion := by
    refine ⟨?_, ?_, ?_⟩ <;> decide
  have hfree := ((pmmInit_free apartInfo).2 512).mpr ⟨husable, fun ht => absurd ht.2.2 (by decide)⟩
  exact (((h apartInfo).1 512).mp hfree).2.2 hmap

end EnclaveOS
