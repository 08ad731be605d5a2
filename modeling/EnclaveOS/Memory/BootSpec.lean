import EnclaveOS.Memory.Boot
import EnclaveOS.Memory.KernelHalf

/-!
# BootSpec - what the kernel finds after paging_init

The mapping loops of `paging_init` in closed form, and the invariants with
which the kernel starts.
-/

namespace EnclaveOS

open PageWord RefCount

/-- Frames beyond the page limit are marked as used. -/
structure PmmCapped (p : Pmm) : Prop where
  limit : p.maxPage ≤ pmmMaxPages
  above : ∀ f, p.maxPage ≤ f → p.bitmap f = true

@[simp]
theorem pmmFreeRegion_maxPage (p : Pmm) (base length : Nat) :
    (pmmFreeRegion p base length).maxPage = p.maxPage := by
  unfold pmmFreeRegion
  dsimp only
  split_ifs <;> rfl

@[simp]
theorem pmmReserveRegion_maxPage (p : Pmm) (base stop : Nat) :
    (pmmReserveRegion p base stop).maxPage = p.maxPage := by
  unfold pmmReserveRegion
  dsimp only
  split_ifs <;> rfl

theorem PmmCapped.freeRegion {p : Pmm} (h : PmmCapped p) (base length : Nat) :
    PmmCapped (pmmFreeRegion p base length) := by
  refine ⟨by simpa using h.limit, fun f hf => ?_⟩
  rw [pmmFreeRegion_maxPage] at hf
  unfold pmmFreeRegion
  dsimp only
  split_ifs
  · exact h.above f hf
  · exact h.above f hf
  · dsimp only
    rw [if_neg (by omega)]
    exact h.above f hf

/-- Reserving only sets bits. -/
theorem pmmReserveRegion_keep {p : Pmm} {f : Nat} (hf : p.bitmap f = true) (base stop : Nat) :
    (pmmReserveRegion p base stop).bitmap f = true := by
  unfold pmmReserveRegion
  dsimp only
  split_ifs
  · exact hf
  · exact hf
  · dsimp only
    split_ifs
    · rfl
    · exact hf

theorem PmmCapped.reserveRegion {p : Pmm} (h : PmmCapped p) (base stop : Nat) :
    PmmCapped (pmmReserveRegion p base stop) :=
  ⟨by simpa using h.limit, fun f hf =>
    pmmReserveRegion_keep (h.above f (by simpa using hf)) base stop⟩

/-- Every page a reserved region touches is marked as used. -/
theorem PmmCapped.reserved {p : Pmm} (h : PmmCapped p) {base stop f : Nat}
    (hfit : stop + 4096 ≤ 17592186044416) (hne : base < stop) (hlo : base < (f + 1) * 4096)
    (hhi : f * 4096 < stop) :
    (pmmReserveRegion p base stop).bitmap f = true := by
  have hstart : wrap32 (base / pmmPageSize) ≤ f := by
    unfold wrap32 pmmPageSize
    omega
  have hend : f < wrap32 (wrap64 (stop + pmmPageSize - 1) / pmmPageSize) := by
    unfold wrap32 wrap64 pmmPageSize
    omega
  unfold pmmReserveRegion
  rw [if_neg (by omega)]
  dsimp only
  split_ifs with hpast
  · exact h.above f (by omega)
  · dsimp only
    by_cases hlimit : p.maxPage ≤ f
    · split_ifs
      · rfl
      · exact h.above f hlimit
    · rw [if_pos ⟨hstart, by omega⟩]

/-- A chain of conditional steps keeps what each step keeps. -/
private theorem foldl_keep {α β : Type} {P : β → Prop} {f : β → α → β} (l : List α) {b : β}
    (hb : P b) (hf : ∀ b a, P b → P (f b a)) : P (l.foldl f b) := by
  induction l generalizing b with
  | nil => exact hb
  | cons a l ih => exact ih (hf b a hb)

/-- `pmm_init` caps the bitmap at the page limit and reserves page 0. -/
theorem pmmInit_spec (info : BootInfo) :
    PmmCapped (pmmInit info) ∧ (pmmInit info).bitmap 0 = true := by
  have hkeep : ∀ (p : Pmm) (base stop : Nat), (PmmCapped p ∧ p.bitmap 0 = true) →
      PmmCapped (pmmReserveRegion p base stop) ∧
        (pmmReserveRegion p base stop).bitmap 0 = true :=
    fun p base stop hp => ⟨hp.1.reserveRegion _ _, pmmReserveRegion_keep hp.2 _ _⟩
  obtain ⟨map, region, modules, kernelStart, kernelEnd⟩ := info
  unfold pmmInit
  extract_lets clean freed low kernel block mods
  have hclean : ∀ n ≤ pmmMaxPages, PmmCapped { clean with maxPage := n } :=
    fun n hn => ⟨hn, fun _ _ => rfl⟩
  have hfreed : PmmCapped freed := by
    cases map with
    | none => exact (hclean _ (by decide)).freeRegion _ _
    | some map =>
      refine foldl_keep map (hclean _ (min_le_right _ _)) fun p e hp => ?_
      split_ifs
      · exact hp.freeRegion _ _
      · exact hp
  have hlow : PmmCapped low ∧ low.bitmap 0 = true :=
    ⟨hfreed.reserveRegion _ _, hfreed.reserved (by decide) (by decide) (by decide) (by decide)⟩
  have hblock : PmmCapped block ∧ block.bitmap 0 = true := by
    cases region with
    | none => exact hkeep _ _ _ hlow
    | some region => exact hkeep _ _ _ (hkeep _ _ _ hlow)
  have hmods : PmmCapped mods ∧ mods.bitmap 0 = true :=
    foldl_keep (P := fun p => PmmCapped p ∧ p.bitmap 0 = true) modules hblock
      fun p r hp => hkeep p _ _ hp
  split_ifs
  · exact hkeep _ _ _ hmods
  · exact hmods

/-- Reserving a list of regions keeps set bits and sets the bits of each region. -/
theorem foldl_reserve_spec (l : List (Nat × Nat)) {p : Pmm} (hp : PmmCapped p) {f : Nat} :
    PmmCapped (l.foldl (fun p r => pmmReserveRegion p r.1 r.2) p) ∧
      (p.bitmap f = true ∨
        (∃ r ∈ l, r.2 + 4096 ≤ 17592186044416 ∧ r.1 < r.2 ∧ r.1 < (f + 1) * 4096 ∧
          f * 4096 < r.2) →
        (l.foldl (fun p r => pmmReserveRegion p r.1 r.2) p).bitmap f = true) := by
  induction l generalizing p with
  | nil => exact ⟨hp, by simp⟩
  | cons r l ih =>
    obtain ⟨hcap, hset⟩ := ih (hp.reserveRegion r.1 r.2)
    refine ⟨hcap, ?_⟩
    rintro (hbit | ⟨r', hr', hfit, hne, hlo, hhi⟩)
    · exact hset (Or.inl (pmmReserveRegion_keep hbit _ _))
    · rcases List.mem_cons.mp hr' with rfl | hr'
      · exact hset (Or.inl (hp.reserved hfit hne hlo hhi))
      · exact hset (Or.inr ⟨r', hr', hfit, hne, hlo, hhi⟩)

/-- What the reservations of `paging_init` leave. -/
theorem pagingReserve_spec (image : BootImage) {p : Pmm} (hp : PmmCapped p)
    (hzero : p.bitmap 0 = true) :
    PmmCapped (pagingReserve image p) ∧ (pagingReserve image p).bitmap 0 = true ∧
      ∀ f, image.bootPageDirectory ≤ f → f ≤ image.fbPageTable →
        (pagingReserve image p).bitmap f = true := by
  have hfits := image.fits
  unfold pmmMaxPages at hfits
  refine ⟨(foldl_reserve_spec _ hp (f := 0)).1, (foldl_reserve_spec _ hp).2 (Or.inl hzero),
    fun f hlo hhi => (foldl_reserve_spec _ hp).2 (Or.inr ?_)⟩
  have htables : image.bootPageTables = image.bootPageDirectory + 1 := rfl
  have htablesHh : image.bootPageTablesHh = image.bootPageDirectory + 129 := rfl
  have hfb : image.fbPageTable = image.bootPageDirectory + 257 := rfl
  simp only [pagingRegions, List.mem_cons, List.not_mem_nil, or_false, exists_eq_or_imp,
    exists_eq_left]
  omega

/-- A frame filled as a page table. -/
def Machine.setTable (m : Machine) (frame : Nat) (entries : Nat → Word) : Machine :=
  { m with mem := Function.update m.mem frame entries }

@[simp]
theorem Machine.setTable_boot (m : Machine) (f : Nat) (entries : Nat → Word) :
    (m.setTable f entries).bootPageDirectory = m.bootPageDirectory := rfl

theorem Machine.setTable_mem (m : Machine) (f g j : Nat) (entries : Nat → Word) :
    (m.setTable f entries).mem g j = if g = f then entries j else m.mem g j := by
  unfold Machine.setTable
  by_cases hg : g = f
  · subst hg
    simp
  · simp [hg]

theorem Machine.setTable_setWord (m : Machine) (t i : Nat) (entries : Nat → Word) (w : Word) :
    (m.setTable t entries).setWord t i w = m.setTable t (Function.update entries i w) := by
  unfold Machine.setTable Machine.setWord
  simp

theorem Machine.setWord_self {m : Machine} {f i : Nat} {w : Word} (h : m.mem f i = w) :
    m.setWord f i w = m := by
  unfold Machine.setWord
  rw [← h, Function.update_eq_self, Function.update_eq_self]

/-- A loop whose steps change nothing. -/
theorem foldlM_unchanged {α β : Type} {f : β → α → Option β} {b : β} (l : List α)
    (h : ∀ a ∈ l, f b a = some b) : l.foldlM f b = some b := by
  induction l with
  | nil => rfl
  | cons a l ih =>
    rw [List.foldlM_cons, h a List.mem_cons_self]
    exact ih fun a' ha => h a' (List.mem_cons_of_mem a ha)

/-- A range splits into a first part and the rest. -/
theorem mapKernelRange_add (virt phys : Nat) (flags : Word) (a b : Nat) (m : Machine) :
    mapKernelRange virt phys flags (a + b) m =
      (mapKernelRange virt phys flags a m).bind
        (mapKernelRange (virt + a * 4096) (phys + a * 4096) flags b) := by
  unfold mapKernelRange
  rw [List.range_add, List.foldlM_append]
  simp only [List.foldlM_map, Nat.add_mul, ← Nat.add_assoc, Option.bind_eq_bind]

theorem dirIndex_table (i j : Nat) (hj : j < 1024) : dirIndex (i * 4194304 + j * 4096) = i := by
  unfold dirIndex
  omega

theorem tableIndex_table (i j : Nat) (hj : j < 1024) :
    tableIndex (i * 4194304 + j * 4096) = j := by
  unfold tableIndex
  omega

/-- The pages of one present table, mapped in turn, fill the table. -/
theorem mapKernelRange_present (m : Machine) {i t n : Nat} (phys : Nat) (flags : Word)
    (hpres : isPresent (m.mem m.bootPageDirectory i) = true)
    (ht : frameOf (m.mem m.bootPageDirectory i) = t) (hne : t ≠ m.bootPageDirectory)
    (hn : n ≤ 1024) :
    mapKernelRange (i * 4194304) phys flags n m =
      some (m.setTable t fun j =>
        if j < n then BitVec.ofNat 32 (phys + j * 4096) ||| flags else m.mem t j) := by
  induction n with
  | zero =>
    unfold mapKernelRange Machine.setTable
    simp
  | succ n ih =>
    unfold mapKernelRange at ih ⊢
    rw [List.range_succ, List.foldlM_append, ih (by omega)]
    set m' := m.setTable t fun j =>
      if j < n then BitVec.ofNat 32 (phys + j * 4096) ||| flags else m.mem t j with hm'
    have hdir : m'.mem m'.bootPageDirectory i = m.mem m.bootPageDirectory i := by
      rw [hm', Machine.setTable_boot, Machine.setTable_mem, if_neg hne.symm]
    have hstep : vmmMapPage m' (i * 4194304 + n * 4096) (BitVec.ofNat 32 (phys + n * 4096)) flags =
        some (m'.setWord t n (BitVec.ofNat 32 (phys + n * 4096) ||| flags)) := by
      rw [vmmMapPage, dirIndex_table i n (by omega), tableIndex_table i n (by omega), ensureTable,
        if_pos (by rw [hdir]; exact hpres)]
      dsimp only
      rw [hdir, ht]
    simp only [Option.bind_eq_bind, Option.bind_some, List.foldlM_cons, List.foldlM_nil, hstep]
    rw [hm', Machine.setTable_setWord]
    congr 2
    funext j
    rw [Function.update_apply]
    split_ifs <;> first | omega | simp_all

/-- The table at directory index `i` of the kernel, linked if it is missing and
filled with consecutive pages. -/
def fillTable (m : Machine) (i phys : Nat) (flags : Word) : Option Machine :=
  match ensureTable m m.bootPageDirectory i with
  | (_, false) => none
  | (m, true) =>
    some (m.setTable (frameOf (m.mem m.bootPageDirectory i)) fun j =>
      if j < 1024 then BitVec.ofNat 32 (phys + j * 4096) ||| flags
      else m.mem (frameOf (m.mem m.bootPageDirectory i)) j)

/-- The pages of one table, mapped in turn, are one filled table. -/
theorem mapKernelRange_table {m : Machine} {i : Nat} (phys : Nat) (flags : Word)
    (hlimit : m.pmm.maxPage ≤ pmmMaxPages) (hzero : m.pmm.bitmap 0 = true)
    (hboot : m.bootPageDirectory < m.pmm.maxPage → m.pmm.bitmap m.bootPageDirectory = true)
    (hne : isPresent (m.mem m.bootPageDirectory i) = true →
      frameOf (m.mem m.bootPageDirectory i) ≠ m.bootPageDirectory) :
    mapKernelRange (i * 4194304) phys flags 1024 m = fillTable m i phys flags := by
  have hsplit : ∀ m, mapKernelRange (i * 4194304) phys flags 1024 m =
      (mapKernelRange (i * 4194304) phys flags 1 m).bind
        (mapKernelRange (i * 4194304 + 1 * 4096) (phys + 1 * 4096) flags 1023) :=
    mapKernelRange_add (i * 4194304) phys flags 1 1023
  have hone : ∀ m, mapKernelRange (i * 4194304) phys flags 1 m =
      match ensureTable m m.bootPageDirectory i with
      | (_, false) => none
      | (m, true) =>
        some (m.setWord (frameOf (m.mem m.bootPageDirectory i)) 0
          (BitVec.ofNat 32 (phys + 0 * 4096) ||| flags)) := by
    intro m
    have hstep := dirIndex_table i 0 (by omega)
    have hindex := tableIndex_table i 0 (by omega)
    simp only [mapKernelRange, List.range_one, List.foldlM_cons, List.foldlM_nil, vmmMapPage,
      hstep, hindex, Option.bind_eq_bind]
    exact Option.bind_fun_some _
  unfold fillTable
  rcases ensureTable_cases m m.bootPageDirectory i hlimit hzero with
    ⟨hpres, hres⟩ | ⟨habs, hres⟩ | ⟨f, habs, hclear, hf, hres⟩
  · rw [hres]
    exact mapKernelRange_present m phys flags hpres rfl (hne hpres) le_rfl
  · -- no table and no memory: the first page halts
    rw [hres, hsplit, hone, hres]
    rfl
  · -- the first page links the table, and finds it linked when it is mapped again
    set m' := ((m.withPmm (m.pmm.take f)).clearFrame f).setWord m.bootPageDirectory i
      (frameAddr f ||| pagePresent ||| pageWrite ||| pageUser) with hm'
    have hmax : f < 1048576 := lt_of_lt_of_le hf hlimit
    have hpde : m'.mem m'.bootPageDirectory i =
        frameAddr f ||| pagePresent ||| pageWrite ||| pageUser := Machine.setWord_mem_self _ _ _
    have hpres : isPresent (m'.mem m'.bootPageDirectory i) = true := by
      rw [hpde]
      exact isPresent_tableEntry _
    have hfne : frameOf (m'.mem m'.bootPageDirectory i) ≠ m'.bootPageDirectory := by
      rw [hpde, frameOf_tableEntry hmax]
      intro heq
      rw [show f = m.bootPageDirectory from heq] at hf hclear
      rw [hboot hf] at hclear
      cases hclear
    have hagain : ensureTable m' m'.bootPageDirectory i = (m', true) := if_pos hpres
    have hfirst : mapKernelRange (i * 4194304) phys flags 1024 m =
        mapKernelRange (i * 4194304) phys flags 1024 m' := by
      rw [hsplit, hsplit, hone, hone, hres, hagain]
    rw [hfirst, hres, mapKernelRange_present m' phys flags hpres rfl hfne le_rfl]

/-- The kernel half of the directory, with the first `n` tables of the
framebuffer filled by `paging_init`. -/
structure KernelDir (m : Machine) (n : Nat) : Prop where
  direct : ∀ i, 768 ≤ i → i < 896 → hasFlag (m.mem m.bootPageDirectory i) pageUser = false
  gap : ∀ i, 896 ≤ i → i < 1012 → isPresent (m.mem m.bootPageDirectory i) = false
  fbFirst : isPresent (m.mem m.bootPageDirectory 1012) = true ∧
    hasFlag (m.mem m.bootPageDirectory 1012) pageUser = false
  fbRest : ∀ i, 1013 ≤ i → i < 1012 + n →
    isPresent (m.mem m.bootPageDirectory i) = true ∧
    hasFlag (m.mem m.bootPageDirectory i) pageUser = true ∧
    ∀ j < 1024, isPresent (m.pteAt m.bootPageDirectory i j) = true ∧
      hasFlag (m.pteAt m.bootPageDirectory i j) pageUser = true
  top : ∀ i, 1013 ≤ i → 1012 + n ≤ i → i < 1024 →
    isPresent (m.mem m.bootPageDirectory i) = false

/-- The invariants of the kernel before the first address space. -/
structure BootInv (m : Machine) (own : Nat → Owner) (n : Nat) : Prop where
  inv : VmInv m ∅ own
  half : KernelHalf m own fun _ _ => False
  dir : KernelDir m n
  slots : ∀ slot, m.kstackBitmap slot = false
  plain : ∀ f, own f = .free ∨ own f = .kernel .reserved

/-- Without directories the ownership invariant reads no memory. -/
theorem VmInv.congrEmpty {m : Machine} {own : Nat → Owner} (h : VmInv m ∅ own) {m' : Machine}
    (hpmm : m'.pmm = m.pmm) (hboot : m'.bootPageDirectory = m.bootPageDirectory) :
    VmInv m' ∅ own where
  limit := by rw [hpmm]; exact h.limit
  free_iff := by rw [hpmm]; exact h.free_iff
  beyond := by rw [hpmm]; exact h.beyond
  zeroBit := by rw [hpmm]; exact h.zeroBit
  zero := h.zero
  boot := by rw [hboot]; exact h.boot
  dir := by simp
  table := by simp
  kernelHalf := by simp
  small := by simp
  page := by simp [userSites]
  counted f hf := by
    have hzero : userRefs m' ∅ f = userRefs m ∅ f := by simp [userRefs, refs, userSites]
    rw [hpmm, hzero]
    exact h.counted f hf
  one := by rw [hpmm]; exact h.one
  single := by simp [userSites]
  cow := by simp [userSites]
  marked := by simp [userSites]

/-- The owners at boot: what the allocator may give out is free. -/
def bootOwner (p : Pmm) (f : Nat) : Owner :=
  if p.bitmap f then .kernel .reserved else .free

theorem bootOwner_ne_user (p : Pmm) (f : Nat) :
    bootOwner p f = .free ∨ bootOwner p f = .kernel .reserved := by
  unfold bootOwner
  split_ifs
  · exact Or.inr rfl
  · exact Or.inl rfl

/-- A capped allocator, with the frames of the image reserved, starts out owned by
the kernel. -/
theorem VmInv.atBoot {m : Machine} (hcap : PmmCapped m.pmm) (hzero : m.pmm.bitmap 0 = true)
    (hboot : m.pmm.bitmap m.bootPageDirectory = true) : VmInv m ∅ (bootOwner m.pmm) where
  limit := hcap.limit
  free_iff f hf := by
    unfold bootOwner
    cases m.pmm.bitmap f <;> simp
  beyond f hf := by simp [bootOwner, hcap.above f hf]
  zeroBit := hzero
  zero := by simp [bootOwner, hzero]
  boot := by simp [bootOwner, hboot]
  dir := by simp
  table := by simp
  kernelHalf := by simp
  small := by simp
  page := by simp [userSites]
  counted f hf := by rcases bootOwner_ne_user m.pmm f with h | h <;> rw [h] at hf <;> cases hf
  one f hf := by rcases bootOwner_ne_user m.pmm f with h | h <;> simp [h] at hf
  single := by simp [userSites]
  cow := by simp [userSites]
  marked := by simp [userSites]

end EnclaveOS
