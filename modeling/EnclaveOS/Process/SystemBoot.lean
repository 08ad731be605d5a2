import EnclaveOS.Process.SystemInv

/-!
# SystemBoot - from power on to the first process

The bitmap `pmm_init` and `paging_init` compute from a memory map, the
state in which the first process is started, and a small machine on which all of
it can be evaluated.
-/

namespace EnclaveOS

open PageWord

theorem pmmReserveRegion_bitmap (p : Pmm) (base stop f : Nat) :
    (pmmReserveRegion p base stop).bitmap f =
      (decide (base < stop ∧ wrap32 (base / pmmPageSize) ≤ f ∧
        f < min (wrap32 (wrap64 (stop + pmmPageSize - 1) / pmmPageSize)) p.maxPage) ||
        p.bitmap f) := by
  unfold pmmReserveRegion
  dsimp only
  by_cases hempty : stop ≤ base
  · rw [if_pos hempty, decide_eq_false (by omega), Bool.false_or]
  · rw [if_neg hempty]
    by_cases hbeyond : p.maxPage ≤ wrap32 (base / pmmPageSize)
    · rw [if_pos hbeyond, decide_eq_false (by omega), Bool.false_or]
    · rw [if_neg hbeyond]
      dsimp only
      split_ifs with hin
      · rw [decide_eq_true ⟨Nat.not_le.mp hempty, hin⟩, Bool.true_or]
      · rw [decide_eq_false fun h => hin h.2, Bool.false_or]

theorem pmmFreeRegion_bitmap (p : Pmm) (base length f : Nat) :
    (pmmFreeRegion p base length).bitmap f =
      (!decide (wrap64 (base + pmmPageSize - 1) / pmmPageSize * pmmPageSize <
          wrap64 (base + length) / pmmPageSize * pmmPageSize ∧
        wrap32 (wrap64 (base + pmmPageSize - 1) / pmmPageSize * pmmPageSize / pmmPageSize) ≤ f ∧
        f < min (wrap32 (wrap64 (base + length) / pmmPageSize * pmmPageSize / pmmPageSize))
          p.maxPage) && p.bitmap f) := by
  unfold pmmFreeRegion
  dsimp only
  by_cases hempty : wrap64 (base + length) / pmmPageSize * pmmPageSize ≤
      wrap64 (base + pmmPageSize - 1) / pmmPageSize * pmmPageSize
  · rw [if_pos hempty, decide_eq_false (by omega), Bool.not_false, Bool.true_and]
  · rw [if_neg hempty]
    split_ifs with hbeyond
    · rw [decide_eq_false (by omega), Bool.not_false, Bool.true_and]
    · dsimp only
      split_ifs with hin
      · rw [decide_eq_true ⟨Nat.not_le.mp hempty, hin⟩, Bool.not_true, Bool.false_and]
      · rw [decide_eq_false fun h => hin h.2, Bool.not_false, Bool.true_and]

/-- What the bookkeeping of regions leaves alone. -/
structure RegionStep (p p' : Pmm) : Prop where
  refcounts : p'.refcounts = p.refcounts
  usedPages : p'.usedPages = p.usedPages
  maxPage : p'.maxPage = p.maxPage
  totalAllocs : p'.totalAllocs = p.totalAllocs
  totalFrees : p'.totalFrees = p.totalFrees

namespace RegionStep

variable {p p' p'' : Pmm}

theorem refl (p : Pmm) : RegionStep p p :=
  ⟨rfl, rfl, rfl, rfl, rfl⟩

theorem trans (h : RegionStep p p') (h' : RegionStep p' p'') : RegionStep p p'' :=
  ⟨h'.refcounts.trans h.refcounts, h'.usedPages.trans h.usedPages, h'.maxPage.trans h.maxPage,
    h'.totalAllocs.trans h.totalAllocs, h'.totalFrees.trans h.totalFrees⟩

theorem reserve (p : Pmm) (base stop : Nat) : RegionStep p (pmmReserveRegion p base stop) := by
  unfold pmmReserveRegion
  dsimp only
  split_ifs
  · exact refl p
  · exact refl p
  · exact ⟨rfl, rfl, rfl, rfl, rfl⟩

theorem free (p : Pmm) (base length : Nat) : RegionStep p (pmmFreeRegion p base length) := by
  unfold pmmFreeRegion
  dsimp only
  split_ifs
  · exact refl p
  · exact refl p
  · exact ⟨rfl, rfl, rfl, rfl, rfl⟩

theorem reserveAll (l : List (Nat × Nat)) (p : Pmm) :
    RegionStep p (l.foldl (fun p r => pmmReserveRegion p r.1 r.2) p) := by
  induction l generalizing p with
  | nil => exact refl p
  | cons r rest ih => exact (reserve p r.1 r.2).trans (ih _)

/-- The allocator is known up to its count of available pages. -/
theorem eq (h : RegionStep p p') :
    p' = { p with bitmap := p'.bitmap, totalAvailablePages := p'.totalAvailablePages } := by
  cases p
  cases p'
  cases h
  simp_all

end RegionStep

/-- The kernel half at boot: no stack is in use, and the direct map is whole. -/
structure BootState (s : System) (own : Nat → Owner) : Prop where
  sys : SysInv s ∅ own
  idle : ∀ p, s.proc p = none
  dir : KernelDir s.machine 4
  direct : DirectMap s.machine
  slots : ∀ slot, s.machine.kstackBitmap slot = false
  plain : ∀ f, own f = .free ∨ own f = .kernel .reserved ∨ own f = .kernel .pcb

theorem kernelPte_congr {m m' : Machine} (hboot : m'.bootPageDirectory = m.bootPageDirectory)
    (hmem : m'.mem = m.mem) (virt : Nat) : kernelPte m' virt = kernelPte m virt := by
  unfold kernelPte Machine.pteAt
  rw [hboot, hmem]

/-- The system the first process is started in. -/
theorem System.boot_inv {image : BootImage} {info : BootInfo} {ram : Nat → Nat → Word}
    {s : System} (hboot : System.boot image info ram = some s) : ∃ own, BootState s own := by
  unfold System.boot at hboot
  rw [Option.bind_eq_bind, Option.bind_eq_some_iff] at hboot
  obtain ⟨m, hkernel, htasking⟩ := hboot
  rw [Option.bind_eq_some_iff] at htasking
  obtain ⟨m', htasking, hs⟩ := htasking
  cases hs
  obtain ⟨own, hinv, hdirect⟩ := kernelBoot_spec image info ram hkernel
  have hhalf : KernelHalf m own (stacksInUse m) := by
    refine hinv.half.mono ?_
    rintro slot p ⟨-, hbit, -⟩
    rw [hinv.slots slot] at hbit
    cases hbit
  unfold taskingInit at htasking
  rcases hinv.inv.allocPcb hhalf with hnone | ⟨f, -, -, hne, halloc, hpcb, hhalf', -⟩
  · rw [hnone] at htasking
    cases htasking
  · rw [halloc] at htasking
    dsimp only at htasking
    rw [if_neg hne] at htasking
    cases htasking
    refine ⟨_, ⟨⟨hpcb, hhalf', ?_, ?_, ?_, ?_, ?_⟩, fun _ => rfl, ?_, ?_, hinv.slots, ?_⟩⟩
    · intro pd
      constructor
      · intro hpd
        exact absurd hpd (Finset.notMem_empty pd)
      · rintro ⟨p, task, ⟨⟩, -⟩
    · rintro p q task task' pd ⟨⟩
    · rintro p task ⟨⟩
    · rintro p task ⟨⟩
    · rintro p q task task' ⟨⟩
    · exact ⟨hinv.dir.direct, hinv.dir.gap, hinv.dir.fbFirst, hinv.dir.fbRest, hinv.dir.top⟩
    · intro p hp
      rw [kernelPte_congr rfl rfl]
      exact hdirect p hp
    · intro g
      by_cases hg : g = f
      · rw [hg, Function.update_self]
        exact Or.inr (Or.inr rfl)
      · rw [Function.update_of_ne hg]
        exact (hinv.plain g).imp_right Or.inl

/-- 31 MB of memory from 1 MB on, and one page at 512 MB. -/
def smallMap : List E820Entry := [⟨0x00100000, 0x01F00000, 1⟩, ⟨0x20000000, 0x1000, 1⟩]

def smallInfo : BootInfo := ⟨some smallMap, none, [], 0x00100000, 0x00400000⟩

def smallImage : BootImage := ⟨512, by decide, by decide⟩

/-- The allocator of the small machine after `paging_init` reserved its regions. -/
def smallPmm : Pmm where
  bitmap f := decide (f < 4096 ∨ 8192 ≤ f ∧ f ≠ 131072)
  refcounts _ := 0
  totalAvailablePages := (pagingReserve smallImage (pmmInit smallInfo)).totalAvailablePages
  usedPages := 0
  maxPage := 131073
  totalAllocs := 0
  totalFrees := 0

def smallMachine : Machine where
  pmm := smallPmm
  mem := smallImage.bootMem fun _ _ => 0#32
  bootPageDirectory := 512
  kstackBitmap _ := false

/-- The state of the small machine before its first process. -/
def smallBoot : Option System := do
  let m ← (List.range' 0 4).foldlM fillFb smallMachine
  let m ← taskingInit m
  some ⟨m, fun _ => none⟩

/-- `pmm_init` on the sample map. -/
theorem pmmInit_small : pmmInit smallInfo =
    pmmReserveRegion (pmmReserveRegion (pmmFreeRegion (pmmFreeRegion
      ⟨fun _ => true, fun _ => 0, 0, 0, 131073, 0, 0⟩ 0x00100000 0x01F00000) 0x20000000 0x1000)
      lowerMemStart lowerMemEnd) 0x00100000 0x00400000 := by
  have hmax : pmmDetectMaxPage smallMap = 131073 := by decide
  have hmods : smallInfo.modules = [] := rfl
  have hregion : smallInfo.infoRegion = none := rfl
  have hkernel : smallInfo.kernelStart = 0x00100000 ∧ smallInfo.kernelEnd = 0x00400000 :=
    ⟨rfl, rfl⟩
  have hfree : ∀ p, smallMap.foldl (fun p e => if e.type = multibootMemoryAvailable then
      pmmFreeRegion p e.addr e.len else p) p =
        pmmFreeRegion (pmmFreeRegion p 0x00100000 0x01F00000) 0x20000000 0x1000 := by
    intro p
    simp only [smallMap, multibootMemoryAvailable, List.foldl_cons, List.foldl_nil, if_true]
  unfold pmmInit
  rw [show smallInfo.memoryMap = some smallMap from rfl, hmods, hregion, hkernel.1, hkernel.2]
  dsimp only
  rw [hmax, hfree, List.foldl_nil, if_neg]
  simp only [pmmReserveRegion_maxPage, pmmFreeRegion_maxPage]
  decide

theorem pagingReserve_small : pagingReserve smallImage (pmmInit smallInfo) = smallPmm := by
  have hbits : (pagingReserve smallImage (pmmInit smallInfo)).bitmap =
      fun f => decide (f < 4096 ∨ 8192 ≤ f ∧ f ≠ 131072) := by
    funext f
    rw [pmmInit_small]
    simp only [pagingReserve, pagingRegions, List.foldl_cons, List.foldl_nil,
      pmmReserveRegion_bitmap, pmmFreeRegion_bitmap, pmmReserveRegion_maxPage,
      pmmFreeRegion_maxPage, pmmPageSize, wrap64, wrap32, lowerMemStart, lowerMemEnd, smallImage,
      BootImage.bootPageTables, BootImage.bootPageTablesHh, BootImage.fbPageTable,
      BootImage.bootStack]
    norm_num
    rw [Bool.eq_iff_iff]
    simp only [Bool.or_eq_true, Bool.and_eq_true, Bool.not_eq_true', decide_eq_true_eq,
      decide_eq_false_iff_not]
    omega
  have hrest : RegionStep ⟨fun _ => true, fun _ => 0, 0, 0, 131073, 0, 0⟩
      (pagingReserve smallImage (pmmInit smallInfo)) := by
    refine RegionStep.trans ?_ (.reserveAll _ _)
    rw [pmmInit_small]
    exact (((RegionStep.free _ _ _).trans (.free _ _ _)).trans (.reserve _ _ _)).trans
      (.reserve _ _ _)
  refine hrest.eq.trans ?_
  rw [hbits]
  rfl

theorem System.boot_small :
    System.boot smallImage smallInfo (fun _ _ => 0#32) = smallBoot := by
  have hmachine : reservedMachine smallImage smallInfo (fun _ _ => 0#32) = smallMachine := by
    unfold reservedMachine
    rw [pagingReserve_small]
    rfl
  unfold System.boot smallBoot
  rw [kernelBoot_eq, hmachine]

/-- The bytes of a little-endian field. -/
def leBytes (size n : Nat) : List (BitVec 8) :=
  (List.range size).map fun i => BitVec.ofNat 8 (n / 256 ^ i)

/-- An executable with one segment, a zeroed page. -/
def smallFile (pFlags : Nat) : VfsFile := .ofBytes <|
  leBytes 4 elfMagic ++ List.replicate 12 0#8 ++ leBytes 2 etExec ++ leBytes 2 em386 ++
    leBytes 4 1 ++ leBytes 4 0x08048000 ++ leBytes 4 52 ++ leBytes 8 0 ++ leBytes 2 52 ++
    leBytes 2 32 ++ leBytes 2 1 ++ leBytes 6 0 ++
  leBytes 4 ptLoad ++ leBytes 4 0 ++ leBytes 4 0x08048000 ++ leBytes 4 0x08048000 ++
    leBytes 4 0 ++ leBytes 4 4096 ++ leBytes 4 pFlags ++ leBytes 4 4096

/-- The areas of the first process. -/
def smallVmas (flags : Word) : List Vma :=
  [⟨0x08048000, 0x08049000, flags⟩, ⟨0x10000000, 0x10000000, 3#32⟩,
    ⟨0xBFFEF000, 0xBFFFF000, 3#32⟩]

/-- The small machine with its first process: its PCB, its directory and its page
table are frames 4107, 4100 and 4102, and frame 4101 is its page. -/
structure SmallInit (flags : Word) (s : System) : Prop where
  task : s.proc 4107 = some ⟨⟨some 4100, smallVmas flags⟩, kernelStackTop 0⟩
  pde : s.machine.mem 4100 32 = 0x01006007#32
  pte : s.machine.mem 4102 72 = 0x01005007#32
  kernelPde : s.machine.mem 4100 772 = 0x00285003#32
  kernelPte : s.machine.mem 645 5 = 0x01005003#32
  counted : s.machine.pmm.refcounts 4101 = 1 ∧ s.machine.pmm.bitmap 4101 = true
  limit : s.machine.pmm.maxPage = 131073
  nullPde : isPresent (s.machine.mem 4100 0) = false

theorem SmallInit.running {flags : Word} {s : System} (h : SmallInit flags s) :
    s.running 4107 = some (⟨⟨some 4100, smallVmas flags⟩, kernelStackTop 0⟩, 4100) :=
  System.running_eq_some.mpr ⟨h.task, rfl⟩

theorem SmallInit.pteAt {flags : Word} {s : System} (h : SmallInit flags s) :
    s.machine.pteAt 4100 (dirIndex 0x08048000) (tableIndex 0x08048000) = 0x01005007#32 := by
  unfold Machine.pteAt
  rw [show dirIndex 0x08048000 = 32 from rfl, h.pde]
  exact h.pte

theorem SmallInit.kernelPteAt {flags : Word} {s : System} (h : SmallInit flags s) :
    s.machine.pteAt 4100 (dirIndex 0xC1005000) (tableIndex 0xC1005000) = 0x01005003#32 := by
  unfold Machine.pteAt
  rw [show dirIndex 0xC1005000 = 772 from rfl, h.kernelPde]
  exact h.kernelPte

theorem SmallInit.released {flags : Word} {s : System} (h : SmallInit flags s) :
    pmmFreePage s.machine.pmm (frameAddr 4101) = s.machine.pmm.release 4101 := by
  rw [pmmFreePage_frameAddr _ (by decide), h.limit, h.counted.2, if_pos ⟨by decide, rfl⟩]

/-- The fields of `SmallInit`, evaluated. -/
def smallCheck (flags : Word) (s : System) : Bool :=
  (match s.proc 4107 with
    | none => false
    | some task => decide (task.pdirVirt = some 4100 ∧ task.vmaHead = smallVmas flags ∧
      task.kernelStackVirt = kernelStackTop 0)) &&
  decide (s.machine.mem 4100 32 = 0x01006007#32 ∧ s.machine.mem 4102 72 = 0x01005007#32 ∧
    s.machine.mem 4100 772 = 0x00285003#32 ∧ s.machine.mem 645 5 = 0x01005003#32 ∧
    s.machine.pmm.refcounts 4101 = 1 ∧ s.machine.pmm.bitmap 4101 = true ∧
    s.machine.pmm.maxPage = 131073 ∧ isPresent (s.machine.mem 4100 0) = false)

/-- The steps of a fork of the first process whose user half has one page, with the
entries that the loops pass over. -/
def forkCheck (s : System) : Bool :=
  match vmmAllocKernelStack s.machine with
  | .allocated m _ =>
    match m.allocPage with
    | (m, pcbPhys) =>
      match vmmCreateAddressSpace m with
      | (_, none) => false
      | (m, some child) =>
        match m.allocPage with
        | (m', ptPhys) =>
          decide (pcbPhys ≠ 0#32 ∧ frameOf pcbPhys ≠ 4107 ∧ child ≠ 4100 ∧ child ≠ 4102 ∧
            m.mem 4100 32 = 0x01006007#32 ∧ ptPhys ≠ 0#32 ∧ frameOf ptPhys ≠ 4100 ∧
            frameOf ptPhys ≠ 4102 ∧ m.mem 4102 72 = 0x01005007#32 ∧
            m'.pmm.refcounts 4101 = 1 ∧ 4101 < m'.pmm.maxPage) &&
          (List.range 768).all (fun i => decide (i = 32) || !isPresent (m.mem 4100 i)) &&
          (List.range 1024).all fun j => decide (j = 72) || !isPresent (m.mem 4102 j)
  | _ => false

theorem smallInit_of_check {pFlags : Nat} {flags : Word} {check : System → Bool}
    (hrun : (smallBoot.bind fun s => SysOp.step s (.startInit (smallFile pFlags) [])).any
      fun s => smallCheck flags s && check s) :
    ∃ s₀ s, System.boot smallImage smallInfo (fun _ _ => 0#32) = some s₀ ∧
      SysOp.step s₀ (.startInit (smallFile pFlags) []) = some s ∧ SmallInit flags s ∧
      check s = true := by
  obtain ⟨s, hs, hboth⟩ := (Option.any_eq_true _ _).mp hrun
  obtain ⟨hcheck, hmore⟩ := Bool.and_eq_true_iff.mp hboth
  obtain ⟨s₀, hboot, hstep⟩ := Option.bind_eq_some_iff.mp hs
  unfold smallCheck at hcheck
  rw [Bool.and_eq_true, decide_eq_true_eq] at hcheck
  obtain ⟨htask, hpde, hpte, hkernelPde, hkernelPte, hcount, hbit, hlimit, hnull⟩ :=
    hcheck
  refine ⟨s₀, s, System.boot_small.trans hboot, hstep, ⟨?_, hpde, hpte, hkernelPde, hkernelPte,
    ⟨hcount, hbit⟩, hlimit, hnull⟩, hmore⟩
  rcases hproc : s.proc 4107 with _ | ⟨⟨pdir, vmas⟩, top⟩
  · rw [hproc] at htask
    cases htask
  · rw [hproc, decide_eq_true_eq] at htask
    obtain ⟨rfl, rfl, rfl⟩ := htask
    rfl

/-- A first process whose segment may be read and written, before a fork. -/
theorem smallInit_forks : ∃ s₀ s, System.boot smallImage smallInfo (fun _ _ => 0#32) = some s₀ ∧
    SysOp.step s₀ (.startInit (smallFile 6) []) = some s ∧ SmallInit 3#32 s ∧
    forkCheck s = true :=
  smallInit_of_check (by decide +kernel)

theorem smallInit_rw : ∃ s₀ s, System.boot smallImage smallInfo (fun _ _ => 0#32) = some s₀ ∧
    SysOp.step s₀ (.startInit (smallFile 6) []) = some s ∧ SmallInit 3#32 s := by
  obtain ⟨s₀, s, hboot, hstep, hsmall, -⟩ := smallInit_forks
  exact ⟨s₀, s, hboot, hstep, hsmall⟩

/-- A first process whose segment may be executed too. -/
theorem smallInit_rwx : ∃ s₀ s, System.boot smallImage smallInfo (fun _ _ => 0#32) = some s₀ ∧
    SysOp.step s₀ (.startInit (smallFile 7) []) = some s ∧ SmallInit 7#32 s := by
  obtain ⟨s₀, s, hboot, hstep, hsmall, -⟩ :=
    @smallInit_of_check 7 7#32 (fun _ => true) (by decide +kernel)
  exact ⟨s₀, s, hboot, hstep, hsmall⟩

end EnclaveOS
