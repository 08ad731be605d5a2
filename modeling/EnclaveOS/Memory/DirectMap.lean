import EnclaveOS.Memory.KernelBoot

/-!
# DirectMap - what kernel stacks do to the direct map

The stack pool lies inside the direct map, so that a kernel stack is built over
the entries that map five frames.  An allocation unmaps the first of them and maps
other frames over the rest; giving the stack back leaves all five unmapped.
-/

namespace EnclaveOS

open PageWord

/-- The kernel address of a frame, `PHYS_TO_VIRT`. -/
def physToVirt (frame : Nat) : Nat := wrap32 (frame * 4096 + kernelSpaceStart)

/-- The frame that the direct map has at page `q` of a slot. -/
def slotFrame (slot q : Nat) : Nat := 32768 + slot * 5 + q

theorem physToVirt_eq {frame : Nat} (h : frame < 131072) :
    physToVirt frame = kernelSpaceStart + frame * 4096 := by
  unfold physToVirt wrap32 kernelSpaceStart
  omega

theorem stackVirt_eq (slot q : Nat) :
    stackVirt slot q = kernelSpaceStart + slotFrame slot q * 4096 := by
  have hvirt : stackVirt slot q = 0xC8000000 + slot * 20480 + q * 4096 := rfl
  rw [hvirt]
  unfold slotFrame kernelSpaceStart
  omega

theorem direct_index {p : Nat} (hp : p < 131072) :
    768 ≤ dirIndex (kernelSpaceStart + p * 4096) ∧ dirIndex (kernelSpaceStart + p * 4096) < 896 := by
  rw [dirIndex_direct]
  omega

/-- Different pages of the direct map have different entries. -/
theorem direct_inj {p p' : Nat}
    (hdir : dirIndex (kernelSpaceStart + p * 4096) = dirIndex (kernelSpaceStart + p' * 4096))
    (htable : tableIndex (kernelSpaceStart + p * 4096) =
      tableIndex (kernelSpaceStart + p' * 4096)) : p = p' := by
  rw [dirIndex_direct, dirIndex_direct] at hdir
  rw [tableIndex_direct, tableIndex_direct] at htable
  omega

/-- Every entry of the direct map has a table of its own. -/
structure DirectTables (m : Machine) : Prop where
  table : ∀ i, 768 ≤ i → i < 896 → isPresent (m.mem m.bootPageDirectory i) = true ∧
    frameOf (m.mem m.bootPageDirectory i) ≠ m.bootPageDirectory
  inj : ∀ i i', 768 ≤ i → i < 896 → 768 ≤ i' → i' < 896 →
    frameOf (m.mem m.bootPageDirectory i) = frameOf (m.mem m.bootPageDirectory i') → i = i'

theorem KernelHalf.directTables {m : Machine} {own : Nat → Owner} {R : Nat → Nat → Prop}
    (h : KernelHalf m own R) : DirectTables m where
  table i hi hi' := ⟨h.direct i hi hi', (h.table i hi (by omega) (h.direct i hi hi')).2⟩
  inj i i' hi hi₁ hi' hi₁' :=
    h.inj i i' hi (by omega) hi' (by omega) (h.direct i hi hi₁) (h.direct i' hi' hi₁')

/-- Memory changes only in the five entries of a slot. -/
structure SlotWrites (slot : Nat) (m m' : Machine) : Prop where
  boot : m'.bootPageDirectory = m.bootPageDirectory
  dir : m'.mem m.bootPageDirectory = m.mem m.bootPageDirectory
  mem : ∀ g j, m'.mem g j ≠ m.mem g j → ∃ q ≤ 4,
    g = frameOf (m.mem m.bootPageDirectory (dirIndex (stackVirt slot q))) ∧
      j = tableIndex (stackVirt slot q)

namespace SlotWrites

variable {m m' m'' : Machine} {slot : Nat}

theorem ofMem (hboot : m'.bootPageDirectory = m.bootPageDirectory) (hmem : m'.mem = m.mem) :
    SlotWrites slot m m' where
  boot := hboot
  dir := by rw [hmem]
  mem g j hne := absurd (congrFun (congrFun hmem g) j) hne

theorem trans (h : SlotWrites slot m m') (h' : SlotWrites slot m' m'') : SlotWrites slot m m'' where
  boot := h'.boot.trans h.boot
  dir := by
    have hdir := h'.dir
    rw [h.boot] at hdir
    exact hdir.trans h.dir
  mem g j hne := by
    by_cases hfirst : m'.mem g j = m.mem g j
    · have hsecond := h'.mem g j (by rw [hfirst]; exact hne)
      rwa [h.boot, h.dir] at hsecond
    · exact h.mem g j hfirst

theorem directTables (h : SlotWrites slot m m') (hd : DirectTables m) : DirectTables m' := by
  constructor
  · rw [h.boot, h.dir]
    exact hd.table
  · rw [h.boot, h.dir]
    exact hd.inj

/-- Writing one entry of the slot. -/
theorem write (hd : DirectTables m) {q : Nat} (hslot : slot < kernelStackSlots) (hq : q ≤ 4)
    (p : Pmm) (w : Word) :
    SlotWrites slot m ((m.withPmm p).setWord
      (frameOf (m.mem m.bootPageDirectory (dirIndex (stackVirt slot q))))
      (tableIndex (stackVirt slot q)) w) := by
  obtain ⟨hlo, hhi⟩ := stackVirt_index hslot hq
  refine ⟨rfl, ?_, ?_⟩
  · exact Machine.setWord_mem_of_ne (m := m.withPmm p) (hd.table _ hlo hhi).2.symm _ _
  · intro g j hne
    rw [Machine.setWord_mem] at hne
    split_ifs at hne with hat
    · exact ⟨q, hq, hat⟩
    · exact absurd rfl hne

/-- The entries of other frames of the direct map stay. -/
theorem kernelPte_eq (h : SlotWrites slot m m') (hd : DirectTables m)
    (hslot : slot < kernelStackSlots) {p : Nat} (hp : p < 131072)
    (hout : ∀ q ≤ 4, p ≠ slotFrame slot q) :
    kernelPte m' (kernelSpaceStart + p * 4096) = kernelPte m (kernelSpaceStart + p * 4096) := by
  obtain ⟨hlo, hhi⟩ := direct_index hp
  unfold kernelPte Machine.pteAt
  rw [h.boot, h.dir]
  by_contra hne
  obtain ⟨q, hq, hframe, hindex⟩ := h.mem _ _ hne
  obtain ⟨hlo', hhi'⟩ := stackVirt_index hslot hq
  have hdir := hd.inj _ _ hlo hhi hlo' hhi' hframe
  rw [stackVirt_eq] at hdir hindex
  exact hout q hq (direct_inj hdir hindex)

end SlotWrites

section Allocator

variable {m m' : Machine} {slot : Nat}

theorem freeStackPage_writes (hd : DirectTables m) (hslot : slot < kernelStackSlots) {q : Nat}
    (hq : q ≤ 4) : SlotWrites slot m (freeStackPage m (stackVirt slot q)) := by
  unfold freeStackPage
  dsimp only
  split_ifs
  · exact .write hd hslot hq _ _
  · exact .ofMem rfl rfl

theorem foldl_freeStackPage_writes (hd : DirectTables m) (hslot : slot < kernelStackSlots)
    {l : List Nat} (hl : ∀ q ∈ l, q ≤ 4) :
    SlotWrites slot m (l.foldl (fun m q => freeStackPage m (stackVirt slot q)) m) := by
  induction l generalizing m with
  | nil => exact .ofMem rfl rfl
  | cons q rest ih =>
    have hfirst := freeStackPage_writes hd hslot (hl q List.mem_cons_self)
    exact hfirst.trans (ih (hfirst.directTables hd) fun p hp => hl p (List.mem_cons_of_mem _ hp))

/-- The machine after an allocation that does not halt. -/
def KstackResult.machine : KstackResult → Option Machine
  | .allocated m _ => some m
  | .failed m => some m
  | .halted => none

theorem mapStackPages_writes (hd : DirectTables m) (hslot : slot < kernelStackSlots)
    {l : List Nat} (hl : ∀ q ∈ l, q ≤ 4) (h : (mapStackPages slot l m).machine = some m') :
    SlotWrites slot m m' := by
  induction l generalizing m with
  | nil =>
    cases h
    exact .ofMem rfl rfl
  | cons q rest ih =>
    have hq := hl q List.mem_cons_self
    obtain ⟨hlo, hhi⟩ := stackVirt_index hslot hq
    unfold mapStackPages at h
    rcases halloc : m.allocPage with ⟨m₁, phys⟩
    rw [halloc] at h
    have hmem : m₁.mem = m.mem ∧ m₁.bootPageDirectory = m.bootPageDirectory := by
      have hfst := congrArg Prod.fst halloc
      rw [← show m.allocPage.1 = m₁ from hfst]
      exact ⟨rfl, rfl⟩
    have htake : SlotWrites slot m m₁ := .ofMem hmem.2 hmem.1
    have hd₁ := htake.directTables hd
    dsimp only at h
    by_cases hzero : phys = 0#32
    · -- no memory: the pages mapped so far go back
      rw [if_pos hzero] at h
      cases h
      have hback := foldl_freeStackPage_writes (l := List.range' 1 (q - 1)) hd₁ hslot
        fun p hp => by rw [List.mem_range'_1] at hp; omega
      exact (htake.trans hback).trans (.ofMem rfl rfl)
    · rw [if_neg hzero] at h
      have hmap : vmmMapPage m₁ (kernelStackBase slot + q * 4096) phys (pagePresent ||| pageWrite) =
          some (m₁.setWord (frameOf (m₁.mem m₁.bootPageDirectory (dirIndex (stackVirt slot q))))
            (tableIndex (stackVirt slot q)) (phys ||| (pagePresent ||| pageWrite))) :=
        vmmMapPage_eq _ _ (hd₁.table _ hlo hhi).1
      rw [hmap] at h
      have hwrite := SlotWrites.write hd₁ hslot hq m₁.pmm (phys ||| (pagePresent ||| pageWrite))
      exact (htake.trans hwrite).trans
        (ih (hwrite.directTables hd₁) (fun p hp => hl p (List.mem_cons_of_mem _ hp)) h)

/-- The slot the next stack is built in. -/
def nextSlot (m : Machine) : Option Nat :=
  (List.range kernelStackSlots).find? fun i => !m.kstackBitmap i

theorem nextSlot_lt (h : nextSlot m = some slot) : slot < kernelStackSlots := by
  unfold nextSlot at h
  exact List.mem_range.mp (List.mem_of_find?_eq_some h)

theorem mapStackPages_top {l : List Nat} {top : Nat}
    (h : mapStackPages slot l m = .allocated m' top) : top = kernelStackTop slot := by
  induction l generalizing m with
  | nil =>
    cases h
    rfl
  | cons q rest ih =>
    unfold mapStackPages at h
    rcases m.allocPage with ⟨m₁, phys⟩
    dsimp only at h
    split_ifs at h
    split at h
    · cases h
    · exact ih h

/-- The stack given out is that of the first free slot. -/
theorem vmmAllocKernelStack_top {top : Nat} (h : vmmAllocKernelStack m = .allocated m' top) :
    ∃ slot, nextSlot m = some slot ∧ top = kernelStackTop slot := by
  unfold vmmAllocKernelStack at h
  cases hfind : (List.range kernelStackSlots).find? fun i => !m.kstackBitmap i with
  | none =>
    rw [hfind] at h
    cases h
  | some slot =>
    rw [hfind] at h
    exact ⟨slot, hfind, mapStackPages_top h⟩

theorem kernelStackTop_inj {slot slot' : Nat} (h : kernelStackTop slot = kernelStackTop slot') :
    slot = slot' := by
  unfold kernelStackTop kernelStackBase kernelStackSlotSize kernelStackSlotPages at h
  omega

/-- `vmm_alloc_kernel_stack` writes to the entries of the first free slot. -/
theorem vmmAllocKernelStack_writes (hd : DirectTables m)
    (h : (vmmAllocKernelStack m).machine = some m') :
    m' = m ∨ ∃ slot, nextSlot m = some slot ∧ SlotWrites slot m m' := by
  unfold vmmAllocKernelStack at h
  cases hfind : (List.range kernelStackSlots).find? fun i => !m.kstackBitmap i with
  | none =>
    rw [hfind] at h
    cases h
    exact Or.inl rfl
  | some slot =>
    rw [hfind] at h
    have hslot : slot < kernelStackSlots := nextSlot_lt hfind
    have hset : SlotWrites slot m (m.setSlot slot true) := .ofMem rfl rfl
    have hguard : SlotWrites slot (m.setSlot slot true)
        (vmmUnmapPageInPd (m.setSlot slot true) m.bootPageDirectory (kernelStackBase slot)) := by
      unfold vmmUnmapPageInPd
      dsimp only
      split_ifs
      · exact .ofMem rfl rfl
      · exact .write (q := 0) (hset.directTables hd) hslot (by omega)
          (m.setSlot slot true).pmm _
      · exact .ofMem rfl rfl
    have hboth := hset.trans hguard
    exact Or.inr ⟨slot, hfind, hboth.trans
      (mapStackPages_writes (hboth.directTables hd) hslot (by decide) h)⟩

/-- With its tables present, a stack is freed page by page. -/
theorem vmmFreeKernelStack_foldl (hd : DirectTables m) (hslot : slot < kernelStackSlots) :
    vmmFreeKernelStack m (kernelStackTop slot) =
      [1, 2, 3, 4].foldl (fun m q => freeStackPage m (stackVirt slot q)) (m.setSlot slot false) := by
  have hfold : ∀ (l : List Nat) (m : Machine), DirectTables m → (∀ q ∈ l, q ≤ 4) →
      l.foldl (fun m p =>
          if isPresent (m.mem m.bootPageDirectory
              (dirIndex (kernelStackBase slot + p * 4096))) then
            freeStackPage m (kernelStackBase slot + p * 4096)
          else m) m =
        l.foldl (fun m q => freeStackPage m (stackVirt slot q)) m := by
    intro l
    induction l with
    | nil => exact fun _ _ _ => rfl
    | cons q rest ih =>
      intro m hd hl
      have hq := hl q List.mem_cons_self
      obtain ⟨hlo, hhi⟩ := stackVirt_index hslot hq
      have hpres : isPresent (m.mem m.bootPageDirectory
          (dirIndex (kernelStackBase slot + q * 4096))) = true := (hd.table _ hlo hhi).1
      rw [List.foldl_cons, List.foldl_cons, if_pos hpres]
      exact ih _ ((freeStackPage_writes hd hslot hq).directTables hd)
        fun r hr => hl r (List.mem_cons_of_mem q hr)
  have hset : SlotWrites slot m (m.setSlot slot false) := .ofMem rfl rfl
  rw [vmmFreeKernelStack_eq m hslot]
  exact hfold _ _ (hset.directTables hd) (by decide)

/-- `vmm_free_kernel_stack` writes to the entries of its slot. -/
theorem vmmFreeKernelStack_writes (hd : DirectTables m) (hslot : slot < kernelStackSlots) :
    SlotWrites slot m (vmmFreeKernelStack m (kernelStackTop slot)) := by
  have hset : SlotWrites slot m (m.setSlot slot false) := .ofMem rfl rfl
  rw [vmmFreeKernelStack_foldl hd hslot]
  exact hset.trans (foldl_freeStackPage_writes (hset.directTables hd) hslot (by decide))

end Allocator

end EnclaveOS
