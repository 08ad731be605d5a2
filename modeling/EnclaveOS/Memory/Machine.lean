import EnclaveOS.Memory.Pmm

/-!
# Machine - physical memory and the page-table primitives

Physical memory as frames of 1024 words, with the page allocator and the frame
of `boot_page_directory`.  The kernel reaches a frame through the direct
map, `PHYS_TO_VIRT`, which is taken to lead to that frame; page-directory
pointers are therefore frame numbers.  Translation caches are not modelled.
-/

namespace EnclaveOS

open PageWord

/-- Physical memory, the page allocator, the kernel's own page directory, and
the slots of the kernel stack pool. -/
structure Machine where
  pmm : Pmm
  mem : Nat → Nat → Word
  bootPageDirectory : Nat
  kstackBitmap : Nat → Bool

namespace Machine

/-- Store one word of a frame. -/
def setWord (m : Machine) (frame index : Nat) (w : Word) : Machine :=
  { m with mem := Function.update m.mem frame (Function.update (m.mem frame) index w) }

/-- `k_memset(frame, 0, 4096)`. -/
def clearFrame (m : Machine) (frame : Nat) : Machine :=
  { m with mem := Function.update m.mem frame fun _ => 0#32 }

/-- `k_memcpy(dst, src, 4096)`. -/
def copyFrame (m : Machine) (dst src : Nat) : Machine :=
  { m with mem := Function.update m.mem dst (m.mem src) }

/-- Copy the kernel half, entries 768 to 1023, from the kernel's directory. -/
def copyKernelHalf (m : Machine) (pd : Nat) : Machine :=
  { m with mem := Function.update m.mem pd fun i =>
      if 768 ≤ i ∧ i < 1024 then m.mem m.bootPageDirectory i else m.mem pd i }

/-- The machine with another allocator state. -/
def withPmm (m : Machine) (p : Pmm) : Machine :=
  { m with pmm := p }

def freePage (m : Machine) (phys : Word) : Machine :=
  m.withPmm (pmmFreePage m.pmm phys)

def incRef (m : Machine) (phys : Word) : Machine :=
  m.withPmm (pmmIncRef m.pmm phys)

def decRef (m : Machine) (phys : Word) : Machine :=
  m.withPmm (pmmDecRef m.pmm phys)

/-- `pmm_alloc_page`: the machine after the call and the result. -/
def allocPage (m : Machine) : Machine × Word :=
  (m.withPmm (pmmAllocPage m.pmm).1, (pmmAllocPage m.pmm).2)

variable (m : Machine)

@[simp] theorem withPmm_pmm (p : Pmm) : (m.withPmm p).pmm = p := rfl
@[simp] theorem withPmm_mem (p : Pmm) : (m.withPmm p).mem = m.mem := rfl
@[simp] theorem withPmm_boot (p : Pmm) :
    (m.withPmm p).bootPageDirectory = m.bootPageDirectory := rfl
@[simp] theorem setWord_pmm (f i : Nat) (w : Word) : (m.setWord f i w).pmm = m.pmm := rfl
@[simp] theorem setWord_boot (f i : Nat) (w : Word) :
    (m.setWord f i w).bootPageDirectory = m.bootPageDirectory := rfl
@[simp] theorem clearFrame_pmm (f : Nat) : (m.clearFrame f).pmm = m.pmm := rfl
@[simp] theorem clearFrame_boot (f : Nat) :
    (m.clearFrame f).bootPageDirectory = m.bootPageDirectory := rfl
@[simp] theorem copyFrame_pmm (d s : Nat) : (m.copyFrame d s).pmm = m.pmm := rfl
@[simp] theorem copyFrame_boot (d s : Nat) :
    (m.copyFrame d s).bootPageDirectory = m.bootPageDirectory := rfl
@[simp] theorem copyKernelHalf_pmm (pd : Nat) : (m.copyKernelHalf pd).pmm = m.pmm := rfl
@[simp] theorem copyKernelHalf_boot (pd : Nat) :
    (m.copyKernelHalf pd).bootPageDirectory = m.bootPageDirectory := rfl
@[simp] theorem freePage_mem (p : Word) : (m.freePage p).mem = m.mem := rfl
@[simp] theorem incRef_mem (p : Word) : (m.incRef p).mem = m.mem := rfl
@[simp] theorem decRef_mem (p : Word) : (m.decRef p).mem = m.mem := rfl
@[simp] theorem allocPage_mem : m.allocPage.1.mem = m.mem := rfl
@[simp] theorem freePage_boot (p : Word) :
    (m.freePage p).bootPageDirectory = m.bootPageDirectory := rfl
@[simp] theorem incRef_boot (p : Word) :
    (m.incRef p).bootPageDirectory = m.bootPageDirectory := rfl
@[simp] theorem decRef_boot (p : Word) :
    (m.decRef p).bootPageDirectory = m.bootPageDirectory := rfl
@[simp] theorem allocPage_boot : m.allocPage.1.bootPageDirectory = m.bootPageDirectory := rfl

variable {m}

theorem setWord_mem (f i g j : Nat) (w : Word) :
    (m.setWord f i w).mem g j = if g = f ∧ j = i then w else m.mem g j := by
  unfold setWord
  by_cases hg : g = f
  · subst hg
    by_cases hj : j = i
    · subst hj
      simp
    · simp [hj]
  · simp [hg]

@[simp]
theorem setWord_mem_self (f i : Nat) (w : Word) : (m.setWord f i w).mem f i = w := by
  rw [setWord_mem, if_pos ⟨rfl, rfl⟩]

theorem setWord_mem_of_ne {f g : Nat} (h : g ≠ f) (i : Nat) (w : Word) :
    (m.setWord f i w).mem g = m.mem g := by
  unfold setWord
  exact Function.update_of_ne h _ _

theorem clearFrame_mem (f g j : Nat) :
    (m.clearFrame f).mem g j = if g = f then 0#32 else m.mem g j := by
  unfold clearFrame
  by_cases hg : g = f
  · subst hg
    simp
  · simp [hg]

theorem clearFrame_mem_of_ne {f g : Nat} (h : g ≠ f) : (m.clearFrame f).mem g = m.mem g := by
  unfold clearFrame
  exact Function.update_of_ne h _ _

theorem copyFrame_mem_of_ne {d g : Nat} (h : g ≠ d) (s : Nat) :
    (m.copyFrame d s).mem g = m.mem g := by
  unfold copyFrame
  exact Function.update_of_ne h _ _

@[simp]
theorem copyFrame_mem_self (d s : Nat) : (m.copyFrame d s).mem d = m.mem s := by
  unfold copyFrame
  exact Function.update_self _ _ _

theorem copyKernelHalf_mem_of_ne {pd g : Nat} (h : g ≠ pd) :
    (m.copyKernelHalf pd).mem g = m.mem g := by
  unfold copyKernelHalf
  exact Function.update_of_ne h _ _

theorem copyKernelHalf_mem_self (pd i : Nat) :
    (m.copyKernelHalf pd).mem pd i =
      if 768 ≤ i ∧ i < 1024 then m.mem m.bootPageDirectory i else m.mem pd i := by
  unfold copyKernelHalf
  simp

/-- An allocation fails and changes nothing, or takes one free frame. -/
theorem allocPage_cases (m : Machine) :
    m.allocPage = (m, 0#32) ∨
    ∃ f, m.pmm.bitmap f = false ∧ f < m.pmm.maxPage ∧
      m.allocPage = (m.withPmm (m.pmm.take f), frameAddr f) := by
  unfold allocPage
  rcases pmmAllocPage_cases m.pmm with h | ⟨f, hclear, hlimit, h⟩
  · exact Or.inl (by rw [h]; rfl)
  · exact Or.inr ⟨f, hclear, hlimit, by rw [h]⟩

end Machine

/-- Flags of every page-directory entry the kernel creates. -/
def tableFlags : Word := pagePresent ||| pageWrite ||| pageUser

/-- The test `entry & PAGE_PRESENT`. -/
abbrev isPresent (w : Word) : Bool := hasFlag w pagePresent

@[simp]
theorem isPresent_zero : isPresent 0#32 = false :=
  hasFlag_zero _

/-- The page-table entry selected by directory index and table index. -/
def Machine.pteAt (m : Machine) (pd i j : Nat) : Word :=
  m.mem (frameOf (m.mem pd i)) j

/-- The common start of `vmm_map_page` and `vmm_map_page_in_pd`: a
missing page table is allocated, zeroed and linked.  The flag says whether a
table is there afterwards. -/
def ensureTable (m : Machine) (pd dirIndex : Nat) : Machine × Bool :=
  if isPresent (m.mem pd dirIndex) then (m, true)
  else
    match m.allocPage with
    | (m, newPtPhys) =>
      if newPtPhys = 0#32 then (m, false)
      else
        ((m.clearFrame (frameOf newPtPhys)).setWord pd dirIndex
          (newPtPhys ||| pagePresent ||| pageWrite ||| pageUser), true)

/-- A page table exists, cannot be allocated, or is created from a free frame. -/
theorem ensureTable_cases (m : Machine) (pd i : Nat) (hlimit : m.pmm.maxPage ≤ pmmMaxPages)
    (hzero : m.pmm.bitmap 0 = true) :
    isPresent (m.mem pd i) = true ∧ ensureTable m pd i = (m, true) ∨
    isPresent (m.mem pd i) = false ∧ ensureTable m pd i = (m, false) ∨
    ∃ f, isPresent (m.mem pd i) = false ∧ m.pmm.bitmap f = false ∧ f < m.pmm.maxPage ∧
      ensureTable m pd i =
        (((m.withPmm (m.pmm.take f)).clearFrame f).setWord pd i
          (frameAddr f ||| pagePresent ||| pageWrite ||| pageUser), true) := by
  unfold ensureTable
  cases hpres : isPresent (m.mem pd i) with
  | true => exact Or.inl ⟨rfl, rfl⟩
  | false =>
    rcases m.allocPage_cases with h | ⟨f, hclear, hf, h⟩
    · exact Or.inr (Or.inl ⟨rfl, by rw [h]; rfl⟩)
    · have hmax : f < 1048576 := lt_of_lt_of_le hf hlimit
      have hne : frameAddr f ≠ 0#32 := by
        rw [ne_eq, frameAddr_eq_zero_iff hmax]
        rintro rfl
        rw [hzero] at hclear
        cases hclear
      refine Or.inr (Or.inr ⟨f, rfl, hclear, hf, ?_⟩)
      rw [h]
      simp [hne, frameOf_frameAddr hmax]

end EnclaveOS
