import EnclaveOS.Memory.DirectMap
import EnclaveOS.Process.SyscallSpec
import EnclaveOS.Process.SystemBoot

/-!
# KernelRuns - the kernel half over runs of the kernel

The functions that change the kernel's tables or hand out frames, in any order:
address spaces come and go, kernel stacks too, processes fault in their memory, and
the kernel reads and writes its heap.
-/

namespace EnclaveOS

open PageWord

/-- The machine with its live directories, the frames obtained by demand paging of
the kernel heap, and the pages of the heap that the kernel has written. -/
structure KernelState where
  machine : Machine
  dirs : Finset Nat
  heapFrames : Finset Nat
  heapWritten : Finset Nat

def KernelState.setMachine (s : KernelState) (m : Machine) : KernelState := { s with machine := m }

inductive KernelOp
  | createAddressSpace
  | cloneAddressSpace (pd : Nat)
  | destroyAddressSpace (pd : Nat)
  | allocKernelStack
  | freeKernelStack (slot : Nat)
  /-- A fault at a user address, in a process with the areas `vmas`. -/
  | userFault (pd : Nat) (vmas : List Vma) (addr : Nat) (rw us : Bool)
  /-- A fault of the kernel in its heap. -/
  | heapFault (pd addr : Nat) (rw : Bool)
  | heapWrite (pd addr : Nat) (value : BitVec 8)

/-- A new address space, if memory sufficed. -/
def KernelState.newDir (s : KernelState) : Machine × Option Nat → KernelState
  | (m, none) => s.setMachine m
  | (m, some pd) => { s with machine := m, dirs := insert pd s.dirs }

def KernelOp.step (s : KernelState) : KernelOp → Option KernelState
  | .createAddressSpace => some (s.newDir (vmmCreateAddressSpace s.machine))
  | .cloneAddressSpace pd => some (s.newDir (vmmCloneAddressSpace s.machine pd))
  | .destroyAddressSpace pd =>
    some { s with machine := vmmDestroyAddressSpace s.machine pd, dirs := s.dirs.erase pd }
  | .allocKernelStack => (vmmAllocKernelStack s.machine).machine.map s.setMachine
  | .freeKernelStack slot =>
    some (s.setMachine (vmmFreeKernelStack s.machine (kernelStackTop slot)))
  | .userFault pd vmas addr rw us =>
    match cpuFault kernelCr0 s.machine pd addr rw us with
    | none => none
    | some code =>
      match pageFaultHandler s.machine (some ⟨some pd, vmas⟩) addr code with
      | (_, .halted) => none
      | (m, _) => some (s.setMachine m)
  | .heapFault pd addr rw =>
    match cpuFault kernelCr0 s.machine pd addr rw false with
    | none => none
    | some code =>
      match pageFaultHandler s.machine (some ⟨some pd, []⟩) addr code with
      | (m, .resumed) =>
        some { s with machine := m, heapFrames := insert (walkFrame m pd addr) s.heapFrames }
      | _ => none
  | .heapWrite pd addr value =>
    match cpuFault kernelCr0 s.machine pd addr true false with
    | some _ => none
    | none => some { s with
        machine := s.machine.storeBytes (walkFrame s.machine pd addr) (addr % 4096) [value]
        heapWritten := insert (pageDown addr) s.heapWritten }

/-- An address of the kernel heap, through a directory that can be loaded. -/
def KernelState.HeapAccess (s : KernelState) (pd addr : Nat) : Prop :=
  (pd ∈ s.dirs ∨ pd = s.machine.bootPageDirectory) ∧ kernelHeapVirt ≤ addr ∧ addr < kernelHeapEnd

/-- What the callers of the functions see to: directories are live, stacks are in use, and
there are fewer address spaces than a reference count can hold. -/
def KernelOp.Possible (s : KernelState) : KernelOp → Prop
  | .createAddressSpace | .allocKernelStack => True
  | .cloneAddressSpace pd => pd ∈ s.dirs ∧ s.dirs.card < 0xFFFF
  | .destroyAddressSpace pd => pd ∈ s.dirs
  | .freeKernelStack slot => slot < kernelStackSlots ∧ s.machine.kstackBitmap slot = true
  | .userFault pd _ addr _ _ => pd ∈ s.dirs ∧ addr < kernelSpaceStart
  | .heapFault pd addr _ | .heapWrite pd addr _ => s.HeapAccess pd addr

def KernelOp.WritesHeap : KernelOp → Prop
  | .heapWrite _ _ _ => True
  | _ => False

/-- The kernel before its first address space. -/
def KernelState.boot (image : BootImage) (info : BootInfo) (ram : Nat → Nat → Word) :
    Option KernelState :=
  (System.boot image info ram).map fun s => ⟨s.machine, ∅, ∅, ∅⟩

/-- The kernel half: its tables, its directory entries, and the heap window of the
direct map. -/
structure KernelInv (s : KernelState) (own : Nat → Owner) : Prop where
  inv : VmInv s.machine s.dirs own
  half : KernelHalf s.machine own (stacksInUse s.machine)
  dir : KernelDir s.machine 4
  window : ∀ p, 0x10000 ≤ p → p < 0x18000 →
    kernelPte s.machine (kernelSpaceStart + p * 4096) = frameAddr p ||| BootImage.bootFlags
  heapFrames : s.heapFrames = ∅

/-- The slots whose entries an operation may write. -/
def KernelOp.Touches (s : KernelState) : KernelOp → Nat → Prop
  | .allocKernelStack, slot => nextSlot s.machine = some slot
  | .freeKernelStack slot', slot => slot = slot'
  | _, _ => False

/-- What an operation other than a heap write keeps. -/
structure KernelKeeps (s : KernelState) (own : Nat → Owner) (touched : Nat → Prop)
    (s' : KernelState) (own' : Nat → Owner) : Prop where
  inv : VmInv s'.machine s'.dirs own'
  half : KernelHalf s'.machine own' (stacksInUse s'.machine)
  step : KernelStep s.machine own s'.machine own'
  direct : ∀ p < 131072, (∀ slot, touched slot → ∀ q ≤ 4, p ≠ slotFrame slot q) →
    kernelPte s'.machine (kernelSpaceStart + p * 4096) =
      kernelPte s.machine (kernelSpaceStart + p * 4096)
  slots : ∀ slot, s'.machine.kstackBitmap slot = true →
    s.machine.kstackBitmap slot = true ∨ touched slot
  touched_lt : ∀ slot, touched slot → slot < kernelStackSlots
  heapFrames : s'.heapFrames = s.heapFrames
  heapWritten : s'.heapWritten = s.heapWritten

theorem KernelStep.kernelDir {m m' : Machine} {own own' : Nat → Owner} {n : Nat}
    (h : KernelStep m own m' own') (hd : KernelDir m n) (hn : n ≤ 12) : KernelDir m' n := by
  refine ⟨?_, ?_, ?_, ?_, ?_⟩
  · rw [h.boot, h.bootMem]
    exact hd.direct
  · rw [h.boot, h.bootMem]
    exact hd.gap
  · rw [h.boot, h.bootMem]
    exact hd.fbFirst
  · intro i hi hi'
    obtain ⟨hpres, huser, hrow⟩ := hd.fbRest i hi hi'
    have htable : ∀ j, m'.pteAt m'.bootPageDirectory i j = m.pteAt m.bootPageDirectory i j := by
      intro j
      unfold Machine.pteAt
      rw [h.boot, h.bootMem, h.high i (by omega) (by omega) hpres]
    rw [h.boot, h.bootMem]
    refine ⟨hpres, huser, fun j hj => ?_⟩
    rw [← h.boot, htable j]
    exact hrow j hj
  · rw [h.boot, h.bootMem]
    exact hd.top

section Step

variable {s s' : KernelState} {own : Nat → Owner}

/-- An operation on user memory. -/
theorem KernelKeeps.ofFrame {own' : Nat → Owner} {touched : Nat → Prop} (h : KernelInv s own)
    (hinv : VmInv s'.machine s'.dirs own') (hk : KernelFrame s.machine own s'.machine own')
    (htouched : ∀ slot, ¬ touched slot) (hframes : s'.heapFrames = s.heapFrames)
    (hwritten : s'.heapWritten = s.heapWritten) : KernelKeeps s own touched s' own' where
  inv := hinv
  half := by
    rw [stacksInUse_congr hk.kstack]
    exact h.half.frame h.inv.boot hk
  step := hk.kernelStep h.inv.boot h.half
  direct p hp _ := by
    obtain ⟨hlo, hhi⟩ := direct_index hp
    exact h.half.kernelPte_frame h.inv.boot hk hlo hhi
  slots slot hbit := Or.inl (by rwa [hk.kstack] at hbit)
  touched_lt slot hslot := absurd hslot (htouched slot)
  heapFrames := hframes
  heapWritten := hwritten

/-- The entry of a heap address, the same in every directory. -/
theorem KernelInv.heapEntry (h : KernelInv s own) {pd addr : Nat} (hheap : s.HeapAccess pd addr) :
    s.machine.mem pd (dirIndex addr) =
        s.machine.mem s.machine.bootPageDirectory (dirIndex addr) ∧
      isPresent (s.machine.mem pd (dirIndex addr)) = true ∧
      s.machine.pteAt pd (dirIndex addr) (tableIndex addr) =
        frameAddr (0x10000 + (addr - kernelHeapVirt) / 4096) ||| BootImage.bootFlags := by
  obtain ⟨hpd, hlo, hhi⟩ := hheap
  unfold kernelHeapEnd kernelHeapSize at hhi
  unfold kernelHeapVirt at hlo hhi ⊢
  have hpage := h.window (0x10000 + (addr - 0xD0000000) / 4096) (by omega) (by omega)
  have hdir : dirIndex (kernelSpaceStart + (0x10000 + (addr - 0xD0000000) / 4096) * 4096) =
      dirIndex addr := by
    unfold dirIndex kernelSpaceStart
    omega
  have htable : tableIndex (kernelSpaceStart + (0x10000 + (addr - 0xD0000000) / 4096) * 4096) =
      tableIndex addr := by
    unfold tableIndex kernelSpaceStart
    omega
  have hi : 768 ≤ dirIndex addr ∧ dirIndex addr < 896 := by
    unfold dirIndex
    omega
  have hsame : s.machine.mem pd (dirIndex addr) =
      s.machine.mem s.machine.bootPageDirectory (dirIndex addr) := by
    rcases hpd with hpd | rfl
    · exact h.inv.kernelHalf pd hpd _ hi.1 (by omega)
    · rfl
  refine ⟨hsame, ?_, ?_⟩
  · rw [hsame]
    exact h.half.direct _ hi.1 hi.2
  · unfold kernelPte at hpage
    rw [hdir, htable] at hpage
    unfold Machine.pteAt at hpage ⊢
    rw [hsame, hpage]

/-- The kernel never faults in its heap: the direct map has a page at every address. -/
theorem KernelInv.heap_no_fault (h : KernelInv s own) {pd addr : Nat}
    (hheap : s.HeapAccess pd addr) (rw : Bool) :
    cpuFault kernelCr0 s.machine pd addr rw false = none := by
  obtain ⟨-, hpde, hpte⟩ := h.heapEntry hheap
  have hmapped : isMapped s.machine pd addr = true := by
    rw [isMapped_iff, hpte]
    exact ⟨hpde, kernelMapFlags.mapped _⟩
  have hwp : hasFlag kernelCr0 cr0Wp = false := by decide
  unfold cpuFault
  rw [hmapped, hwp]
  simp

/-- A new kernel stack. -/
theorem KernelInv.allocKernelStack (h : KernelInv s own) {m : Machine}
    (hm : (vmmAllocKernelStack s.machine).machine = some m) :
    ∃ own', KernelKeeps s own (fun slot => nextSlot s.machine = some slot) (s.setMachine m)
      own' := by
  have hdirect : ∀ p < 131072, (∀ slot, nextSlot s.machine = some slot →
      ∀ q ≤ 4, p ≠ slotFrame slot q) →
      kernelPte m (kernelSpaceStart + p * 4096) =
        kernelPte s.machine (kernelSpaceStart + p * 4096) := by
    intro p hp hout
    rcases vmmAllocKernelStack_writes h.half.directTables hm with rfl | ⟨slot, hnext, hslot⟩
    · rfl
    · exact hslot.kernelPte_eq h.half.directTables (nextSlot_lt hnext) hp (hout slot hnext)
  rcases vmmAllocKernelStack_spec h.inv h.half with
    ⟨m', own', slot, hres, -, -, hbits, hinv, hhalf, hk⟩ | ⟨m', own', hres, hbits, hinv, hhalf, hk⟩
  · rw [hres] at hm
    cases hm
    obtain ⟨slot₀, hnext, htop⟩ := vmmAllocKernelStack_top hres
    obtain rfl := kernelStackTop_inj htop
    refine ⟨own', hinv, hhalf, hk, hdirect, ?_, fun _ => nextSlot_lt, rfl, rfl⟩
    intro slot' hbit
    change m.kstackBitmap slot' = true at hbit
    rw [hbits, Function.update_apply] at hbit
    split_ifs at hbit with hsame
    · rw [hsame]
      exact Or.inr hnext
    · exact Or.inl hbit
  · rw [hres] at hm
    cases hm
    exact ⟨own', hinv, hhalf, hk, hdirect, fun slot hbit => Or.inl ((congrFun hbits slot) ▸ hbit),
      fun _ => nextSlot_lt, rfl, rfl⟩

/-- A kernel stack that is given back. -/
theorem KernelKeeps.ofFree {m : Machine} {own' : Nat → Owner} {slot : Nat} (h : KernelInv s own)
    (hslot : slot < kernelStackSlots) (hwrites : SlotWrites slot s.machine m)
    (hbits : m.kstackBitmap = Function.update s.machine.kstackBitmap slot false)
    (hinv : VmInv m s.dirs own') (hhalf : KernelHalf m own' (stacksInUse m))
    (hk : KernelStep s.machine own m own') :
    KernelKeeps s own (fun slot' => slot' = slot) (s.setMachine m) own' where
  inv := hinv
  half := hhalf
  step := hk
  direct p hp hout := hwrites.kernelPte_eq h.half.directTables hslot hp (hout slot rfl)
  slots slot' hbit := by
    change m.kstackBitmap slot' = true at hbit
    rw [hbits, Function.update_apply] at hbit
    split_ifs at hbit
    exact Or.inl hbit
  touched_lt slot' hsame := by
    rw [hsame]
    exact hslot
  heapFrames := rfl
  heapWritten := rfl

theorem KernelInv.freeKernelStack (h : KernelInv s own) {slot : Nat}
    (hslot : slot < kernelStackSlots) (hused : s.machine.kstackBitmap slot = true) :
    ∃ own', KernelKeeps s own (fun slot' => slot' = slot)
      (s.setMachine (vmmFreeKernelStack s.machine (kernelStackTop slot))) own' := by
  obtain ⟨hbits, own', hinv, hhalf, hk⟩ := vmmFreeKernelStack_spec h.inv h.half hslot hused
  exact ⟨own', .ofFree h hslot (vmmFreeKernelStack_writes h.half.directTables hslot) hbits hinv
    hhalf hk⟩

/-- Every operation keeps the kernel half, except for the entries of the slots it
touches; a write to the heap may change anything. -/
theorem KernelInv.step_keeps (h : KernelInv s own) {op : KernelOp} (hpossible : op.Possible s)
    (hquiet : ¬ op.WritesHeap) (hstep : op.step s = some s') :
    ∃ own', KernelKeeps s own (op.Touches s) s' own' := by
  cases op with
  | createAddressSpace =>
    cases hstep
    rcases h.inv.vmmCreateAddressSpace with hnone | ⟨m, n, own', hsome, -, hinv, hk, -⟩
    · rw [hnone]
      exact ⟨own, .ofFrame h h.inv (.refl _ own) (fun _ => id) rfl rfl⟩
    · rw [hsome]
      exact ⟨own', .ofFrame h hinv hk (fun _ => id) rfl rfl⟩
  | cloneAddressSpace pd =>
    cases hstep
    obtain ⟨hpd, hcard⟩ := hpossible
    rcases h.inv.vmmCloneAddressSpace hpd fun i hi j hj f hf =>
        refcount_lt h.inv hcard hpd hi hj hf with
      ⟨m, own', hnone, hinv, hk⟩ | ⟨m, n, own', hsome, -, hinv, hk⟩
    · rw [hnone]
      exact ⟨own', .ofFrame h hinv hk (fun _ => id) rfl rfl⟩
    · rw [hsome]
      exact ⟨own', .ofFrame h hinv hk (fun _ => id) rfl rfl⟩
  | destroyAddressSpace pd =>
    cases hstep
    obtain ⟨own', hinv, hk⟩ := h.inv.vmmDestroyAddressSpace hpossible
    exact ⟨own', .ofFrame h hinv hk (fun _ => id) rfl rfl⟩
  | allocKernelStack =>
    simp only [KernelOp.step, Option.map_eq_some_iff] at hstep
    obtain ⟨m, hm, rfl⟩ := hstep
    exact h.allocKernelStack hm
  | freeKernelStack slot =>
    cases hstep
    exact h.freeKernelStack hpossible.1 hpossible.2
  | userFault pd vmas addr rw us =>
    obtain ⟨hpd, haddr⟩ := hpossible
    simp only [KernelOp.step] at hstep
    rcases hcode : cpuFault kernelCr0 s.machine pd addr rw us with _ | code
    · rw [hcode] at hstep
      cases hstep
    · rw [hcode] at hstep
      obtain ⟨own', hfault⟩ := @VmInv.pageFaultHandler _ _ _ _ h.inv ⟨some pd, vmas⟩ _ _ hpd rfl
        haddr (siteEntry_of_fault hcode)
      have hmachine : s' = s.setMachine
          (pageFaultHandler s.machine (some ⟨some pd, vmas⟩) addr code).1 := by
        dsimp only at hstep
        rcases hres : pageFaultHandler s.machine (some ⟨some pd, vmas⟩) addr code with ⟨m, outcome⟩
        rw [hres] at hstep
        cases outcome with
        | resumed =>
          cases hstep
          rfl
        | killed reason =>
          cases hstep
          rfl
        | halted => cases hstep
      subst hmachine
      exact ⟨own', .ofFrame h hfault.inv hfault.kernel (fun _ => id) rfl rfl⟩
  | heapFault pd addr rw =>
    simp only [KernelOp.step] at hstep
    rw [h.heap_no_fault hpossible rw] at hstep
    cases hstep
  | heapWrite pd addr value => exact absurd trivial hquiet

/-- What an operation keeps includes the invariant. -/
theorem KernelKeeps.kernelInv {own' : Nat → Owner} {touched : Nat → Prop}
    (h : KernelKeeps s own touched s' own') (hs : KernelInv s own) : KernelInv s' own' where
  inv := h.inv
  half := h.half
  dir := h.step.kernelDir hs.dir (by decide)
  window p hlo hhi := by
    rw [h.direct p (by omega), hs.window p hlo hhi]
    intro slot hslot q hq
    have hlt := h.touched_lt slot hslot
    have hslots : kernelStackSlots = 819 := by decide
    unfold slotFrame
    omega
  heapFrames := h.heapFrames.trans hs.heapFrames

end Step

section Boot

variable {image : BootImage} {info : BootInfo} {ram : Nat → Nat → Word} {s₀ s : KernelState}

theorem KernelState.boot_inv (hboot : KernelState.boot image info ram = some s₀) :
    s₀.dirs = ∅ ∧ s₀.heapWritten = ∅ ∧ (∀ slot, s₀.machine.kstackBitmap slot = false) ∧
      DirectMap s₀.machine ∧ ∃ own, KernelInv s₀ own ∧
        ∀ f, own f = .free ∨ own f = .kernel .reserved ∨ own f = .kernel .pcb := by
  unfold KernelState.boot at hboot
  obtain ⟨t, ht, rfl⟩ := Option.map_eq_some_iff.mp hboot
  obtain ⟨own, h⟩ := System.boot_inv ht
  refine ⟨rfl, rfl, h.slots, h.direct, own, ⟨h.sys.inv, h.sys.half, h.dir, ?_, rfl⟩, h.plain⟩
  intro p _ hhi
  exact h.direct p (by omega)

/-- The operations of a kernel whose heap is not written. -/
def KernelOp.Quiet (s : KernelState) (op : KernelOp) : Prop := op.Possible s ∧ ¬ op.WritesHeap

/-- The invariant of the states reached without a write to the heap. -/
theorem KernelInv.run (hboot : KernelState.boot image info ram = some s₀)
    (hrun : Reach KernelOp.step (fun s op => op.Quiet s) s₀ s) :
    s.heapWritten = ∅ ∧ ∃ own, KernelInv s own := by
  obtain ⟨-, hwritten, -, -, own, hstart, -⟩ := KernelState.boot_inv hboot
  refine hrun.invariant (P := fun s => s.heapWritten = ∅ ∧ ∃ own, KernelInv s own)
    ⟨hwritten, own, hstart⟩ ?_
  rintro s op s' ⟨hempty, own, hinv⟩ ⟨hpossible, hquiet⟩ hstep
  obtain ⟨own', hkeeps⟩ := hinv.step_keeps hpossible hquiet hstep
  exact ⟨hkeeps.heapWritten.trans hempty, own', hkeeps.kernelInv hinv⟩

end Boot

/-- Both levels of the walk are present and have `PAGE_USER`. -/
def userAccessible (m : Machine) (pd virt : Nat) : Bool :=
  isMapped m pd virt && walkFlag m pd virt pageUser

/-- The part of the framebuffer whose tables `vmm_map_page` created. -/
def LazyFramebuffer (virt : Nat) : Prop := 0xFD400000 ≤ virt ∧ virt < 0xFE000000

/-- Ring 3 can access the framebuffer from its second table on, and nothing else of the
kernel half. -/
theorem KernelInv.userAccessible_iff {s : KernelState} {own : Nat → Owner} (h : KernelInv s own)
    {pd virt : Nat} (hpd : pd ∈ s.dirs ∨ pd = s.machine.bootPageDirectory)
    (hlo : kernelSpaceStart ≤ virt) (hhi : virt < 4294967296) :
    userAccessible s.machine pd virt = true ↔ LazyFramebuffer virt := by
  have hi : 768 ≤ dirIndex virt ∧ dirIndex virt < 1024 := by
    unfold dirIndex
    unfold kernelSpaceStart at hlo
    omega
  have hsame : s.machine.mem pd (dirIndex virt) =
      s.machine.mem s.machine.bootPageDirectory (dirIndex virt) := by
    rcases hpd with hpd | rfl
    · exact h.inv.kernelHalf pd hpd _ hi.1 hi.2
    · rfl
  have hfb : LazyFramebuffer virt ↔ 1013 ≤ dirIndex virt ∧ dirIndex virt < 1016 := by
    unfold LazyFramebuffer dirIndex
    omega
  -- a directory entry that is absent or lacks the flag closes all its pages
  have hclosed : (isPresent (s.machine.mem s.machine.bootPageDirectory (dirIndex virt)) &&
      hasFlag (s.machine.mem s.machine.bootPageDirectory (dirIndex virt)) pageUser) = false →
      userAccessible s.machine pd virt = false := by
    intro hentry
    unfold userAccessible isMapped walkFlag
    rw [hsame]
    rw [Bool.and_eq_false_iff] at hentry
    rcases hentry with hentry | hentry
    · rw [hentry, Bool.false_and, Bool.false_and]
    · rw [hentry, Bool.false_and, Bool.and_false]
  rw [hfb]
  by_cases hrest : 1013 ≤ dirIndex virt ∧ dirIndex virt < 1016
  · obtain ⟨hpres, huser, hrow⟩ := h.dir.fbRest (dirIndex virt) hrest.1 hrest.2
    obtain ⟨hpte, hpteUser⟩ := hrow (tableIndex virt) (tableIndex_lt virt)
    have hentry : s.machine.pteAt pd (dirIndex virt) (tableIndex virt) =
        s.machine.pteAt s.machine.bootPageDirectory (dirIndex virt) (tableIndex virt) := by
      unfold Machine.pteAt
      rw [hsame]
    unfold userAccessible isMapped walkFlag
    rw [hsame, hentry, hpres, huser, hpte, hpteUser]
    exact ⟨fun _ => hrest, fun _ => rfl⟩
  · have hfalse : userAccessible s.machine pd virt = false := by
      apply hclosed
      by_cases hdirect : dirIndex virt < 896
      · rw [h.dir.direct _ hi.1 hdirect, Bool.and_false]
      by_cases hgap : dirIndex virt < 1012
      · rw [h.dir.gap _ (by omega) hgap, Bool.false_and]
      by_cases hfirst : dirIndex virt = 1012
      · rw [hfirst, h.dir.fbFirst.2, Bool.and_false]
      · rw [h.dir.top _ (by omega) (by omega) hi.2, Bool.false_and]
    rw [hfalse]
    exact ⟨fun hno => (Bool.false_ne_true hno).elim, fun hyes => absurd hyes hrest⟩

/-- In every state reached, a kernel address is closed to Ring 3 unless it lies in the
part of the framebuffer whose tables were created on demand. -/
theorem kernel_half_access {image : BootImage} {info : BootInfo} {ram : Nat → Nat → Word}
    {s₀ s : KernelState} (hboot : KernelState.boot image info ram = some s₀)
    (hrun : Reach KernelOp.step (fun s op => op.Quiet s) s₀ s) {pd virt : Nat}
    (hpd : pd ∈ s.dirs ∨ pd = s.machine.bootPageDirectory) (hlo : kernelSpaceStart ≤ virt)
    (hhi : virt < 4294967296) :
    userAccessible s.machine pd virt = false ↔ ¬ LazyFramebuffer virt := by
  obtain ⟨-, own, hinv⟩ := KernelInv.run hboot hrun
  rw [← hinv.userAccessible_iff hpd hlo hhi, Bool.not_eq_true]

/-- The small machine creates its first address space. -/
theorem smallSpace : ∃ s₀ s pd, KernelState.boot smallImage smallInfo (fun _ _ => 0#32) = some s₀ ∧
    KernelOp.step s₀ .createAddressSpace = some s ∧
    Reach KernelOp.step (fun s op => op.Quiet s) s₀ s ∧ pd ∈ s.dirs := by
  obtain ⟨t₀, t, hboot, hstep, -⟩ := smallInit_rw
  simp only [SysOp.step] at hstep
  rcases hcreate : vmmCreateAddressSpace t₀.machine with ⟨m, _ | pd⟩
  · unfold startInit at hstep
    rw [hcreate] at hstep
    cases hstep
  · have hquiet : KernelOp.createAddressSpace.Quiet ⟨t₀.machine, ∅, ∅, ∅⟩ := ⟨trivial, id⟩
    refine ⟨⟨t₀.machine, ∅, ∅, ∅⟩, _, pd, ?_, rfl, .next .start hquiet rfl, ?_⟩
    · unfold KernelState.boot
      rw [hboot]
      rfl
    · rw [hcreate]
      exact Finset.mem_singleton_self pd

/-- The kernel code and the framebuffer of the small machine. -/
theorem kernel_half_access_sample :
    ∃ (s : KernelState) (pd : Nat), pd ∈ s.dirs ∧
      userAccessible s.machine pd 0xC0100000 = false ∧
      userAccessible s.machine pd 0xFD400000 ≠ false := by
  obtain ⟨s₀, s, pd, hboot, -, hrun, hmem⟩ := smallSpace
  refine ⟨s, pd, hmem, ?_, ?_⟩
  · exact (kernel_half_access hboot hrun (Or.inl hmem) (by decide) (by decide)).mpr
      (by unfold LazyFramebuffer; omega)
  · intro hclosed
    exact (kernel_half_access hboot hrun (Or.inl hmem) (by decide) (by decide)).mp hclosed
      ⟨by decide, by decide⟩

/-- The second table of the framebuffer is open to the first address space. -/
theorem framebuffer_open_to_users : ¬ ∀ (image : BootImage) (info : BootInfo)
    (ram : Nat → Nat → Word) (s₀ s : KernelState) (pd virt : Nat),
    KernelState.boot image info ram = some s₀ →
    Reach KernelOp.step (fun s op => op.Quiet s) s₀ s → pd ∈ s.dirs →
    kernelSpaceStart ≤ virt → virt < 4294967296 → userAccessible s.machine pd virt = false := by
  intro hall
  obtain ⟨s₀, s, pd, hboot, -, hrun, hmem⟩ := smallSpace
  obtain ⟨-, own, hinv⟩ := KernelInv.run hboot hrun
  have hopen : userAccessible s.machine pd 0xFD400000 = true :=
    (hinv.userAccessible_iff (Or.inl hmem) (by decide) (by decide)).mpr ⟨by decide, by decide⟩
  rw [hall _ _ _ s₀ s pd 0xFD400000 hboot hrun hmem (by decide) (by decide)] at hopen
  cases hopen

/-- A frame that `pmm_alloc_page` can return. -/
def Returnable (m : Machine) (f : Nat) : Prop := f < m.pmm.maxPage ∧ m.pmm.bitmap f = false

/-- The kernel tables map `PHYS_TO_VIRT` of every frame the allocator can return to
that frame. -/
def PhysToVirtFaithful (m : Machine) : Prop :=
  ∀ f, Returnable m f → isMapped m m.bootPageDirectory (physToVirt f) = true ∧
    walkFrame m m.bootPageDirectory (physToVirt f) = f

/-- A stack is built over frames that the allocator never returned. -/
def KernelOp.SparesRam (s₀ s : KernelState) : KernelOp → Prop
  | .allocKernelStack => ∀ slot, nextSlot s.machine = some slot →
      ∀ q ≤ 4, ¬ Returnable s₀.machine (slotFrame slot q)
  | _ => True

/-- Stacks have been built only over frames beyond the pool of `s₀`. -/
structure FaithfulInv (s₀ s : KernelState) (own : Nat → Owner) : Prop where
  kernel : KernelInv s own
  direct : ∀ f < 131072, Returnable s₀.machine f →
    kernelPte s.machine (kernelSpaceStart + f * 4096) = frameAddr f ||| BootImage.bootFlags
  slots : ∀ slot, s.machine.kstackBitmap slot = true →
    ∀ q ≤ 4, ¬ Returnable s₀.machine (slotFrame slot q)
  fixed : ∀ f, ¬ Returnable s₀.machine f → own f = .kernel .reserved ∨ own f = .kernel .pcb

namespace FaithfulInv

variable {image : BootImage} {info : BootInfo} {ram : Nat → Nat → Word} {s₀ s s' : KernelState}
  {own : Nat → Owner}

theorem boot (hboot : KernelState.boot image info ram = some s₀) :
    ∃ own, FaithfulInv s₀ s₀ own := by
  obtain ⟨-, -, hslots, hdirect, own, hinv, hplain⟩ := KernelState.boot_inv hboot
  refine ⟨own, hinv, fun f hf _ => hdirect f hf, ?_, ?_⟩
  · intro slot hbit
    rw [hslots slot] at hbit
    cases hbit
  · intro f hf
    rcases hplain f with hfree | hown
    · have hlimit : f < s₀.machine.pmm.maxPage := hinv.inv.lt_limit (by rw [hfree]; rintro use ⟨⟩)
      exact absurd ⟨hlimit, (hinv.inv.free_iff f hlimit).mp hfree⟩ hf
    · exact hown

theorem step (h : FaithfulInv s₀ s own) {op : KernelOp} (hquiet : op.Quiet s)
    (hspares : op.SparesRam s₀ s) (hstep : op.step s = some s') :
    ∃ own', FaithfulInv s₀ s' own' := by
  obtain ⟨own', hkeeps⟩ := h.kernel.step_keeps hquiet.1 hquiet.2 hstep
  have htouched : ∀ slot, op.Touches s slot →
      ∀ q ≤ 4, ¬ Returnable s₀.machine (slotFrame slot q) := by
    intro slot hslot
    cases op with
    | allocKernelStack => exact hspares slot hslot
    | freeKernelStack slot' =>
      obtain rfl : slot = slot' := hslot
      exact h.slots slot hquiet.1.2
    | _ => exact hslot.elim
  refine ⟨own', hkeeps.kernelInv h.kernel, ?_, ?_, ?_⟩
  · intro f hf hret
    rw [hkeeps.direct f hf]
    · exact h.direct f hf hret
    · rintro slot hslot q hq rfl
      exact htouched slot hslot q hq hret
  · intro slot hbit
    rcases hkeeps.slots slot hbit with hold | hnew
    · exact h.slots slot hold
    · exact htouched slot hnew
  · intro f hf
    exact (h.fixed f hf).imp (hkeeps.step.reserved f) (hkeeps.step.pcb f)

/-- The direct map is whole over the frames in the pool. -/
theorem faithful (h : FaithfulInv s₀ s own) (hram : ∀ f, Returnable s₀.machine f → f < 131072) :
    PhysToVirtFaithful s.machine := by
  intro f hf
  have hfree : own f = .free := (h.kernel.inv.free_iff f hf.1).mpr hf.2
  have hret : Returnable s₀.machine f := by
    by_contra hnot
    rcases h.fixed f hnot with hown | hown
    · rw [hown] at hfree
      cases hfree
    · rw [hown] at hfree
      cases hfree
  have hlt := hram f hret
  have hmax : f < 1048576 := by omega
  have hpte := h.direct f hlt hret
  obtain ⟨hlo, hhi⟩ := direct_index hlt
  unfold kernelPte at hpte
  rw [physToVirt_eq hlt, isMapped_iff, walkFrame, hpte]
  exact ⟨⟨h.kernel.half.direct _ hlo hhi, kernelMapFlags.mapped _⟩, kernelMapFlags.frame hmax⟩

end FaithfulInv

/-- `PHYS_TO_VIRT` is faithful in every state reached, when no frame of the pool lies
beyond the direct map and no stack is built over one. -/
theorem phys_to_virt_faithful {image : BootImage} {info : BootInfo} {ram : Nat → Nat → Word}
    {s₀ s : KernelState} (hboot : KernelState.boot image info ram = some s₀)
    (hram : ∀ f, Returnable s₀.machine f → f < 131072)
    (hrun : Reach KernelOp.step (fun s op => op.Quiet s ∧ op.SparesRam s₀ s) s₀ s) :
    PhysToVirtFaithful s.machine := by
  have hinv : ∃ own, FaithfulInv s₀ s own := by
    refine hrun.invariant (P := fun s => ∃ own, FaithfulInv s₀ s own) (FaithfulInv.boot hboot) ?_
    rintro s op s' ⟨own, h⟩ ⟨hquiet, hspares⟩ hstep
    exact h.step hquiet hspares hstep
  obtain ⟨own, h⟩ := hinv
  exact h.faithful hram

/-- 31 MB of memory from 1 MB on, and nothing else. -/
def tinyInfo : BootInfo := ⟨some [⟨0x00100000, 0x01F00000, 1⟩], none, [], 0x00100000, 0x00400000⟩

theorem tinyBoot : ∃ s, System.boot smallImage tinyInfo (fun _ _ => 0#32) = some s ∧
    s.machine.pmm.maxPage = 8192 := by
  have hrun : ((((List.range' 0 4).foldlM fillFb (reservedMachine smallImage tinyInfo
      (fun _ _ => 0#32))).bind taskingInit).any fun m => decide (m.pmm.maxPage = 8192)) = true := by
    decide +kernel
  obtain ⟨m, hm, hmax⟩ := (Option.any_eq_true _ _).mp hrun
  rw [decide_eq_true_eq] at hmax
  refine ⟨⟨m, fun _ => none⟩, ?_, hmax⟩
  unfold System.boot
  rw [kernelBoot_eq]
  obtain ⟨m₀, hm₀, htasking⟩ := Option.bind_eq_some_iff.mp hm
  rw [hm₀]
  change (taskingInit m₀).bind _ = _
  rw [htasking]
  rfl

/-- A machine with 32 MB of memory, after its first kernel stack. -/
theorem phys_to_virt_faithful_sample : ∃ s₀ s : KernelState,
    KernelOp.step s₀ .allocKernelStack = some s ∧ PhysToVirtFaithful s.machine := by
  obtain ⟨t, ht, hmax⟩ := tinyBoot
  have hboot : KernelState.boot smallImage tinyInfo (fun _ _ => 0#32) =
      some ⟨t.machine, ∅, ∅, ∅⟩ := by
    unfold KernelState.boot
    rw [ht]
    rfl
  have hram : ∀ f, Returnable t.machine f → f < 131072 := by
    rintro f ⟨hf, -⟩
    omega
  obtain ⟨-, -, -, -, own, hinv, -⟩ := KernelState.boot_inv hboot
  obtain ⟨m, hm⟩ : ∃ m, (vmmAllocKernelStack t.machine).machine = some m := by
    rcases vmmAllocKernelStack_spec hinv.inv hinv.half with
      ⟨m, -, slot, hres, -⟩ | ⟨m, -, hres, -⟩
    · exact ⟨m, congrArg KstackResult.machine hres⟩
    · exact ⟨m, congrArg KstackResult.machine hres⟩
  have hstep : KernelOp.step ⟨t.machine, ∅, ∅, ∅⟩ .allocKernelStack = some ⟨m, ∅, ∅, ∅⟩ := by
    simp only [KernelOp.step]
    rw [hm]
    rfl
  have hspares : KernelOp.allocKernelStack.SparesRam ⟨t.machine, ∅, ∅, ∅⟩ ⟨t.machine, ∅, ∅, ∅⟩ := by
    rintro slot - q - ⟨hlt, -⟩
    unfold slotFrame at hlt
    change 32768 + slot * 5 + q < t.machine.pmm.maxPage at hlt
    omega
  have hquiet : KernelOp.allocKernelStack.Quiet ⟨t.machine, ∅, ∅, ∅⟩ := ⟨trivial, id⟩
  exact ⟨_, _, hstep, phys_to_virt_faithful hboot hram (.next .start ⟨hquiet, hspares⟩ hstep)⟩

theorem smallBoot_pool : ∃ s, System.boot smallImage smallInfo (fun _ _ => 0#32) = some s ∧
    Returnable s.machine 131072 := by
  have hrun : smallBoot.any (fun s => decide (131072 < s.machine.pmm.maxPage ∧
      s.machine.pmm.bitmap 131072 = false)) = true := by decide +kernel
  obtain ⟨s, hs, hfree⟩ := (Option.any_eq_true _ _).mp hrun
  rw [decide_eq_true_eq] at hfree
  exact ⟨s, System.boot_small.trans hs, hfree⟩

/-- The frame at 512 MB has no kernel address. -/
theorem frame_beyond_direct_map : ¬ ∀ (image : BootImage) (info : BootInfo)
    (ram : Nat → Nat → Word) (s₀ s : KernelState), KernelState.boot image info ram = some s₀ →
    Reach KernelOp.step (fun s op => op.Quiet s) s₀ s → PhysToVirtFaithful s.machine := by
  intro hall
  obtain ⟨t, ht, hfree⟩ := smallBoot_pool
  have hboot : KernelState.boot smallImage smallInfo (fun _ _ => 0#32) =
      some ⟨t.machine, ∅, ∅, ∅⟩ := by
    unfold KernelState.boot
    rw [ht]
    rfl
  obtain ⟨-, -, -, -, own, hinv, -⟩ := KernelState.boot_inv hboot
  have hmapped := (hall _ _ _ _ _ hboot .start 131072 hfree).1
  have habsent := hinv.dir.gap 896 le_rfl (by omega)
  rw [isMapped_iff] at hmapped
  have hpde := hmapped.1
  rw [show dirIndex (physToVirt 131072) = 896 from rfl, habsent] at hpde
  cases hpde

/-- Every page of the heap that was written has a frame that demand paging of the heap
obtained. -/
def HeapExclusive (s : KernelState) : Prop :=
  ∀ page ∈ s.heapWritten, walkFrame s.machine s.machine.bootPageDirectory page ∈ s.heapFrames

/-- The heap owns the frames of the pages that were written until the kernel writes
the first page. -/
theorem heap_exclusive {image : BootImage} {info : BootInfo} {ram : Nat → Nat → Word}
    {s₀ s s' : KernelState} (hboot : KernelState.boot image info ram = some s₀)
    (hrun : Reach KernelOp.step (fun s op => op.Quiet s) s₀ s) {op : KernelOp}
    (hpossible : op.Possible s) (hstep : op.step s = some s') :
    HeapExclusive s' ↔ ¬ op.WritesHeap := by
  obtain ⟨hwritten, own, hinv⟩ := KernelInv.run hboot hrun
  by_cases hquiet : op.WritesHeap
  · refine iff_of_false ?_ (not_not_intro hquiet)
    intro hexclusive
    cases op with
    | heapWrite pd addr value =>
      simp only [KernelOp.step] at hstep
      rw [hinv.heap_no_fault hpossible] at hstep
      cases hstep
      have hframe := hexclusive (pageDown addr) (Finset.mem_insert_self _ _)
      rw [show KernelState.heapFrames _ = s.heapFrames from rfl, hinv.heapFrames] at hframe
      exact absurd hframe (Finset.notMem_empty _)
    | _ => exact hquiet
  · refine iff_of_true ?_ hquiet
    obtain ⟨own', hkeeps⟩ := hinv.step_keeps hpossible hquiet hstep
    intro page hpage
    rw [hkeeps.heapWritten, hwritten] at hpage
    exact absurd hpage (Finset.notMem_empty _)

/-- The first address space of the small machine, before any write to the heap. -/
theorem heap_exclusive_sample : ∃ s : KernelState, s.dirs ≠ ∅ ∧ HeapExclusive s := by
  obtain ⟨s₀, s, pd, hboot, hstep, -, hmem⟩ := smallSpace
  have hcreate : KernelOp.createAddressSpace.Possible s₀ := trivial
  exact ⟨s, Finset.ne_empty_of_mem hmem, (heap_exclusive hboot .start hcreate hstep).mpr id⟩

/-- The small machine writes the first word of its heap. -/
theorem heap_page_not_owned : ¬ ∀ (image : BootImage) (info : BootInfo)
    (ram : Nat → Nat → Word) (s₀ s : KernelState), KernelState.boot image info ram = some s₀ →
    Reach KernelOp.step (fun s op => op.Possible s) s₀ s → HeapExclusive s := by
  intro hall
  obtain ⟨s₀, s, pd, hboot, hstep, hreach, hmem⟩ := smallSpace
  obtain ⟨-, own, hinv⟩ := KernelInv.run hboot hreach
  have hheap : s.HeapAccess pd kernelHeapVirt := ⟨Or.inl hmem, le_rfl, by decide⟩
  have hwrite : ∃ s', KernelOp.step s (.heapWrite pd kernelHeapVirt 1#8) = some s' ∧
      kernelHeapVirt ∈ s'.heapWritten ∧ s'.heapFrames = s.heapFrames := by
    simp only [KernelOp.step]
    rw [hinv.heap_no_fault hheap]
    exact ⟨_, rfl, Finset.mem_insert_self _ _, rfl⟩
  obtain ⟨s', hstep', hwritten, hframes⟩ := hwrite
  have hrun : Reach KernelOp.step (fun s op => op.Possible s) s₀ s' :=
    .next (hreach.mono fun _ _ hop => hop.1) (i := .heapWrite pd kernelHeapVirt 1#8) hheap hstep'
  have hframe := hall _ _ _ s₀ s' hboot hrun kernelHeapVirt hwritten
  rw [hframes, hinv.heapFrames] at hframe
  exact absurd hframe (Finset.notMem_empty _)

end EnclaveOS
