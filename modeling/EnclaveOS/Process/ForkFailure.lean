import EnclaveOS.Fs.Vfs
import EnclaveOS.Memory.KernelStackSpec
import EnclaveOS.Process.ForkIsolation
import EnclaveOS.Process.MappingCalls
import EnclaveOS.Process.PoolRuns
import EnclaveOS.Process.Scheduler
import EnclaveOS.Process.SpaceSteps

/-!
# ForkFailure - a fork that runs out of memory

The whole of `task_fork`: the machine, the counters of the kernel heap, the tasks and the
open files.  Each of its exits with an error gives back by hand what was taken before it.
Pages are taken up to a point and given back from there, so an allocator that has its
bitmap again has its reference counts too.
-/

namespace EnclaveOS

open PageWord

/-- `heap_total_allocs` and `heap_total_frees`. -/
structure HeapCounts where
  allocs : Word
  frees : Word

namespace HeapCounts

/-- A `kmalloc` that returned a block. -/
def kmalloc (h : HeapCounts) : HeapCounts := { h with allocs := h.allocs + 1#32 }

/-- A `kfree` of a block. -/
def kfree (h : HeapCounts) : HeapCounts := { h with frees := h.frees + 1#32 }

/-- `heap_check_balance`. -/
def balance (h : HeapCounts) : Int := (h.allocs - h.frees).toInt

end HeapCounts

/-- `vma_destroy_all`, which frees every node. -/
def vmaDestroyAll (vmas : List Vma) (h : HeapCounts) : HeapCounts :=
  vmas.foldl (fun h _ => h.kfree) h

/-- The loop of `vma_clone` with the counters; `vma_add` calls `kmalloc` last, so
that it succeeds exactly when it took a block. -/
def vmaCloneCountedFrom : List Vma → List Vma → HeapCounts → Kmalloc → List Vma × Int × HeapCounts
  | child, [], h, _ => (child, 0, h)
  | child, current :: rest, h, k =>
    match vmaAdd child current.start current.end current.flags k with
    | (child', ret, k) =>
      if ret < 0 then ([], -eNoMem, vmaDestroyAll child' h)
      else vmaCloneCountedFrom child' rest h.kmalloc k

/-- `vma_clone`. -/
def vmaCloneCounted (parent : List Vma) (h : HeapCounts) (k : Kmalloc) :
    List Vma × Int × HeapCounts :=
  vmaCloneCountedFrom [] parent h k

/-- What `task_fork` works on. -/
structure ForkWorld where
  machine : Machine
  heap : HeapCounts
  tasks : Scheduler
  files : VfsState

/-- The name of a task in the table of descriptors. -/
def descriptorOwner (pcb : Pcb) : TaskId := Fin.ofNat 1048576 pcb

/-- `task_fork` by the current task, which has the directory `pd` and the areas
`vmas`: the PCB of the child with its memory, or the error. -/
def taskForkAll (w : ForkWorld) (pd : Nat) (vmas : List Vma) (k : Kmalloc) :
    Option (ForkWorld × Except Int (Nat × Process)) :=
  match vmmAllocKernelStack w.machine with
  | .halted => none
  | .failed m => some ({ w with machine := m }, .error (-eNoMem))
  | .allocated m stackTop =>
    match m.allocPage with
    | (m, pcbPhys) =>
      if pcbPhys = 0#32 then
        some ({ w with machine := vmmFreeKernelStack m stackTop }, .error (-eNoMem))
      else
        -- child->pid = next_pid++
        let counted := { w.tasks with nextPid := w.tasks.nextPid + 1 }
        match vmmCloneAddressSpace m pd with
        | (m, none) =>
          some ({ w with
            machine := (vmmFreeKernelStack m stackTop).freePage pcbPhys
            tasks := counted }, .error (-eNoMem))
        | (m, some childPd) =>
          match vmaCloneCounted vmas w.heap k with
          | (childVmas, ret, heap) =>
            if ret < 0 then
              some ({ w with
                machine := (vmmFreeKernelStack (vmmDestroyAddressSpace m childPd) stackTop).freePage
                  pcbPhys
                heap := heap
                tasks := counted }, .error (-eNoMem))
            else do
              let pcb := frameOf pcbPhys
              let files ← taskFork w.files (descriptorOwner w.tasks.currentTask)
                (descriptorOwner pcb)
              let tasks ← w.tasks.taskFork (.ok pcb stackTop)
              some (⟨m, heap, tasks, files⟩, .ok (pcb, ⟨⟨some childPd, childVmas⟩, stackTop⟩))

/-- What the caller of a failed fork finds as it was: every frame, the slots of the kernel
stacks, the balance of the heap, the tasks up to the pid counter, the descriptors and open
files, and every byte at its user addresses. -/
structure NoTrace (w w' : ForkWorld) (pd : Nat) : Prop where
  bitmap : w'.machine.pmm.bitmap = w.machine.pmm.bitmap
  refcounts : w'.machine.pmm.refcounts = w.machine.pmm.refcounts
  slots : w'.machine.kstackBitmap = w.machine.kstackBitmap
  balance : w'.heap.balance = w.heap.balance
  tasks : { w'.tasks with nextPid := w.tasks.nextPid } = w.tasks
  files : w'.files = w.files
  bytes : ∀ addr < kernelSpaceStart,
    userByte w'.machine pd addr = userByte w.machine pd addr

section Heap

variable {child rest vmas : List Vma} {h : HeapCounts} {k : Kmalloc}

/-- The areas are those of `vmaClone`. -/
theorem vmaCloneCountedFrom_areas :
    (vmaCloneCountedFrom child rest h k).1 = (vmaCloneFrom child rest k).1 ∧
      (vmaCloneCountedFrom child rest h k).2.1 = (vmaCloneFrom child rest k).2.1 := by
  induction rest generalizing child h k with
  | nil => exact ⟨rfl, rfl⟩
  | cons current rest ih =>
    unfold vmaCloneCountedFrom vmaCloneFrom
    generalize vmaAdd child current.start current.end current.flags k = res
    obtain ⟨child', ret, k'⟩ := res
    dsimp only
    split_ifs
    · exact ⟨rfl, rfl⟩
    · exact ih

/-- `vma_destroy_all` frees one block for each node. -/
theorem vmaDestroyAll_blocks : (vmaDestroyAll vmas h).allocs - (vmaDestroyAll vmas h).frees =
    h.allocs - h.frees - BitVec.ofNat 32 vmas.length := by
  induction vmas generalizing h with
  | nil => simp [vmaDestroyAll]
  | cons v vmas ih =>
    have hrest := @ih h.kfree
    change (vmaDestroyAll vmas h.kfree).allocs - (vmaDestroyAll vmas h.kfree).frees = _
    rw [hrest, List.length_cons]
    simp only [HeapCounts.kfree]
    bv_omega

theorem vmaInsert_length (x : Vma) (vmas : List Vma) :
    (vmaInsert x vmas).length = vmas.length + 1 := by
  have hafter : ∀ l : List Vma, (vmaInsertAfter x l).length = l.length + 1 := by
    intro l
    induction l with
    | nil => rfl
    | cons next rest ih =>
      rw [vmaInsertAfter]
      split_ifs
      · simp [ih]
      · rfl
  cases vmas with
  | nil => rfl
  | cons head rest =>
    rw [vmaInsert]
    split_ifs
    · rfl
    · simp [hafter]

/-- When the loop fails, it has freed the nodes of the child as well as those it added. -/
theorem vmaCloneCountedFrom_blocks (hfail : (vmaCloneCountedFrom child rest h k).2.1 < 0) :
    (vmaCloneCountedFrom child rest h k).2.2.allocs -
        (vmaCloneCountedFrom child rest h k).2.2.frees =
      h.allocs - h.frees - BitVec.ofNat 32 child.length := by
  induction rest generalizing child h k with
  | nil => simp [vmaCloneCountedFrom] at hfail
  | cons current rest ih =>
    have hadd := vmaAdd_cases child current.start current.end current.flags k
    unfold vmaCloneCountedFrom at hfail ⊢
    generalize vmaAdd child current.start current.end current.flags k = res at hadd hfail ⊢
    obtain ⟨child', ret, k'⟩ := res
    dsimp only at hadd hfail ⊢
    by_cases hret : ret < 0
    · rw [if_pos hret]
      obtain ⟨rfl, -⟩ | ⟨-, -, -, rfl⟩ := hadd
      · exact vmaDestroyAll_blocks
      · omega
    · rw [if_neg hret] at hfail ⊢
      obtain ⟨-, hneg⟩ | ⟨-, -, rfl, -⟩ := hadd
      · omega
      · rw [ih hfail, vmaInsert_length]
        simp only [HeapCounts.kmalloc]
        bv_omega

theorem vmaCloneCounted_balance (hfail : (vmaCloneCounted vmas h k).2.1 < 0) :
    (vmaCloneCounted vmas h k).2.2.balance = h.balance := by
  have hblocks : (vmaCloneCounted vmas h k).2.2.allocs - (vmaCloneCounted vmas h k).2.2.frees =
      h.allocs - h.frees - BitVec.ofNat 32 0 := vmaCloneCountedFrom_blocks hfail
  unfold HeapCounts.balance
  rw [hblocks]
  simp

end Heap

/-- The pages in use at `p` are in use at `q`, with the same references. -/
def Grows (p q : Pmm) : Prop :=
  ∀ f, p.bitmap f = true → q.bitmap f = true ∧ q.refcounts f = p.refcounts f

namespace Grows

variable {p p' q : Pmm}

theorem refl (p : Pmm) : Grows p p := fun _ hf => ⟨hf, rfl⟩

theorem trans (h : Grows p p') (h' : Grows p' q) : Grows p q := by
  intro f hf
  obtain ⟨hused, hcount⟩ := h f hf
  obtain ⟨hused', hcount'⟩ := h' f hused
  exact ⟨hused', hcount'.trans hcount⟩

theorem of_eq (hbits : q.bitmap = p.bitmap) (hrefs : q.refcounts = p.refcounts) : Grows p q := by
  intro f hf
  rw [hbits, hrefs]
  exact ⟨hf, rfl⟩

theorem take {f : Nat} (hfree : p.bitmap f = false) : Grows p (p.take f) := by
  intro g hg
  have hne : g ≠ f := by
    rintro rfl
    simp [hfree] at hg
  exact ⟨(Function.update_of_ne hne _ _).trans hg, Function.update_of_ne hne _ _⟩

theorem alloc (p : Pmm) : Grows p (pmmAllocPage p).1 := by
  rcases pmmAllocPage_cases p with halloc | ⟨f, hfree, -, halloc⟩
  · rw [halloc]
    exact refl p
  · rw [halloc]
    exact take hfree

theorem freePage (p : Pmm) (phys : Word) : Grows (pmmFreePage p phys) p := by
  unfold pmmFreePage
  dsimp only
  split_ifs
  · exact refl p
  · exact refl p
  · exact refl p
  · intro f hf
    rw [Pmm.release_bitmap] at hf
    by_cases hne : f = phys.toNat / pmmPageSize
    · simp [hne] at hf
    · rw [Function.update_of_ne hne] at hf
      exact ⟨hf, (Function.update_of_ne hne _ _).symm⟩

/-- Two allocators below a third, with the same pages in use. -/
theorem refcounts_eq (h : Grows p q) (h' : Grows p' q) (hp : p.Tidy) (hp' : p'.Tidy)
    (hbits : p'.bitmap = p.bitmap) : p'.refcounts = p.refcounts := by
  funext f
  cases hf : p.bitmap f with
  | true =>
    have hf' : p'.bitmap f = true := by rw [hbits, hf]
    exact ((h' f hf').2.symm).trans (h f hf).2
  | false =>
    have hf' : p'.bitmap f = false := by rw [hbits, hf]
    have hidle : p.refcounts f = 0 := hp.idle f hf
    have hidle' : p'.refcounts f = 0 := hp'.idle f hf'
    rw [hidle, hidle']

end Grows

section Stacks

variable (m : Machine)

theorem grows_foldl {f : Machine → Nat → Machine} (hf : ∀ m i, Grows (f m i).pmm m.pmm)
    (l : List Nat) : Grows (l.foldl f m).pmm m.pmm := by
  induction l generalizing m with
  | nil => exact .refl m.pmm
  | cons i l ih => exact (ih (f m i)).trans (hf m i)

theorem grows_freeStackPage (virt : Nat) : Grows (freeStackPage m virt).pmm m.pmm := by
  unfold freeStackPage
  dsimp only
  split_ifs
  · exact Grows.freePage m.pmm _
  · exact .refl m.pmm

theorem grows_freeKernelStack (stackTop : Nat) :
    Grows (vmmFreeKernelStack m stackTop).pmm m.pmm := by
  unfold vmmFreeKernelStack
  dsimp only
  split_ifs
  · exact .refl m.pmm
  · exact .refl m.pmm
  · refine grows_foldl (m.setSlot _ false) (fun m p => ?_) _
    split_ifs
    · exact grows_freeStackPage m _
    · exact .refl m.pmm

theorem grows_mapPage {virt : Nat} {phys flags : Word} {m' : Machine}
    (hmap : vmmMapPage m virt phys flags = some m') : Grows m.pmm m'.pmm := by
  have halloc : Grows m.pmm (ensureTable m m.bootPageDirectory (dirIndex virt)).1.pmm := by
    have hpage : Grows m.pmm m.allocPage.1.pmm := Grows.alloc m.pmm
    unfold ensureTable
    split_ifs
    · exact .refl m.pmm
    · generalize m.allocPage = res at hpage ⊢
      obtain ⟨m₁, phys⟩ := res
      dsimp only
      split_ifs
      · exact hpage
      · exact hpage
  unfold vmmMapPage at hmap
  generalize ensureTable m m.bootPageDirectory (dirIndex virt) = res at halloc hmap
  obtain ⟨m₁, ok⟩ := res
  cases ok with
  | false => cases hmap
  | true =>
    cases hmap
    exact halloc

/-- The pages of a stack are taken; when they run out, those taken are given back. -/
inductive StackPool (p : Pmm) : KstackResult → Prop
  | allocated {m : Machine} (stackTop : Nat) (h : Grows p m.pmm) :
      StackPool p (.allocated m stackTop)
  | failed {m : Machine} {q : Pmm} (hup : Grows p q) (hdown : Grows m.pmm q) :
      StackPool p (.failed m)
  | halted : StackPool p .halted

theorem StackPool.after {p p' : Pmm} {res : KstackResult} (h : StackPool p' res)
    (hgrows : Grows p p') : StackPool p res := by
  cases h with
  | allocated stackTop h => exact .allocated stackTop (hgrows.trans h)
  | failed hup hdown => exact .failed (hgrows.trans hup) hdown
  | halted => exact .halted

theorem stackPool_mapStackPages (slot : Nat) (l : List Nat) :
    StackPool m.pmm (mapStackPages slot l m) := by
  induction l generalizing m with
  | nil => exact .allocated _ (.refl m.pmm)
  | cons p rest ih =>
    have halloc : Grows m.pmm m.allocPage.1.pmm := Grows.alloc m.pmm
    unfold mapStackPages
    generalize m.allocPage = res at halloc ⊢
    obtain ⟨m₁, phys⟩ := res
    dsimp only
    split_ifs
    · exact .failed halloc (grows_foldl m₁ (fun m q => grows_freeStackPage m _) _)
    · cases hmap : vmmMapPage m₁ (kernelStackBase slot + p * 4096) phys
        (pagePresent ||| pageWrite) with
      | none => exact .halted
      | some m₂ => exact (ih m₂).after (halloc.trans (grows_mapPage m₁ hmap))

theorem stackPool_allocKernelStack : StackPool m.pmm (vmmAllocKernelStack m) := by
  unfold vmmAllocKernelStack
  cases (List.range kernelStackSlots).find? fun i => !m.kstackBitmap i with
  | none => exact .failed (.refl m.pmm) (.refl m.pmm)
  | some slot =>
    have hguard : (vmmUnmapPageInPd (m.setSlot slot true) m.bootPageDirectory
        (kernelStackBase slot)).pmm = m.pmm := by
      unfold vmmUnmapPageInPd
      dsimp only
      split_ifs
      · rfl
      · rfl
      · rfl
    rw [← hguard]
    exact stackPool_mapStackPages _ slot [1, 2, 3, 4]

end Stacks

section Memory

variable {m m₁ m' : Machine} {pds : Finset Nat} {own : Nat → Owner} {pd slot f : Nat}
  {vmas : List Vma} {k : Kmalloc}

/-- A stack that holds its frames goes back to the pool; the other pages `P` taken since
stay. -/
theorem freeStack_bitmap {P : Nat → Prop} (hgiven : StackGiven m m₁ slot) (hd : DirectTables m')
    (hlimit : m'.pmm.maxPage ≤ pmmMaxPages) (hmax : m'.pmm.maxPage = m₁.pmm.maxPage)
    (hpte : ∀ q ∈ dataPages, stackPte m' slot q = stackPte m₁ slot q)
    (hbits : ∀ g, m'.pmm.bitmap g = true ↔ m₁.pmm.bitmap g = true ∨ P g)
    (hother : ∀ g, P g → m₁.pmm.bitmap g = false) (g : Nat) :
    (vmmFreeKernelStack m' (kernelStackTop slot)).pmm.bitmap g = true ↔
      m.pmm.bitmap g = true ∨ P g := by
  have hheld : HoldsPages m' slot dataPages := hgiven.holds.congr hpte hmax fun q hq =>
    (hbits _).mpr (Or.inl (hgiven.holds.used q hq))
  have hfreed := vmmFreeKernelStack_exact hd hlimit hgiven.lt hheld
  have hframe : ∀ q ∈ dataPages, stackFrame (m'.setSlot slot false) slot q = stackFrame m₁ slot q :=
    fun q hq => congrArg frameOf (hpte q hq)
  rw [hfreed.bitmap]
  change m'.pmm.bitmap g = true ∧ _ ↔ _
  rw [hbits, hgiven.bitmap]
  constructor
  · rintro ⟨(hset | ⟨q, hq, heq⟩) | hp, hkept⟩
    · exact Or.inl hset
    · exact absurd ((hframe q hq).trans heq) (hkept q hq)
    · exact Or.inr hp
  · rintro (hset | hp)
    · refine ⟨Or.inl (Or.inl hset), fun q hq heq => ?_⟩
      rw [hframe q hq] at heq
      have hfresh := hgiven.fresh q hq
      rw [heq, hset] at hfresh
      cases hfresh
    · refine ⟨Or.inr hp, fun q hq heq => ?_⟩
      rw [hframe q hq] at heq
      have hused := hgiven.holds.used q hq
      rw [heq, hother g hp] at hused
      cases hused

/-- The stack and the page of the PCB go back to the pool. -/
theorem rollback_bitmap (hgiven : StackGiven m m₁ slot) (hlimit : m₁.pmm.maxPage ≤ pmmMaxPages)
    (hfree : m₁.pmm.bitmap f = false) (hf : f < m₁.pmm.maxPage) (hd : DirectTables m')
    (hpool : Pmm.Restored (m₁.pmm.take f) m'.pmm)
    (hpte : ∀ q ∈ dataPages, stackPte m' slot q = stackPte m₁ slot q) :
    ((vmmFreeKernelStack m' (kernelStackTop slot)).freePage (frameAddr f)).pmm.bitmap =
      m.pmm.bitmap := by
  have hmax : m'.pmm.maxPage = m₁.pmm.maxPage := hpool.maxPage
  have hbits : ∀ g, m'.pmm.bitmap g = true ↔ m₁.pmm.bitmap g = true ∨ g = f := by
    intro g
    rw [hpool.bitmap, Pmm.take_bitmap, Function.update_apply]
    split_ifs with heq
    · simp [heq]
    · simp [heq]
  have hstack := freeStack_bitmap (P := fun g => g = f) hgiven hd (hmax ▸ hlimit) hmax hpte hbits
    (by rintro g rfl; exact hfree)
  set m₂ := vmmFreeKernelStack m' (kernelStackTop slot) with hm₂
  have hheld : HoldsPages m' slot dataPages := hgiven.holds.congr hpte hmax fun q hq =>
    (hbits _).mpr (Or.inl (hgiven.holds.used q hq))
  have hmax₂ : m₂.pmm.maxPage = m'.pmm.maxPage :=
    (vmmFreeKernelStack_exact hd (hmax ▸ hlimit) hgiven.lt hheld).maxPage
  have hin : f < m₂.pmm.maxPage ∧ m₂.pmm.bitmap f = true :=
    ⟨by rw [hmax₂, hmax]; exact hf, (hstack f).mpr (Or.inr rfl)⟩
  have hwas : m.pmm.bitmap f = false := by
    refine Bool.eq_false_of_not_eq_true fun hset => ?_
    rw [(hgiven.bitmap f).mpr (Or.inl hset)] at hfree
    cases hfree
  change (pmmFreePage m₂.pmm (frameAddr f)).bitmap = m.pmm.bitmap
  rw [pmmFreePage_frameAddr _ (lt_of_lt_of_le hf hlimit), if_pos hin, Pmm.release_bitmap]
  funext g
  by_cases hg : g = f
  · rw [hg, Function.update_self, hwas]
  · rw [Function.update_of_ne hg, Bool.eq_iff_iff, hstack g]
    simp [hg]

/-- The stack page entries do not change while only the user half does. -/
theorem stackPte_frame {own' : Nat → Owner} {R : Nat → Nat → Prop} (h : VmInv m₁ pds own)
    (hk : KernelHalf m₁ own R) (hframe : KernelFrame m₁ own m' own')
    (hslot : slot < kernelStackSlots) :
    ∀ q ∈ dataPages, stackPte m' slot q = stackPte m₁ slot q := by
  intro q hq
  have hdata := mem_dataPages.mp hq
  have hlow : q ≤ 4 := by omega
  obtain ⟨hlo, hhi⟩ := stackVirt_index hslot hlow
  exact hk.kernelPte_frame h.boot hframe hlo hhi

theorem VmInv.free_frame (h : VmInv m pds own) (hfree : own f = .free) :
    f < m.pmm.maxPage ∧ m.pmm.bitmap f = false := by
  have hf : f < m.pmm.maxPage := by
    by_contra hbeyond
    rw [h.beyond f (Nat.not_lt.mp hbeyond)] at hfree
    cases hfree
  exact ⟨hf, (h.free_iff f hf).mp hfree⟩

/-- A machine that gave out a stack keeps its invariants. -/
theorem stackGiven_inv {stackTop : Nat} (h : VmInv m pds own)
    (hk : KernelHalf m own (stacksInUse m))
    (halloc : vmmAllocKernelStack m = .allocated m₁ stackTop) :
    ∃ own₁, VmInv m₁ pds own₁ ∧ KernelHalf m₁ own₁ (stacksInUse m₁) := by
  rcases vmmAllocKernelStack_spec h hk with
    ⟨m₂, own₂, slot₂, heq, -, -, -, hinv, hhalf, -⟩ | ⟨m₂, own₂, heq, -⟩
  · rw [halloc] at heq
    obtain ⟨rfl, -⟩ := KstackResult.allocated.inj heq
    exact ⟨own₂, hinv, hhalf⟩
  · rw [halloc] at heq
    cases heq

/-- A failed fork leaves every frame as it was. -/
theorem taskForkMemory_pool (h : VmInv m pds own) (hk : KernelHalf m own (stacksInUse m))
    (hsound : m.pmm.Sound) (hpd : pd ∈ pds) (hcard : pds.card < 0xFFFF)
    (hfork : taskForkMemory m pd vmas k = some (m', none)) :
    m'.pmm.bitmap = m.pmm.bitmap ∧ m'.pmm.refcounts = m.pmm.refcounts := by
  have htidy := tidy_taskFork h hk hsound hpd hcard hfork
  suffices hpool : m'.pmm.bitmap = m.pmm.bitmap ∧ ∃ q, Grows m.pmm q ∧ Grows m'.pmm q by
    obtain ⟨hbits, q, hup, hdown⟩ := hpool
    exact ⟨hbits, hup.refcounts_eq hdown hsound.tidy htidy hbits⟩
  have hcalls := calls_allocKernelStack m
  have hgrows := stackPool_allocKernelStack m
  unfold taskForkMemory at hfork
  rcases vmmAllocKernelStack_exact hk.directTables hsound.limit hsound.zeroBit with
    ⟨m₁, slot, halloc, hgiven⟩ | ⟨m₁, hfail, hrefused⟩
  · rw [halloc] at hfork hcalls hgrows
    cases hgrows with
    | allocated _ hup =>
      cases hcalls with
      | allocated _ hm₁ =>
        obtain ⟨own₁, hinv, hhalf⟩ := stackGiven_inv h hk halloc
        have hlimit := hinv.limit
        have htidy₁ := hsound.tidy.calls hm₁
        rcases hinv.allocPcb hhalf with hnone | ⟨f, hfree, -, hne, hpage, hinv₂, hhalf₂, -⟩
        · simp only [hnone, if_pos] at hfork
          cases hfork
          refine ⟨?_, m₁.pmm, hup, grows_freeKernelStack m₁ _⟩
          funext g
          have hbit := freeStack_bitmap (P := fun _ => False) hgiven hhalf.directTables hlimit rfl
            (fun _ _ => rfl) (by simp) (by simp) g
          rw [Bool.eq_iff_iff, hbit, or_false]
        · obtain ⟨hf, hclear⟩ := hinv.free_frame hfree
          have hup₂ : Grows m.pmm (m₁.pmm.take f) := hup.trans (.take hclear)
          have hpool₂ : (m₁.withPmm (m₁.pmm.take f)).pmm.Sound := by
            have htidy₂ := htidy₁.take hclear hf
            exact ⟨htidy₂.limit, hinv₂.zeroBit, htidy₂.idle, htidy₂.used⟩
          simp only [hpage, if_neg hne] at hfork
          -- the rollback from a machine that has its user half again
          have hback : ∀ {m₃ : Machine} {own₃ : Nat → Owner},
              KernelFrame (m₁.withPmm (m₁.pmm.take f)) (Function.update own₁ f (.kernel .pcb)) m₃
                own₃ → Pmm.Restored (m₁.pmm.take f) m₃.pmm →
              m' = (vmmFreeKernelStack m₃ (kernelStackTop slot)).freePage (frameAddr f) →
              m'.pmm.bitmap = m.pmm.bitmap ∧ ∃ q, Grows m.pmm q ∧ Grows m'.pmm q := by
            intro m₃ own₃ hframe hrestored heq
            have hpte := stackPte_frame hinv₂ hhalf₂ hframe hgiven.lt
            have hhalf₃ := hhalf₂.frame hinv₂.boot hframe
            have hdown : Grows m₃.pmm (m₁.pmm.take f) :=
              .of_eq hrestored.bitmap.symm hrestored.refcounts.symm
            rw [heq]
            refine ⟨rollback_bitmap hgiven hlimit hclear hf hhalf₃.directTables hrestored hpte,
              _, hup₂, ?_⟩
            exact ((Grows.freePage _ _).trans (grows_freeKernelStack m₃ _)).trans hdown
          have hparent : ParentReady (m₁.withPmm (m₁.pmm.take f)) pd :=
            hinv₂.parentReady hpd fun i hi j hj g hsite => refcount_lt hinv₂ hcard hpd hi hj hsite
          have hready := hinv₂.poolReady hpool₂
          rcases hinv₂.vmmCloneAddressSpace hpd
              fun i hi j hj g hsite => refcount_lt hinv₂ hcard hpd hi hj hsite with
            ⟨m₃, own₃, hclone, -, hframe⟩ | ⟨m₃, n, own₃, hclone, hn, hinv₃, hframe⟩
          · simp only [hclone] at hfork
            cases hfork
            rcases SpaceOwes.clone hready hparent with ⟨m₄, n, heq, -⟩ | ⟨m₄, heq, howes⟩
            · rw [hclone] at heq
              cases heq
            · rw [hclone] at heq
              cases heq
              exact hback hframe howes.restored rfl
          · simp only [hclone] at hfork
            split_ifs at hfork
            · cases hfork
              obtain ⟨own₄, -, hframe₄⟩ :=
                hinv₃.vmmDestroyAddressSpace (Finset.mem_insert_self n pds)
              rcases SpaceOwes.clone hready hparent with ⟨m₄, n₄, heq, howes⟩ | ⟨m₄, heq, -⟩
              · rw [hclone] at heq
                cases heq
                exact hback (hframe.trans hframe₄) (howes.destroy hready).1.restored rfl
              · rw [hclone] at heq
                cases heq
            · cases hfork
  · rw [hfail] at hfork hgrows
    cases hfork
    cases hgrows with
    | failed hup hdown => exact ⟨hrefused.bitmap, _, hup, hdown⟩

end Memory

section Failed

variable {w w' : ForkWorld} {pds : Finset Nat} {own : Nat → Owner} {pd : Nat} {vmas : List Vma}
  {k : Kmalloc} {e : Int}

/-- The machine is that of `taskForkMemory`, and only the pid counter moves outside it. -/
theorem taskForkAll_memory (hfork : taskForkAll w pd vmas k = some (w', .error e)) :
    taskForkMemory w.machine pd vmas k = some (w'.machine, none) ∧ e = -eNoMem ∧
      w'.heap.balance = w.heap.balance ∧
      { w'.tasks with nextPid := w.tasks.nextPid } = w.tasks ∧ w'.files = w.files := by
  have hret : (vmaCloneCounted vmas w.heap k).2.1 = (vmaClone vmas k).2.1 :=
    vmaCloneCountedFrom_areas.2
  unfold taskForkAll at hfork
  unfold taskForkMemory
  generalize vmmAllocKernelStack w.machine = stack at hfork ⊢
  cases stack with
  | halted => cases hfork
  | failed m =>
    cases hfork
    exact ⟨rfl, rfl, rfl, rfl, rfl⟩
  | allocated m stackTop =>
    dsimp only at hfork ⊢
    generalize m.allocPage = page at hfork ⊢
    obtain ⟨m₁, pcbPhys⟩ := page
    dsimp only at hfork ⊢
    by_cases hzero : pcbPhys = 0#32
    · rw [if_pos hzero] at hfork ⊢
      cases hfork
      exact ⟨rfl, rfl, rfl, rfl, rfl⟩
    · rw [if_neg hzero] at hfork ⊢
      generalize vmmCloneAddressSpace m₁ pd = cloned at hfork ⊢
      obtain ⟨m₂, childPd | childPd⟩ := cloned
      · cases hfork
        exact ⟨rfl, rfl, rfl, rfl, rfl⟩
      · have hbalance := @vmaCloneCounted_balance vmas w.heap k
        generalize vmaCloneCounted vmas w.heap k = counted at hfork hret hbalance
        generalize vmaClone vmas k = areas at hret ⊢
        obtain ⟨childVmas, ret, heap⟩ := counted
        obtain ⟨childVmas', ret', k'⟩ := areas
        dsimp only at hfork hret hbalance ⊢
        subst hret
        by_cases hneg : ret < 0
        · rw [if_pos hneg] at hfork ⊢
          cases hfork
          exact ⟨rfl, rfl, hbalance hneg, rfl, rfl⟩
        · rw [if_neg hneg] at hfork
          simp only [Option.bind_eq_bind, Option.bind_eq_some_iff, Option.some.injEq,
            Prod.mk.injEq, reduceCtorEq, and_false, exists_false] at hfork

/-- A fork whose areas cannot be cloned fails. -/
theorem taskForkAll_refused (hstack : vmmAllocKernelStack w.machine ≠ .halted)
    (hareas : (vmaCloneCounted vmas w.heap k).2.1 < 0) :
    ∃ w' e, taskForkAll w pd vmas k = some (w', .error e) := by
  unfold taskForkAll
  generalize vmmAllocKernelStack w.machine = stack at hstack ⊢
  cases stack with
  | halted => exact absurd rfl hstack
  | failed m => exact ⟨_, _, rfl⟩
  | allocated m stackTop =>
    dsimp only
    generalize m.allocPage = page
    obtain ⟨m₁, pcbPhys⟩ := page
    dsimp only
    by_cases hzero : pcbPhys = 0#32
    · rw [if_pos hzero]
      exact ⟨_, _, rfl⟩
    · rw [if_neg hzero]
      generalize vmmCloneAddressSpace m₁ pd = cloned
      obtain ⟨m₂, childPd | childPd⟩ := cloned
      · exact ⟨_, _, rfl⟩
      · dsimp only
        rw [if_pos hareas]
        exact ⟨_, _, rfl⟩

/-- The reference counts match the mappings: each frame has one owner or is a user page with as
many references as mappings, and a free frame has none. -/
def RefcountsMatch (s : System) : Prop :=
  (∃ pds own, SysInv s pds own) ∧ s.machine.pmm.Sound

/-- So they do in every state reached from boot by operations that respect the owners. -/
theorem refcountsMatch_of_reach {image : BootImage} {info : BootInfo} {ram : Nat → Nat → Word}
    {s₀ s : System} (hboot : System.boot image info ram = some s₀)
    (hrun : Reach SysOp.step (fun s op => op.Possible s ∧ op.KeepsOwners s) s₀ s) :
    RefcountsMatch s :=
  SysInv.sound_run hboot hrun

/-- Wherever memory runs out in `task_fork`, the caller finds everything as it was. -/
theorem fork_leaves_no_trace {s : System} (hmatch : RefcountsMatch s) {p : Nat} {task : Process}
    (hrunning : s.running p = some (task, pd)) (hw : w.machine = s.machine)
    (hfork : taskForkAll w pd task.vmaHead k = some (w', .error e)) :
    e = -eNoMem ∧ NoTrace w w' pd := by
  obtain ⟨⟨pds, own, hinv⟩, hsound⟩ := hmatch
  obtain ⟨hmemory, herror, hbalance, htasks, hfiles⟩ := taskForkAll_memory hfork
  have hpd : pd ∈ pds := hinv.mem_of_running hrunning
  have hcard : pds.card < 0xFFFF := lt_of_le_of_lt hinv.card_le (by decide)
  have h := hinv.inv
  have hk := hinv.half
  rw [← hw] at h hk hsound
  obtain ⟨hbitmap, hrefcounts⟩ := taskForkMemory_pool h hk hsound hpd hcard hmemory
  have hslots : w'.machine.kstackBitmap = w.machine.kstackBitmap := by
    cases taskForkMemory_inv h hk hpd hcard hmemory with
    | rolledBack hkept => exact hkept.slots
  have hspace := (taskForkMemory_spaces pageRights_true h hk hpd hcard hmemory).1 pd hpd
  exact ⟨herror, hbitmap, hrefcounts, hslots, hbalance, htasks, hfiles,
    fun addr haddr => hspace.byte haddr⟩

/-- The first process forks, and its first area cannot be cloned. -/
theorem fork_leaves_no_trace_small : ∃ s, SmallInit 3#32 s ∧
    ∀ (heap : HeapCounts) (tasks : Scheduler) (files : VfsState),
      ∃ w', taskForkAll ⟨s.machine, heap, tasks, files⟩ 4100 (smallVmas 3#32) [false] =
          some (w', .error (-eNoMem)) ∧
        NoTrace ⟨s.machine, heap, tasks, files⟩ w' 4100 := by
  obtain ⟨s₀, s, hboot, hreach, hsmall, hrun, -⟩ := smallInit_apart
  have hmatch := refcountsMatch_of_reach hboot hreach
  refine ⟨s, hsmall, fun heap tasks files => ?_⟩
  obtain ⟨w', e, hfork⟩ : ∃ w' e, taskForkAll ⟨s.machine, heap, tasks, files⟩ 4100
      (smallVmas 3#32) [false] = some (w', .error e) := by
    obtain ⟨⟨pds, own, hinv⟩, hsound⟩ := hmatch
    refine taskForkAll_refused (fun hhalted => ?_) ?_
    · rcases vmmAllocKernelStack_spec hinv.inv hinv.half with
        ⟨m, -, slot, halloc, -⟩ | ⟨m, -, hfail, -⟩
      · rw [halloc] at hhalted
        cases hhalted
      · rw [hfail] at hhalted
        cases hhalted
    · rw [vmaCloneCounted, vmaCloneCountedFrom_areas.2]
      decide
  obtain ⟨rfl, htrace⟩ := fork_leaves_no_trace hmatch hrun rfl hfork
  exact ⟨w', hfork, htrace⟩

end Failed

end EnclaveOS
