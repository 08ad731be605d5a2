import EnclaveOS.Process.ForkIsolation
import EnclaveOS.Process.RightsRuns

/-!
# HeapBreak - sys_brk

The heap area after a successful `sys_brk`, and what its new pages hold.  The handler moves the
end of the area and nothing else: no page is unmapped when the heap shrinks, and no check looks at
the start of the heap.
-/

namespace EnclaveOS

open PageWord

section Areas

variable {vmas front rest : List Vma} {heap x : Vma} {newBrk : Nat}

/-- The heap area is the first one that starts at `USER_HEAP_START`. -/
structure HeapAt (vmas front : List Vma) (heap : Vma) (rest : List Vma) : Prop where
  split : vmas = front ++ heap :: rest
  start : heap.start = userHeapStart
  first : ∀ v ∈ front, v.start ≠ userHeapStart

theorem heapVmaFrom_eq_some {base pos : Nat} :
    heapVmaFrom base vmas = some (pos, heap) ↔
      ∃ front rest, HeapAt vmas front heap rest ∧ pos = base + front.length := by
  induction vmas generalizing base with
  | nil =>
    refine iff_of_false (by simp [heapVmaFrom]) ?_
    rintro ⟨front, rest, h, -⟩
    simpa using h.split
  | cons curr tail ih =>
    rw [heapVmaFrom]
    by_cases hcurr : curr.start = userHeapStart
    · rw [if_pos hcurr]
      constructor
      · intro h
        cases h
        exact ⟨[], tail, ⟨rfl, hcurr, by simp⟩, rfl⟩
      · rintro ⟨front, rest, h, rfl⟩
        cases front with
        | nil =>
          obtain ⟨rfl, rfl⟩ := List.cons_eq_cons.mp h.split
          rfl
        | cons v front =>
          obtain ⟨rfl, -⟩ := List.cons_eq_cons.mp h.split
          exact absurd hcurr (h.first curr List.mem_cons_self)
    · rw [if_neg hcurr, ih]
      constructor
      · rintro ⟨front, rest, h, rfl⟩
        refine ⟨curr :: front, rest, ⟨by rw [h.split]; rfl, h.start, ?_⟩, by simp; omega⟩
        exact List.forall_mem_cons.mpr ⟨hcurr, h.first⟩
      · rintro ⟨front, rest, h, rfl⟩
        cases front with
        | nil =>
          obtain ⟨rfl, -⟩ := List.cons_eq_cons.mp h.split
          exact absurd h.start hcurr
        | cons v front =>
          obtain ⟨rfl, hsplit⟩ := List.cons_eq_cons.mp h.split
          exact ⟨front, rest, ⟨hsplit, h.start, (List.forall_mem_cons.mp h.first).2⟩, by simp; omega⟩

theorem heapVma_eq_some {pos : Nat} :
    heapVma vmas = some (pos, heap) ↔
      ∃ front rest, HeapAt vmas front heap rest ∧ pos = front.length := by
  rw [heapVma, heapVmaFrom_eq_some]
  simp

theorem HeapAt.heapVma (h : HeapAt vmas front heap rest) :
    heapVma vmas = some (front.length, heap) :=
  heapVma_eq_some.mpr ⟨front, rest, h, rfl⟩

/-- The split at the heap area is unique. -/
theorem HeapAt.unique {front' rest' : List Vma} {heap' : Vma} (h : HeapAt vmas front heap rest)
    (h' : HeapAt vmas front' heap' rest') : front' = front ∧ heap' = heap ∧ rest' = rest := by
  obtain ⟨hpos, hheap⟩ := Prod.mk.inj (Option.some.inj (h'.heapVma.symm.trans h.heapVma))
  have heq := h'.split.symm.trans h.split
  obtain ⟨hfront, htail⟩ := List.append_inj heq hpos
  exact ⟨hfront, List.cons_eq_cons.mp htail⟩

/-- Moving the end of the heap area. -/
theorem HeapAt.setEnd (h : HeapAt vmas front heap rest) (newBrk : Nat) :
    vmas.set front.length { heap with «end» := newBrk } =
        front ++ { heap with «end» := newBrk } :: rest ∧
      HeapAt (front ++ { heap with «end» := newBrk } :: rest) front
        { heap with «end» := newBrk } rest := by
  refine ⟨?_, rfl, h.start, h.first⟩
  rw [h.split, List.set_append_right _ _ le_rfl, Nat.sub_self, List.set_cons_zero]

/-- The insertion walk puts the area somewhere into the list. -/
theorem vmaInsert_split (x : Vma) (vmas : List Vma) :
    ∃ front rest, vmas = front ++ rest ∧ vmaInsert x vmas = front ++ x :: rest := by
  have hafter : ∀ l : List Vma, ∃ front rest, l = front ++ rest ∧
      vmaInsertAfter x l = front ++ x :: rest := by
    intro l
    induction l with
    | nil => exact ⟨[], [], rfl, rfl⟩
    | cons next tail ih =>
      rw [vmaInsertAfter]
      split_ifs
      · obtain ⟨front, rest, hsplit, hres⟩ := ih
        exact ⟨next :: front, rest, by rw [hsplit]; rfl, by rw [hres]; rfl⟩
      · exact ⟨[], next :: tail, rfl, rfl⟩
  cases vmas with
  | nil => exact ⟨[], [], rfl, rfl⟩
  | cons head tail =>
    rw [vmaInsert]
    split_ifs
    · exact ⟨[], head :: tail, rfl, rfl⟩
    · obtain ⟨front, rest, hsplit, hres⟩ := hafter tail
      exact ⟨head :: front, rest, by rw [hsplit]; rfl, by rw [hres]; rfl⟩

end Areas

/-- `sys_brk` grants the request: it is below the limit, and there is memory for the area, or
for the pages by which it grows, and nothing is mapped there. -/
def BrkGranted (p : Pmm) (vmas : List Vma) (newBrk : Nat) (k : Kmalloc) : Prop :=
  newBrk ≤ userHeapStart + userHeapMaxSize ∧
    match heapVma vmas with
    | none => k.next.1 = true
    | some (pos, heap) => heap.end < newBrk →
      vmaIntersects vmas heap.end newBrk (some pos) = false ∧
        wrap32 (newBrk - heap.end + 0xFFF) / 0x1000 ≤ pmmGetFreePages p / 2

/-- The areas after a granted request. -/
def brkVmas (vmas : List Vma) (newBrk : Nat) : List Vma :=
  match heapVma vmas with
  | none => vmaInsert ⟨userHeapStart, pageUp newBrk, vmaRead ||| vmaWrite⟩ vmas
  | some (pos, heap) => vmas.set pos { heap with «end» := newBrk }

/-- A granted request moves the end of the heap area, or makes the area; another one changes
nothing. -/
theorem sysBrk_cases (p : Pmm) (vmas : List Vma) {newBrk : Nat} (hbrk : newBrk ≠ 0) (k : Kmalloc) :
    (BrkGranted p vmas newBrk k → (sysBrk p vmas newBrk k).1 = brkVmas vmas newBrk ∧
        (sysBrk p vmas newBrk k).2.1 = 0) ∧
      (¬BrkGranted p vmas newBrk k → (sysBrk p vmas newBrk k).1 = vmas ∧
        (sysBrk p vmas newBrk k).2.1 = -eNoMem) := by
  unfold sysBrk BrkGranted brkVmas
  rw [if_neg hbrk]
  by_cases hlimit : userHeapStart + userHeapMaxSize < newBrk
  · rw [if_pos hlimit]
    exact ⟨fun h => absurd h.1 (Nat.not_le.mpr hlimit), fun _ => ⟨rfl, rfl⟩⟩
  rw [if_neg hlimit]
  have hle := Nat.not_lt.mp hlimit
  cases hheap : heapVma vmas with
  | none =>
    have hbelow : ¬(userHeapStart ≥ kernelSpaceStart ∨ newBrk > kernelSpaceStart) := by
      unfold userHeapStart userHeapMaxSize kernelSpaceStart at *
      omega
    dsimp only
    unfold vmaAdd
    rw [if_neg hbelow]
    obtain ⟨outcome, k'⟩ := k.next
    cases outcome with
    | false => exact ⟨fun h => absurd h.2 Bool.false_ne_true, fun _ => ⟨rfl, rfl⟩⟩
    | true => exact ⟨fun _ => ⟨rfl, rfl⟩, fun h => absurd ⟨hle, rfl⟩ h⟩
  | some found =>
    obtain ⟨pos, heap⟩ := found
    dsimp only
    by_cases hgrow : heap.end < newBrk
    · rw [if_pos hgrow]
      by_cases hover : vmaIntersects vmas heap.end newBrk (some pos) = true
      · rw [if_pos hover]
        refine ⟨fun h => ?_, fun _ => ⟨rfl, rfl⟩⟩
        rw [(h.2 hgrow).1] at hover
        cases hover
      · rw [if_neg hover]
        by_cases hmemory : pmmGetFreePages p / 2 < wrap32 (newBrk - heap.end + 0xFFF) / 0x1000
        · rw [if_pos hmemory]
          exact ⟨fun h => absurd (h.2 hgrow).2 (Nat.not_le.mpr hmemory), fun _ => ⟨rfl, rfl⟩⟩
        · rw [if_neg hmemory]
          refine ⟨fun _ => ⟨rfl, rfl⟩, fun h => absurd ⟨hle, fun _ => ⟨?_, ?_⟩⟩ h⟩
          · exact (Bool.not_eq_true _).mp hover
          · exact Nat.not_lt.mp hmemory
    · rw [if_neg hgrow]
      have hgranted : newBrk ≤ userHeapStart + userHeapMaxSize ∧ (heap.end < newBrk →
          vmaIntersects vmas heap.end newBrk (some pos) = false ∧
            wrap32 (newBrk - heap.end + 0xFFF) / 0x1000 ≤ pmmGetFreePages p / 2) :=
        ⟨hle, fun h => absurd h hgrow⟩
      by_cases hshrink : newBrk < heap.end
      · rw [if_pos hshrink]
        exact ⟨fun _ => ⟨rfl, rfl⟩, fun h => absurd hgranted h⟩
      · rw [if_neg hshrink]
        obtain rfl : newBrk = heap.end := by omega
        have hself : vmas.set pos heap = vmas := by
          obtain ⟨front, rest, hat, rfl⟩ := heapVma_eq_some.mp hheap
          rw [(hat.setEnd heap.end).1]
          exact hat.split.symm
        exact ⟨fun _ => ⟨hself.symm, rfl⟩, fun h => absurd hgranted h⟩

section

variable {vmas front rest : List Vma} {heap : Vma} {newBrk : Nat}

/-- The heap area covers `[USER_HEAP_START, newBrk)`, and no other area has an address in it. -/
def HeapExact (vmas : List Vma) (newBrk : Nat) : Prop :=
  ∃ front heap rest, HeapAt vmas front heap rest ∧ heap.end = newBrk ∧
    ∀ v ∈ front ++ rest, ∀ addr, userHeapStart ≤ addr → addr < newBrk → ¬v.Holds addr

/-- No area apart from the heap area has an address between the start of the heap and
`newBrk`. -/
def HeapRoom (vmas : List Vma) (newBrk : Nat) : Prop :=
  match heapVma vmas with
  | none => ∀ v ∈ vmas, ∀ addr, userHeapStart ≤ addr → addr < newBrk → ¬v.Holds addr
  | some (pos, _) => ∀ v ∈ vmas.eraseIdx pos, ∀ addr, userHeapStart ≤ addr → addr < newBrk →
      ¬v.Holds addr

theorem HeapAt.eraseIdx {vmas front rest : List Vma} {heap : Vma}
    (h : HeapAt vmas front heap rest) : vmas.eraseIdx front.length = front ++ rest := by
  rw [h.split, List.eraseIdx_append_of_length_le le_rfl, Nat.sub_self, List.eraseIdx_zero,
    List.tail_cons]

theorem heapExact_iff (h : HeapAt vmas front heap rest) :
    HeapExact vmas newBrk ↔ heap.end = newBrk ∧
      ∀ v ∈ front ++ rest, ∀ addr, userHeapStart ≤ addr → addr < newBrk → ¬v.Holds addr := by
  constructor
  · rintro ⟨front', heap', rest', h', hend, hothers⟩
    obtain ⟨rfl, rfl, rfl⟩ := h.unique h'
    exact ⟨hend, hothers⟩
  · rintro ⟨hend, hothers⟩
    exact ⟨front, heap, rest, h, hend, hothers⟩

/-- Which areas are right after a granted request. -/
theorem heapExact_brkVmas_iff (vmas : List Vma) (newBrk : Nat) :
    HeapExact (brkVmas vmas newBrk) newBrk ↔
      (heapVma vmas = none → pageUp newBrk = newBrk) ∧ HeapRoom vmas newBrk := by
  unfold brkVmas HeapRoom
  cases hheap : heapVma vmas with
  | none =>
    obtain ⟨front, rest, hsplit, hinsert⟩ :=
      vmaInsert_split ⟨userHeapStart, pageUp newBrk, vmaRead ||| vmaWrite⟩ vmas
    have hnone := heapVma_none hheap
    have hat : HeapAt (vmaInsert ⟨userHeapStart, pageUp newBrk, vmaRead ||| vmaWrite⟩ vmas) front
        ⟨userHeapStart, pageUp newBrk, vmaRead ||| vmaWrite⟩ rest :=
      ⟨hinsert, rfl, fun v hv => hnone v (hsplit ▸ List.mem_append_left _ hv)⟩
    rw [heapExact_iff hat, ← hsplit]
    simp
  | some found =>
    obtain ⟨pos, heap⟩ := found
    obtain ⟨front, rest, hat, rfl⟩ := heapVma_eq_some.mp hheap
    obtain ⟨hset, hat'⟩ := hat.setEnd newBrk
    dsimp only
    rw [hset, heapExact_iff hat', hat.eraseIdx]
    simp

end

/-- A page that is made on demand reads as zero. -/
theorem VmInv.demandPage_zero {m m' : Machine} {pds : Finset Nat} {own : Nat → Owner} {pd : Nat}
    (h : VmInv m pds own) (vmas : List Vma) {addr : Nat} (rw : Bool) (reasons : DemandReasons)
    (hpd : pd ∈ pds) (haddr : addr < kernelSpaceStart)
    (hnone : siteEntry m (pd, dirIndex addr, tableIndex addr) = none)
    (hres : EnclaveOS.demandPage m pd vmas addr rw reasons = (m', .resumed)) :
    userByte m' pd addr = some 0 := by
  rcases h.demandPage_cases vmas rw reasons hpd haddr hnone with
    ⟨m₁, -, reason, hkilled, -⟩ | ⟨m₁, own₁, vma, n, hresumed, -, -, hmax, hwritten, hzero⟩
  · rw [hkilled] at hres
    cases hres
  · rw [hresumed] at hres
    cases hres
    have hentry := hwritten.entries _ (index_mem_userSites hpd haddr)
    rw [Function.update_self, if_pos ((mapFlags_demand vma).mapped n)] at hentry
    unfold userByte
    rw [hentry, Option.map_some, (mapFlags_demand vma).frame hmax, hzero]
    simp [byteOf]

section Load

variable {s s' : System} {pds : Finset Nat} {own : Nat → Owner} {p pd addr : Nat} {task : Process}

/-- A load of Ring 3 from a page that is not mapped finds zero, or ends the process. -/
theorem SysInv.load_zero (h : SysInv s pds own) (hrun : s.running p = some (task, pd))
    (haddr : addr < kernelSpaceStart) (hmapped : isMapped s.machine pd addr = false)
    (hload : s.access p task pd addr .load true = some s') :
    userByte s'.machine pd addr = some 0 ∨ s'.running p = none := by
  have hpd := h.mem_of_running hrun
  have hdir := (System.running_eq_some.mp hrun).2
  have hcode : cpuFault kernelCr0 s.machine pd addr false true =
      some ⟨false, false, true, false⟩ := by
    unfold cpuFault
    rw [hmapped]
    rfl
  obtain ⟨own', hfault⟩ := @VmInv.pageFaultHandler _ _ _ _ h.inv task.toFaultTask addr
    ⟨false, false, true, false⟩ hpd hdir haddr (siteEntry_of_fault hcode)
  unfold System.access at hload
  rw [show Access.load.isWrite = false from rfl, hcode] at hload
  dsimp only at hload
  cases hres : EnclaveOS.pageFaultHandler s.machine (some task.toFaultTask) addr
    ⟨false, false, true, false⟩ with
  | mk m outcome =>
    rw [hres] at hload hfault
    cases outcome with
    | halted => cases hload
    | killed reason =>
      cases hload
      have hboot : pd ≠ m.bootPageDirectory := by
        rw [hfault.kernel.boot]
        exact h.ne_boot hpd
      right
      unfold System.exitTask
      rw [System.setMachine_machine, SysInv.releaseMemory_eq hdir hboot]
      unfold System.running
      rw [System.setProc_proc, if_pos rfl]
    | resumed =>
      cases hload
      left
      unfold EnclaveOS.pageFaultHandler at hres
      dsimp only at hres
      by_cases hnull : addr < 0x1000
      · rw [if_pos hnull] at hres
        cases hres
      rw [if_neg hnull, if_neg (by decide), hdir] at hres
      dsimp only at hres
      rw [if_neg (by omega), if_neg (by decide)] at hres
      unfold EnclaveOS.userFault at hres
      by_cases hboot : pd = s.machine.bootPageDirectory
      · rw [if_pos hboot] at hres
        cases hres
      rw [if_neg hboot, if_neg (by decide), if_pos (by decide)] at hres
      exact h.inv.demandPage_zero task.vmaHead false _ hpd haddr (siteEntry_of_not_mapped hmapped)
        hres

end Load

/-- The break that a process sees. -/
def heapBreak (vmas : List Vma) : Nat :=
  match heapVma vmas with
  | none => userHeapStart
  | some (_, heap) => heap.end

/-- What a call of `sys_brk` should do: the new break is seen, lies in the bounds of the heap and
ends the heap area, which shares no address with another one; a call that is refused changes nothing;
and the pages that the heap gets or gets back read as zero, as long as there is memory for them. -/
structure BrkCorrect (s : System) (p : Nat) (task : Process) (pd newBrk : Nat) (k : Kmalloc) :
    Prop where
  granted : (sysBrk s.machine.pmm task.vmaHead newBrk k).2.1 = 0 →
    (∀ k', (sysBrk s.machine.pmm (sysBrk s.machine.pmm task.vmaHead newBrk k).1 0 k').2.1 = newBrk) ∧
      userHeapStart ≤ newBrk ∧ newBrk ≤ userHeapStart + userHeapMaxSize ∧
      HeapExact (sysBrk s.machine.pmm task.vmaHead newBrk k).1 newBrk
  refused : (sysBrk s.machine.pmm task.vmaHead newBrk k).2.1 ≠ 0 →
    (sysBrk s.machine.pmm task.vmaHead newBrk k).1 = task.vmaHead
  zero : (sysBrk s.machine.pmm task.vmaHead newBrk k).2.1 = 0 →
    ∀ addr, userHeapStart ≤ addr → heapBreak task.vmaHead ≤ pageDown addr → addr < newBrk →
      ∀ s' s'', SysOp.step s (.brk p newBrk k) = some s' →
        SysOp.step s' (.access p addr .load true) = some s'' →
          userByte s''.machine pd addr = some 0 ∨ s''.running p = none

/-- A request that is granted does not lie below the heap, is at a page boundary where the heap area
is made anew, and finds no other area in the heap. -/
def BrkSound (p : Pmm) (vmas : List Vma) (newBrk : Nat) (k : Kmalloc) : Prop :=
  BrkGranted p vmas newBrk k → userHeapStart ≤ newBrk ∧
    (heapVma vmas = none → pageUp newBrk = newBrk) ∧ HeapRoom vmas newBrk

/-- The heap gives back no page that is mapped. -/
def SysOp.ShrinksClean (s : System) : SysOp → Prop
  | .brk p newBrk _ => ∀ task pd, s.running p = some (task, pd) →
      BrkFree s.machine pd task.vmaHead newBrk
  | _ => True

theorem SysOp.ShrinksClean.respectsAreas {s : System} {op : SysOp} (h : op.ShrinksClean s) :
    op.RespectsAreas (fun _ _ => True) s := by
  cases op with
  | brk p newBrk k => exact h
  | startInit file k => exact fun _ _ _ _ _ _ _ _ => trivial
  | exec p file k => exact fun _ _ _ _ _ _ _ _ _ _ => trivial
  | munmap p addr len k =>
    exact fun _ _ _ _ _ _ _ _ _ _ _ _ _ _ _ _ _ => trivial
  | mprotect p addr len prot k => exact fun _ _ _ _ _ _ _ _ _ _ _ _ _ _ => trivial
  | _ => trivial

/-- The break after a granted request. -/
theorem sysBrk_zero {vmas : List Vma} {newBrk : Nat} (h : HeapExact vmas newBrk)
    (hmax : newBrk ≤ userHeapStart + userHeapMaxSize) (p : Pmm) (k : Kmalloc) :
    (sysBrk p vmas 0 k).2.1 = newBrk := by
  obtain ⟨front, heap, rest, hat, hend, -⟩ := h
  have hsmall : newBrk < 2147483648 := by
    unfold userHeapStart userHeapMaxSize at hmax
    omega
  unfold sysBrk
  rw [if_pos rfl, hat.heapVma]
  dsimp only
  rw [hend, int32, if_pos hsmall]

section Correct

variable {s s' : System} {pds : Finset Nat} {own : Nat → Owner} {p pd newBrk addr : Nat}
  {task : Process} {k : Kmalloc}

/-- No page is mapped above the break, where the heap is the only area. -/
theorem not_mapped_above (hall : s.AllAllowed fun _ _ => True)
    (hrun : s.running p = some (task, pd)) (hroom : HeapRoom task.vmaHead newBrk)
    (hstart : userHeapStart ≤ addr) (hbreak : heapBreak task.vmaHead ≤ pageDown addr)
    (haddr : addr < newBrk) (hlimit : newBrk ≤ kernelSpaceStart) :
    isMapped s.machine pd addr = false := by
  rw [← Bool.not_eq_true]
  intro hmapped
  have hi := (dirIndex_lt_768_iff addr).mpr (by omega)
  obtain ⟨v, hv, hholds, -⟩ :=
    hall p task pd hrun _ hi _ (tableIndex_lt addr) _ (siteEntry_of_mapped hmapped)
  rw [entryPage_index] at hholds
  have hlow : userHeapStart ≤ pageDown addr := by
    unfold pageDown userHeapStart at *
    omega
  have hhigh : pageDown addr < newBrk := lt_of_le_of_lt (pageDown_le addr) haddr
  unfold HeapRoom at hroom
  unfold heapBreak at hbreak
  cases hheap : heapVma task.vmaHead with
  | none =>
    rw [hheap] at hroom
    exact hroom v hv _ hlow hhigh hholds
  | some found =>
    obtain ⟨pos, heap⟩ := found
    rw [hheap] at hroom hbreak
    dsimp only at hroom hbreak
    obtain ⟨n, hn⟩ := List.getElem?_of_mem hv
    by_cases hpos : n = pos
    · rw [hpos, (heapVma_some hheap).1, Option.some.injEq] at hn
      rw [← hn] at hholds
      exact absurd hholds.2 (Nat.not_lt.mpr hbreak)
    · exact hroom v (List.mem_eraseIdx_iff_getElem?.mpr ⟨n, hpos, hn⟩) _ hlow hhigh hholds

theorem SysInv.brkCorrect_iff (h : SysInv s pds own) (hall : s.AllAllowed fun _ _ => True)
    (hrun : s.running p = some (task, pd)) (hne : newBrk ≠ 0) :
    BrkCorrect s p task pd newBrk k ↔ BrkSound s.machine.pmm task.vmaHead newBrk k := by
  obtain ⟨hyes, hno⟩ := sysBrk_cases s.machine.pmm task.vmaHead hne k
  constructor
  · intro hcorrect hgranted
    obtain ⟨hvmas, hret⟩ := hyes hgranted
    obtain ⟨-, hstart, -, hexact⟩ := hcorrect.granted hret
    rw [hvmas, heapExact_brkVmas_iff] at hexact
    exact ⟨hstart, hexact⟩
  · intro hsound
    by_cases hgranted : BrkGranted s.machine.pmm task.vmaHead newBrk k
    · obtain ⟨hvmas, hret⟩ := hyes hgranted
      obtain ⟨hstart, hsplit⟩ := hsound hgranted
      have hexact := (heapExact_brkVmas_iff task.vmaHead newBrk).mpr hsplit
      refine ⟨fun _ => ?_, fun hneg => absurd hret hneg, fun _ => ?_⟩
      · rw [hvmas]
        exact ⟨fun k' => sysBrk_zero hexact hgranted.1 _ k', hstart, hgranted.1, hexact⟩
      · intro addr hlow hbreak haddr s' s'' hbrk hload
        have hlimit : newBrk ≤ kernelSpaceStart := hgranted.1.trans (by decide)
        have hmapped := not_mapped_above hall hrun hsplit.2 hlow hbreak haddr hlimit
        obtain ⟨hp, hpd⟩ := System.running_eq_some.mp hrun
        simp only [SysOp.step, hrun] at hbrk
        cases hbrk
        have hinv := h.setVmas hp h.inv (.refl s.machine own)
          (sysBrk s.machine.pmm task.vmaHead newBrk k).1
        have hrun' : (s.setVmas p task (sysBrk s.machine.pmm task.vmaHead newBrk k).1).running p =
            some ({ task with vmaHead := (sysBrk s.machine.pmm task.vmaHead newBrk k).1 }, pd) :=
          System.running_eq_some.mpr
            ⟨by rw [System.setVmas, System.setProc_proc, if_pos rfl], hpd⟩
        simp only [SysOp.step, hrun'] at hload
        exact SysInv.load_zero hinv hrun' (by omega) hmapped hload
    · obtain ⟨hvmas, hret⟩ := hno hgranted
      have hneg : (sysBrk s.machine.pmm task.vmaHead newBrk k).2.1 ≠ 0 := by
        rw [hret]
        decide
      exact ⟨fun hzero => absurd hzero hneg, fun _ => hvmas, fun hzero => absurd hzero hneg⟩

end Correct

/-- In every state reached by steps that respect the owners of frames and give back no page of the
heap that is mapped, a call of `sys_brk` does what it should exactly when it is refused or the
new break is sound. -/
theorem sys_brk_iff {image : BootImage} {info : BootInfo} {ram : Nat → Nat → Word} {s₀ s : System}
    (hboot : System.boot image info ram = some s₀)
    (hrun : Reach SysOp.step
      (fun s op => op.Possible s ∧ op.KeepsOwners s ∧ op.ShrinksClean s) s₀ s)
    {p pd newBrk : Nat} {task : Process} (hp : s.running p = some (task, pd)) (hne : newBrk ≠ 0)
    (k : Kmalloc) :
    BrkCorrect s p task pd newBrk k ↔ BrkSound s.machine.pmm task.vmaHead newBrk k := by
  have howners : Reach SysOp.step (fun s op => op.Possible s ∧ op.KeepsOwners s) s₀ s :=
    hrun.mono fun s op h => ⟨h.1, h.2.1⟩
  have hareas : Reach SysOp.step (fun s op => op.Possible s ∧ op.KeepsOwners s ∧
      op.RespectsAreas (fun _ _ => True) s) s₀ s :=
    hrun.mono fun s op h => ⟨h.1, h.2.1, h.2.2.respectsAreas⟩
  obtain ⟨pds, own, hinv⟩ := SysInv.run hboot howners
  exact hinv.brkCorrect_iff (SysInv.run_allowed pageRights_true hboot hareas) hp hne

/-- The first process of the small machine moves its break up by a page. -/
theorem sys_brk_sample : ∃ s task, SmallInit 3#32 s ∧ s.running 4107 = some (task, 4100) ∧
    BrkCorrect s 4107 task 4100 0x10001000 [] := by
  obtain ⟨s₀, s, hboot, hstep, hsmall⟩ := smallInit_rw
  have hrun := hsmall.running
  have hinit : (SysOp.startInit (smallFile 6) []).Possible s₀ ∧
      (SysOp.startInit (smallFile 6) []).KeepsOwners s₀ ∧
      (SysOp.startInit (smallFile 6) []).ShrinksClean s₀ := ⟨trivial, smallFile_fits, trivial⟩
  have hsound : BrkSound s.machine.pmm (smallVmas 3#32) 0x10001000 [] := by
    refine fun _ => ⟨by decide, by rintro ⟨⟩, ?_⟩
    change ∀ v ∈ ([⟨0x08048000, 0x08049000, 3#32⟩, ⟨0xBFFEF000, 0xBFFFF000, 3#32⟩] : List Vma), _
    simp only [List.forall_mem_cons, List.not_mem_nil, false_implies, implies_true, and_true,
      Vma.Holds, userHeapStart]
    constructor
    · intro addr hlow hhigh
      omega
    · intro addr hlow hhigh
      omega
  exact ⟨s, _, hsmall, hrun,
    (sys_brk_iff hboot (.next .start hinit hstep) hrun (by decide) []).mpr hsound⟩

/-- A break below the start of the heap is granted. -/
theorem brk_below_start : ¬∀ (image : BootImage) (info : BootInfo) (ram : Nat → Nat → Word)
    (s₀ s : System), System.boot image info ram = some s₀ →
    Reach SysOp.step (fun s op => op.Possible s) s₀ s → ∀ (p : Nat) (task : Process)
    (pd newBrk : Nat) (k : Kmalloc), s.running p = some (task, pd) → newBrk ≠ 0 →
    newBrk < 4294967296 → BrkCorrect s p task pd newBrk k := by
  intro hall
  obtain ⟨s₀, s, hboot, hstep, hsmall⟩ := smallInit_rw
  have hrun := hsmall.running
  have hinit : (SysOp.startInit (smallFile 6) []).Possible s₀ := trivial
  have hcorrect := hall _ _ _ s₀ s hboot (.next .start hinit hstep) 4107 _ 4100 0x1000 [] hrun
    (by decide) (by decide)
  have hret : (sysBrk s.machine.pmm (smallVmas 3#32) 0x1000 []).2.1 = 0 := rfl
  exact absurd (hcorrect.granted hret).2.1 (by decide)

end EnclaveOS
