import EnclaveOS.Memory.Machine

/-!
# Paging - mapping, protection and whole address spaces

The page-table functions of `paging.c`.  A page directory is named by its
frame.  Loops over entries are folds over the entry numbers in the order of the
source; a loop that can return early is a recursion over the same list.  A
`while (1) hlt` is the outcome `halted`.
-/

namespace EnclaveOS

open PageWord

/-- `vmm_map_page`, on the kernel's own directory; `none` is the halt
after a failed table allocation. -/
def vmmMapPage (m : Machine) (virt : Nat) (phys flags : Word) : Option Machine :=
  match ensureTable m m.bootPageDirectory (dirIndex virt) with
  | (_, false) => none
  | (m, true) =>
    some (m.setWord (frameOf (m.mem m.bootPageDirectory (dirIndex virt))) (tableIndex virt)
      (phys ||| flags))

/-- Result of `vmm_map_page_in_pd`: 0, -1, or the halt on a 4 MB entry. -/
inductive MapResult where
  | mapped (m : Machine)
  | failed (m : Machine)
  | halted

/-- The end of `vmm_map_page_in_pd`: a page still mapped at the entry is
freed, then the entry is overwritten. -/
def replaceEntry (m : Machine) (pt index : Nat) (w : Word) : Machine :=
  if isPresent (m.mem pt index) then
    (m.freePage (physOf (m.mem pt index))).setWord pt index w
  else m.setWord pt index w

/-- `vmm_map_page_in_pd`. -/
def vmmMapPageInPd (m : Machine) (pd virt : Nat) (phys flags : Word) : MapResult :=
  if hasFlag (m.mem pd (dirIndex virt)) pagePs then .halted
  else
    match ensureTable m pd (dirIndex virt) with
    | (m, false) => .failed m
    | (m, true) =>
      .mapped (replaceEntry m (frameOf (m.mem pd (dirIndex virt))) (tableIndex virt)
        (phys ||| flags))

/-- `vmm_unmap_page_in_pd`. -/
def vmmUnmapPageInPd (m : Machine) (pd virt : Nat) : Machine :=
  let pde := m.mem pd (dirIndex virt)
  if !isPresent pde then m
  else if isPresent (m.mem (frameOf pde) (tableIndex virt)) then
    m.setWord (frameOf pde) (tableIndex virt) 0#32
  else m

/-- `vmm_unmap_and_free_page_in_pd`. -/
def vmmUnmapAndFreePageInPd (m : Machine) (pd virt : Nat) : Machine :=
  let pde := m.mem pd (dirIndex virt)
  if !isPresent pde then m
  else
    let pte := m.mem (frameOf pde) (tableIndex virt)
    if isPresent pte then
      (m.freePage (physOf pte)).setWord (frameOf pde) (tableIndex virt) 0#32
    else m

/-- The entry `vmm_protect_page_in_pd` writes: the copy-on-write marker and
the caching attributes stay, and a marked page stays read-only. -/
def protectedEntry (pte flags : Word) : Word :=
  let cowPreserved := lowBits pte &&& pageCow
  let hwPreserved := lowBits pte &&& (pagePwt ||| pagePcd ||| pageGlobal)
  let flags := if cowPreserved ≠ 0#32 then flags &&& ~~~pageWrite else flags
  physOf pte ||| flags ||| cowPreserved ||| hwPreserved

/-- `vmm_protect_page_in_pd`. -/
def vmmProtectPageInPd (m : Machine) (pd virt : Nat) (flags : Word) : Machine :=
  let pde := m.mem pd (dirIndex virt)
  if !isPresent pde then m
  else
    let pte := m.mem (frameOf pde) (tableIndex virt)
    if isPresent pte then
      m.setWord (frameOf pde) (tableIndex virt) (protectedEntry pte flags)
    else m

/-- A protection change is one write where both levels are present. -/
theorem vmmProtectPageInPd_eq (m : Machine) (pd virt : Nat) (flags : Word) :
    vmmProtectPageInPd m pd virt flags =
      if isPresent (m.mem pd (dirIndex virt)) ∧
          isPresent (m.pteAt pd (dirIndex virt) (tableIndex virt)) then
        m.setWord (frameOf (m.mem pd (dirIndex virt))) (tableIndex virt)
          (protectedEntry (m.pteAt pd (dirIndex virt) (tableIndex virt)) flags)
      else m := by
  simp only [vmmProtectPageInPd, Machine.pteAt]
  cases isPresent (m.mem pd (dirIndex virt)) <;> simp

/-- An unmapping is one write and one free where both levels are present. -/
theorem vmmUnmapAndFreePageInPd_eq (m : Machine) (pd virt : Nat) :
    vmmUnmapAndFreePageInPd m pd virt =
      if isPresent (m.mem pd (dirIndex virt)) ∧
          isPresent (m.pteAt pd (dirIndex virt) (tableIndex virt)) then
        (m.freePage (physOf (m.pteAt pd (dirIndex virt) (tableIndex virt)))).setWord
          (frameOf (m.mem pd (dirIndex virt))) (tableIndex virt) 0#32
      else m := by
  simp only [vmmUnmapAndFreePageInPd, Machine.pteAt]
  cases isPresent (m.mem pd (dirIndex virt)) <;> simp

/-- `vmm_create_address_space`. -/
def vmmCreateAddressSpace (m : Machine) : Machine × Option Nat :=
  match m.allocPage with
  | (m, physPd) =>
    if physPd = 0#32 then (m, none)
    else ((m.clearFrame (frameOf physPd)).copyKernelHalf (frameOf physPd), some (frameOf physPd))

/-- Dropping the reference of one page-table entry. -/
def destroyEntry (pt : Nat) (m : Machine) (j : Nat) : Machine :=
  if isPresent (m.mem pt j) then m.decRef (physOf (m.mem pt j)) else m

/-- One directory entry of `vmm_destroy_address_space`. -/
def destroyDirEntry (pd : Nat) (m : Machine) (i : Nat) : Machine :=
  let pde := m.mem pd i
  if !isPresent pde then m
  else
    let dropped :=
      if hasFlag pde pagePs then
        (List.range 1024).foldl
          (fun m p => m.decRef ((pde &&& 0xFFC00000#32) + BitVec.ofNat 32 (p * 4096))) m
      else
        ((List.range 1024).foldl (destroyEntry (frameOf pde)) m).decRef (physOf pde)
    dropped.setWord pd i 0#32

theorem destroyDirEntry_eq (m : Machine) (pd i : Nat) (hsmall : hasFlag (m.mem pd i) pagePs = false) :
    destroyDirEntry pd m i =
      if isPresent (m.mem pd i) then
        (((List.range 1024).foldl (destroyEntry (frameOf (m.mem pd i))) m).decRef
          (physOf (m.mem pd i))).setWord pd i 0#32
      else m := by
  simp only [destroyDirEntry, hsmall]
  cases isPresent (m.mem pd i) <;> simp

/-- `vmm_destroy_address_space`. -/
def vmmDestroyAddressSpace (m : Machine) (pd : Nat) : Machine :=
  if pd = m.bootPageDirectory then m
  else ((List.range 768).foldl (destroyDirEntry pd) m).freePage (frameAddr pd)

/-- The copy-on-write form of a page-table entry. -/
def cowEntry (pte : Word) : Word :=
  physOf pte ||| ((lowBits pte &&& ~~~pageWrite) ||| pageCow)

/-- One page-table entry of `vmm_clone_address_space`: the frame gains a
reference, and both tables get the copy-on-write entry. -/
def cloneEntry (parentPt childPt : Nat) (m : Machine) (j : Nat) : Machine :=
  let pte := m.mem parentPt j
  if !isPresent pte then m
  else
    ((m.incRef (physOf pte)).setWord childPt j (cowEntry pte)).setWord parentPt j (cowEntry pte)

/-- One directory entry of `vmm_clone_address_space`; the flag is false
when no page table can be allocated. -/
def cloneDirEntry (parentPd childPd : Nat) (m : Machine) (i : Nat) : Machine × Bool :=
  let pde := m.mem parentPd i
  if !isPresent pde then (m, true)
  else if hasFlag pde pagePs then
    ((List.range 1024).foldl
      (fun m p => m.incRef ((pde &&& 0xFFC00000#32) + BitVec.ofNat 32 (p * 4096)))
      (m.setWord childPd i pde), true)
  else
    match m.allocPage with
    | (m, ptPhys) =>
      if ptPhys = 0#32 then (m, false)
      else
        (((List.range 1024).foldl (cloneEntry (frameOf pde) (frameOf ptPhys))
            (m.clearFrame (frameOf ptPhys))).setWord childPd i
          (ptPhys ||| pagePresent ||| pageWrite ||| pageUser), true)

/-- The loop over the user half of the parent's directory. -/
def cloneUserHalf (parentPd childPd : Nat) : List Nat → Machine → Machine × Bool
  | [], m => (m, true)
  | i :: rest, m =>
    match cloneDirEntry parentPd childPd m i with
    | (m, false) => (m, false)
    | (m, true) => cloneUserHalf parentPd childPd rest m

/-- `vmm_clone_address_space`: the child's directory, or none when memory
runs out and what was built is destroyed again. -/
def vmmCloneAddressSpace (m : Machine) (parentPd : Nat) : Machine × Option Nat :=
  match m.allocPage with
  | (m, physPd) =>
    if physPd = 0#32 then (m, none)
    else
      let childPd := frameOf physPd
      match cloneUserHalf parentPd childPd (List.range 768)
          ((m.clearFrame childPd).copyKernelHalf childPd) with
      | (m, true) => (m, some childPd)
      | (m, false) => (vmmDestroyAddressSpace m childPd, none)

/-- The clone starts as `vmm_create_address_space` does. -/
theorem vmmCloneAddressSpace_eq (m : Machine) (parentPd : Nat) :
    vmmCloneAddressSpace m parentPd =
      match vmmCreateAddressSpace m with
      | (m, none) => (m, none)
      | (m, some childPd) =>
        match cloneUserHalf parentPd childPd (List.range 768) m with
        | (m, true) => (m, some childPd)
        | (m, false) => (vmmDestroyAddressSpace m childPd, none) := by
  unfold vmmCloneAddressSpace vmmCreateAddressSpace
  generalize m.allocPage = res
  obtain ⟨m₁, physPd⟩ := res
  by_cases hzero : physPd = 0#32
  · simp only [if_pos hzero]
  · simp only [if_neg hzero]

end EnclaveOS
