import EnclaveOS.Memory.CloneSpec
import EnclaveOS.Memory.Fault

/-!
# FaultSpec - page faults keep the ownership invariant

A page fault of one process at a user address changes at most the entry of that
address in that process's directory, and no byte of any user page.
-/

namespace EnclaveOS

open PageWord RefCount

private theorem isLow_ownedFlags (pte : Word) :
    IsLow ((lowBits pte &&& ~~~pageCow) ||| pageWrite) :=
  isLow_or (isLow_and_left _ (isLow_lowBits pte)) (by decide)

private theorem present_ownedFlags {pte : Word} (h : isPresent pte = true) :
    hasFlag ((lowBits pte &&& ~~~pageCow) ||| pageWrite) pagePresent = true := by
  rw [hasFlag_or, hasFlag_and_not_of_disjoint _ (by decide), hasFlag_lowBits _ (by decide),
    show hasFlag pte pagePresent = true from h, Bool.true_or]

private theorem cow_ownedFlags (pte : Word) :
    hasFlag ((lowBits pte &&& ~~~pageCow) ||| pageWrite) pageCow = false := by
  rw [hasFlag_or, hasFlag_and_not_self, Bool.false_or]
  decide

@[simp]
theorem frameOf_ownedEntry (pte : Word) : frameOf (ownedEntry pte) = frameOf pte := by
  rw [ownedEntry, frameOf_or (isLow_ownedFlags pte), frameOf_physOf]

theorem isPresent_ownedEntry {pte : Word} (h : isPresent pte = true) :
    isPresent (ownedEntry pte) = true := by
  rw [isPresent, ownedEntry, hasFlag_or, present_ownedFlags h, Bool.or_true]

theorem pageCow_ownedEntry (pte : Word) : hasFlag (ownedEntry pte) pageCow = false := by
  rw [ownedEntry, hasFlag_or, cow_ownedFlags, hasFlag_physOf _ (by decide), Bool.or_self]

theorem mapFlags_copied {pte : Word} (h : isPresent pte = true) :
    MapFlags ((lowBits pte &&& ~~~pageCow) ||| pageWrite) :=
  ⟨isLow_ownedFlags pte, present_ownedFlags h, cow_ownedFlags pte⟩

@[simp]
theorem frameOf_softEntry (pte : Word) : frameOf (softEntry pte) = frameOf pte := by
  rw [softEntry, frameOf_or (isLow_or (isLow_lowBits pte) (by decide)), frameOf_physOf]

theorem isPresent_softEntry {pte : Word} (h : isPresent pte = true) :
    isPresent (softEntry pte) = true := by
  rw [isPresent, softEntry, hasFlag_or, hasFlag_or, hasFlag_lowBits _ (by decide),
    show hasFlag pte pagePresent = true from h, Bool.true_or, Bool.or_true]

theorem pageCow_softEntry (pte : Word) : hasFlag (softEntry pte) pageCow = hasFlag pte pageCow := by
  have hwrite : hasFlag pageWrite pageCow = false := by decide
  rw [softEntry, hasFlag_or, hasFlag_or, hasFlag_lowBits _ (by decide),
    hasFlag_physOf _ (by decide), hwrite, Bool.or_false, Bool.false_or]

theorem mapFlags_demand (vma : Vma) : MapFlags (demandFlags vma) := by
  unfold demandFlags
  split_ifs
  · exact ⟨by decide, by decide, by decide⟩
  · exact ⟨by decide, by decide, by decide⟩

namespace VmInv

variable {m : Machine} {pds : Finset Nat} {own : Nat → Owner} {pd : Nat}

/-- What a fault of one process at `(pd, i, j)` may change. -/
structure FaultStep (m : Machine) (pds : Finset Nat) (own : Nat → Owner) (pd i j : Nat)
    (m' : Machine) (own' : Nat → Owner) : Prop where
  inv : VmInv m' pds own'
  kernel : KernelFrame m own m' own'
  entries : ∀ s ∈ userSites pds, s ≠ (pd, i, j) → siteEntry m' s = siteEntry m s
  data : ∀ f, own f = .page → m'.mem f = m.mem f

theorem FaultStep.refl (h : VmInv m pds own) (pd i j : Nat) : FaultStep m pds own pd i j m own :=
  ⟨h, KernelFrame.refl m own, fun _ _ _ => rfl, fun _ _ => rfl⟩

/-- A fault of one process leaves the user half of another. -/
theorem FaultStep.space {m' : Machine} {own' : Nat → Owner} {i j other : Nat} (h : VmInv m pds own)
    (hstep : FaultStep m pds own pd i j m' own') (hother : other ∈ pds) (hne : other ≠ pd) :
    SpaceKept m m' other := by
  apply SpaceKept.of_entries hother
  · rintro s hs rfl
    apply hstep.entries s hs
    rintro rfl
    exact hne rfl
  · exact fun s hs _ f hf => hstep.data f (h.page_of_frame hs hf)

/-- Rewriting the flags of the faulting entry. -/
theorem setFlags_faultStep (h : VmInv m pds own) {i j : Nat} {w : Word} (hpd : pd ∈ pds)
    (hi : i < 768) (hj : j < 1024) (hpde : isPresent (m.mem pd i) = true)
    (hpte : isPresent (m.pteAt pd i j) = true) (hw : isPresent w = true)
    (hframe : frameOf w = frameOf (m.pteAt pd i j)) (hplain : hasFlag w pageCow = false)
    (hone : m.pmm.refcounts (frameOf (m.pteAt pd i j)) = 1) :
    FaultStep m pds own pd i j (m.setWord (frameOf (m.mem pd i)) j w) own := by
  obtain ⟨hinv, hkernel⟩ := h.setFlags hpd hi hj hpde hpte hw hframe
    (fun _ => by rw [hframe]; exact hone) (by rw [hplain]; rintro ⟨⟩)
  refine ⟨hinv, hkernel, fun s hs hne => ?_, fun f hf => ?_⟩
  · rw [h.siteEntry_setPte hpd hi hpde j w hs, Function.update_of_ne hne]
  · exact Machine.setWord_mem_of_ne (h.data_ne_table hpd hi hpde (Or.inr hf)) _ _

/-- The private copy of a shared page. -/
theorem copyPage (h : VmInv m pds own) {i j n : Nat} (hpd : pd ∈ pds) (hi : i < 768)
    (hj : j < 1024) (hpde : isPresent (m.mem pd i) = true)
    (hpte : isPresent (m.pteAt pd i j) = true) (hfree : own n = .free) (hmax : n < pmmMaxPages)
    (hheld : VmInv (m.withPmm (m.pmm.take n)) pds (Function.update own n .held))
    (hkernel : KernelFrame m own (m.withPmm (m.pmm.take n)) (Function.update own n .held)) :
    ∃ own', FaultStep m pds own pd i j
      ((((m.withPmm (m.pmm.take n)).copyFrame n (frameOf (m.pteAt pd i j))).decRef
        (physOf (m.pteAt pd i j))).setWord (frameOf (m.mem pd i)) j
          (copiedEntry (m.pteAt pd i j) (frameAddr n))) own' := by
  set pte := m.pteAt pd i j with hptedef
  have hown : own (frameOf pte) = .page := h.page_of_pte hpd hi hj hpde hpte
  have hnf : ∀ f, own f ≠ .free → f ≠ n := by
    rintro f hf rfl
    exact hf hfree
  have hnheld : Function.update own n Owner.held n = .held := Function.update_self _ _ _
  -- the copy goes into the new frame
  set m₂ := (m.withPmm (m.pmm.take n)).copyFrame n (frameOf pte) with hm₂
  have hrest : ∀ g, g ≠ n → m₂.mem g = m.mem g := fun g hg => Machine.copyFrame_mem_of_ne hg _
  obtain ⟨h₂, hk₂⟩ := hheld.writeData (Or.inl hnheld) m₂ rfl rfl rfl hrest
  have hpd₂ : m₂.mem pd = m.mem pd := hrest pd (hnf pd (by rw [h.dir pd hpd]; rintro ⟨⟩))
  have htable₂ : m₂.mem (frameOf (m.mem pd i)) = m.mem (frameOf (m.mem pd i)) :=
    hrest _ (hnf _ (by rw [h.table pd hpd i hi hpde]; rintro ⟨⟩))
  have hpde₂ : isPresent (m₂.mem pd i) = true := by rw [hpd₂]; exact hpde
  have hpte₂ : m₂.pteAt pd i j = pte := by rw [Machine.pteAt, hpd₂, htable₂]; rfl
  have hown₂ : Function.update own n Owner.held (frameOf pte) = .page := by
    rw [Function.update_of_ne (hnf _ (by rw [hown]; rintro ⟨⟩)), hown]
  -- the old mapping is dropped, and the copy takes its place
  obtain ⟨h₃, hk₃⟩ := h₂.unmapDrop (w := 0#32) hpd hi hj hpde₂ (by rw [hpte₂]; exact hpte)
    isPresent_zero (by rw [hpte₂]; exact h₂.dropped_page hown₂)
  rw [hpte₂, ← physOf_eq_frameAddr] at h₃ hk₃
  have hpdt : pd ≠ frameOf (m₂.mem pd i) := h₂.table_ne_dir hpd hi hpde₂ hpd
  set m₃ := (m₂.withPmm (pmmDecRef m₂.pmm (physOf pte))).setWord (frameOf (m₂.mem pd i)) j 0#32
    with hm₃
  have hpd₃ : m₃.mem pd i = m₂.mem pd i :=
    congrFun (Machine.setWord_mem_of_ne (m := m₂.withPmm _) hpdt _ _) i
  have hn₃ : ownerAfterDrop (Function.update own n .held) m₂.pmm (frameOf pte) n = .held := by
    have hne : n ≠ frameOf pte := (hnf _ (by rw [hown]; rintro ⟨⟩)).symm
    unfold ownerAfterDrop
    split_ifs
    · rw [Function.update_of_ne hne, hnheld]
    · exact hnheld
  have hflags := mapFlags_copied hpte
  obtain ⟨h₄, hk₄⟩ := h₃.mapHeld (w := copiedEntry pte (frameAddr n)) hpd hi hj
    (by rw [hpd₃]; exact hpde₂)
    (by rw [Machine.pteAt, hpd₃, hm₃, Machine.setWord_mem_self]; exact isPresent_zero) hn₃
    (hflags.mapped n) (hflags.frame hmax)
    (by rw [copiedEntry, hflags.not_cow hmax]; rintro ⟨⟩)
  have hfinal : m₃.setWord (frameOf (m₃.mem pd i)) j (copiedEntry pte (frameAddr n)) =
      (m₂.decRef (physOf pte)).setWord (frameOf (m.mem pd i)) j
        (copiedEntry pte (frameAddr n)) := by
    rw [hpd₃, hm₃, Machine.setWord_setWord, hpd₂]
    rfl
  rw [hfinal] at h₄ hk₄
  refine ⟨_, h₄, ((hkernel.trans hk₂).trans hk₃).trans hk₄, ?_, ?_⟩
  · intro s hs hne
    have hentry := h₂.siteEntry_setPte hpd hi hpde₂ j (copiedEntry pte (frameAddr n)) hs
    rw [Function.update_of_ne hne, hpd₂] at hentry
    exact Eq.trans hentry (h.siteEntry_congr_of_ne (Or.inl hfree) hrest hs)
  · intro f hf
    rw [Machine.setWord_mem_of_ne (h.data_ne_table hpd hi hpde (Or.inr hf))]
    exact hrest f (hnf f (by rw [hf]; rintro ⟨⟩))

/-- Resolution of a present write fault. -/
theorem resolveWrite (h : VmInv m pds own) {i j : Nat} (hpd : pd ∈ pds) (hi : i < 768)
    (hj : j < 1024) (hpde : isPresent (m.mem pd i) = true)
    (hpte : isPresent (m.pteAt pd i j) = true) :
    ∃ own', FaultStep m pds own pd i j (resolveWrite m (frameOf (m.mem pd i)) j).1 own' := by
  have hown : own (frameOf (m.pteAt pd i j)) = .page := h.page_of_pte hpd hi hj hpde hpte
  have hkernelf : ∀ use, own (frameOf (m.pteAt pd i j)) ≠ .kernel use := by
    rw [hown]
    rintro use ⟨⟩
  have hlimit := h.lt_limit hkernelf
  have href : pmmGetRefcount m.pmm (physOf (m.pteAt pd i j)) =
      m.pmm.refcounts (frameOf (m.pteAt pd i j)) := by
    rw [physOf_eq_frameAddr, pmmGetRefcount_frameAddr _ (h.lt_maxPages hkernelf), if_pos hlimit]
  have hpos := (h.counted _ hown).2
  rw [resolveWrite_eq, href]
  split_ifs with hcow hlast hread hlast
  · exact ⟨own, h.setFlags_faultStep hpd hi hj hpde hpte (isPresent_ownedEntry hpte)
      (frameOf_ownedEntry _) (pageCow_ownedEntry _) (by omega)⟩
  · rcases h.allocPage with halloc | ⟨n, hfree, hmax, hnz, halloc, hheld, hkernel⟩
    · rw [halloc]
      exact ⟨own, FaultStep.refl h pd i j⟩
    · rw [halloc]
      simp only [hnz, if_false, frameOf_frameAddr hmax, frameOf_physOf]
      exact h.copyPage hpd hi hj hpde hpte hfree hmax hheld hkernel
  · have hplain : hasFlag (m.pteAt pd i j) pageCow = false := by simpa using hcow
    exact ⟨own, h.setFlags_faultStep hpd hi hj hpde hpte (isPresent_softEntry hpte)
      (frameOf_softEntry _) (by rw [pageCow_softEntry, hplain]) (by omega)⟩
  · exact ⟨own, FaultStep.refl h pd i j⟩
  · exact ⟨own, FaultStep.refl h pd i j⟩

/-- Demand paging at an address without a mapping ends the process and leaves every entry, or maps a
zeroed page with the protection of the area that it found. -/
theorem demandPage_cases (h : VmInv m pds own) (vmas : List Vma) {addr : Nat} (rw : Bool)
    (reasons : DemandReasons) (hpd : pd ∈ pds) (haddr : addr < kernelSpaceStart)
    (hnone : siteEntry m (pd, dirIndex addr, tableIndex addr) = none) :
    (∃ m' own' reason, demandPage m pd vmas addr rw reasons = (m', .killed reason) ∧
      FaultStep m pds own pd (dirIndex addr) (tableIndex addr) m' own' ∧
      siteEntry m' (pd, dirIndex addr, tableIndex addr) = none) ∨
    (∃ m' own' vma n, demandPage m pd vmas addr rw reasons = (m', .resumed) ∧
      vmaFind vmas addr = some vma ∧ hasFlag vma.flags vmaRead = true ∧ n < pmmMaxPages ∧
      EntryWritten m pds own pd (dirIndex addr) (tableIndex addr) (frameAddr n ||| demandFlags vma)
        m' own' ∧ ∀ j, m'.mem n j = 0#32) := by
  have hsame : ∀ reason, ∃ m' own' reason', (m, FaultOutcome.killed reason) =
      (m', FaultOutcome.killed reason') ∧
        FaultStep m pds own pd (dirIndex addr) (tableIndex addr) m' own' ∧
        siteEntry m' (pd, dirIndex addr, tableIndex addr) = none :=
    fun reason => ⟨m, own, reason, rfl, FaultStep.refl h _ _ _, hnone⟩
  unfold EnclaveOS.demandPage
  cases hfind : vmaFind vmas addr with
  | none => exact Or.inl (hsame _)
  | some vma =>
    dsimp only
    by_cases hread : (!hasFlag vma.flags vmaRead) = true
    · rw [if_pos hread]
      exact Or.inl (hsame _)
    rw [if_neg hread]
    by_cases hro : (rw && !hasFlag vma.flags vmaWrite) = true
    · rw [if_pos hro]
      exact Or.inl (hsame _)
    rw [if_neg hro]
    by_cases hwx : (hasFlag vma.flags vmaWrite && hasFlag vma.flags vmaExec) = true
    · rw [if_pos hwx]
      exact Or.inl (hsame _)
    rw [if_neg hwx]
    rcases h.allocPage with halloc | ⟨n, hfree, hmax, hnz, halloc, hheld, hkernel⟩
    · rw [halloc]
      exact Or.inl (hsame _)
    · rw [halloc]
      simp only [hnz, if_false, frameOf_frameAddr hmax]
      have hmap := h.mapZeroed hpd ((pageDown_le addr).trans_lt haddr) (mapFlags_demand vma) (by
          rw [dirIndex_pageDown, tableIndex_pageDown, hnone]
          rintro w ⟨⟩) hfree hheld hkernel
      rw [dirIndex_pageDown, tableIndex_pageDown] at hmap
      rcases hmap with ⟨m₃, own₃, hres, h₃, hk₃, hentries₃, hdata₃⟩ |
        ⟨m₃, own₃, hres, hwritten, hzero⟩
      · rw [hres]
        exact Or.inl ⟨_, own₃, _, rfl, ⟨h₃, hk₃, fun s hs _ => hentries₃ s hs, hdata₃⟩,
          (hentries₃ _ (index_mem_userSites hpd haddr)).trans hnone⟩
      · rw [hres]
        exact Or.inr ⟨m₃, own₃, vma, n, rfl, rfl, by simpa using hread, hmax, hwritten,
          fun j => congrFun hzero j⟩

/-- Demand paging at an address without a mapping. -/
theorem demandPage (h : VmInv m pds own) (vmas : List Vma) {addr : Nat} (rw : Bool)
    (reasons : DemandReasons) (hpd : pd ∈ pds) (haddr : addr < kernelSpaceStart)
    (hnone : siteEntry m (pd, dirIndex addr, tableIndex addr) = none) :
    ∃ own', FaultStep m pds own pd (dirIndex addr) (tableIndex addr)
      (demandPage m pd vmas addr rw reasons).1 own' ∧
      (demandPage m pd vmas addr rw reasons).2 ≠ .halted := by
  rcases h.demandPage_cases vmas rw reasons hpd haddr hnone with
    ⟨m', own', reason, hres, hstep, -⟩ | ⟨m', own', vma, n, hres, -, -, -, hwritten, -⟩
  · rw [hres]
    exact ⟨own', hstep, by rintro ⟨⟩⟩
  · rw [hres]
    refine ⟨own', ⟨hwritten.inv, hwritten.kernel, ?_, fun f hf => hwritten.data f (Or.inr hf)⟩,
      by rintro ⟨⟩⟩
    intro s hs hne
    rw [hwritten.entries s hs, Function.update_of_ne hne]

/-- The resolver acts only on pages of an area that may be read and written. -/
theorem vmmHandleUserWriteFault_area (m : Machine) (task : FaultTask) (addr : Nat) :
    (vmmHandleUserWriteFault m task addr).1 = m ∨
      ∃ vma, vmaFind task.vmaHead addr = some vma ∧ writableArea vma = true := by
  unfold EnclaveOS.vmmHandleUserWriteFault
  cases task.pdirVirt with
  | none => exact Or.inl rfl
  | some pd =>
    cases vmaFind task.vmaHead addr with
    | none =>
      left
      dsimp only
      split_ifs <;> rfl
    | some vma =>
      by_cases harea : writableArea vma = true
      · exact Or.inr ⟨vma, rfl, harea⟩
      · left
        rw [Bool.not_eq_true] at harea
        simp only [harea, Bool.not_false, if_true]
        split_ifs <;> rfl

/-- `vmm_handle_user_write_fault` below 3 GB. -/
theorem vmmHandleUserWriteFault (h : VmInv m pds own) {task : FaultTask} {addr : Nat}
    (hpd : pd ∈ pds) (htask : task.pdirVirt = some pd) (haddr : addr < kernelSpaceStart) :
    ∃ own', FaultStep m pds own pd (dirIndex addr) (tableIndex addr)
      (vmmHandleUserWriteFault m task addr).1 own' := by
  have hi := (dirIndex_lt_768_iff addr).mpr haddr
  have hrefl := FaultStep.refl h pd (dirIndex addr) (tableIndex addr)
  unfold EnclaveOS.vmmHandleUserWriteFault
  rw [htask]
  dsimp only
  rw [if_neg (Nat.not_le.mpr haddr)]
  by_cases hboot : pd = m.bootPageDirectory
  · rw [if_pos hboot]
    exact ⟨own, hrefl⟩
  rw [if_neg hboot]
  cases vmaFind task.vmaHead addr with
  | none => exact ⟨own, hrefl⟩
  | some vma =>
    dsimp only
    -- every exit before the resolver leaves the machine as it is
    split_ifs with _ hpde _ _ hpte
    all_goals first | exact ⟨own, hrefl⟩ | skip
    exact h.resolveWrite hpd hi (tableIndex_lt addr) (by simpa using hpde)
      (by simpa [Machine.pteAt] using hpte)

/-- The machine after a fault of a process below 3 GB: as it was, or after the resolver, or after
demand paging of an absent page. -/
theorem pageFaultHandler_machine (m : Machine) {task : FaultTask} {addr : Nat} {code : FaultCode}
    (htask : task.pdirVirt = some pd) (haddr : addr < kernelSpaceStart) :
    (pageFaultHandler m (some task) addr code).1 = m ∨
      (pageFaultHandler m (some task) addr code).1 =
        (EnclaveOS.vmmHandleUserWriteFault m task addr).1 ∨
      code.present = false ∧ ∃ reasons, (pageFaultHandler m (some task) addr code).1 =
        (EnclaveOS.demandPage m pd task.vmaHead addr code.rw reasons).1 := by
  have hstack : ¬ (kernelStackPoolStart ≤ addr ∧
      addr < kernelStackPoolStart + kernelStackPoolSize) := by
    unfold kernelStackPoolStart kernelSpaceStart at *
    omega
  have hheap : ¬ (kernelHeapVirt ≤ addr ∧ addr < kernelHeapEnd) := by
    unfold kernelHeapVirt kernelSpaceStart at *
    omega
  unfold pageFaultHandler
  dsimp only
  by_cases hnull : addr < 0x1000
  · rw [if_pos hnull]
    exact Or.inl rfl
  rw [if_neg hnull]
  by_cases hreserved : code.reserved = true
  · rw [if_pos hreserved]
    exact Or.inl rfl
  rw [if_neg hreserved, htask]
  dsimp only
  rw [if_neg fun hc => absurd hc.1 (Nat.not_le.mpr haddr)]
  by_cases hus : (!code.us) = true
  · -- Ring 0
    rw [if_pos hus]
    unfold kernelFault
    rw [if_neg hstack, if_neg fun hc => hheap hc.2.2, if_pos haddr]
    split_ifs with hboot hwrite hpresent
    · exact Or.inl rfl
    · exact Or.inr (Or.inl rfl)
    · exact Or.inr (Or.inr ⟨by simpa using hpresent, _, rfl⟩)
    · exact Or.inl rfl
  · -- Ring 3
    rw [if_neg hus]
    unfold userFault
    split_ifs with hboot hwrite hpresent
    · exact Or.inl rfl
    · exact Or.inr (Or.inl rfl)
    · exact Or.inr (Or.inr ⟨by simpa using hpresent, _, rfl⟩)
    · exact Or.inl rfl

/-- Every fault of a process at an address below 3 GB whose error code matches its
page tables. -/
theorem pageFaultHandler (h : VmInv m pds own) {task : FaultTask} {addr : Nat}
    {code : FaultCode} (hpd : pd ∈ pds) (htask : task.pdirVirt = some pd)
    (haddr : addr < kernelSpaceStart)
    (hcode : code.present = false →
      siteEntry m (pd, dirIndex addr, tableIndex addr) = none) :
    ∃ own', FaultStep m pds own pd (dirIndex addr) (tableIndex addr)
      (pageFaultHandler m (some task) addr code).1 own' := by
  rcases @pageFaultHandler_machine pd m task addr code htask haddr with
    hsame | hresolved | ⟨hpresent, reasons, hdemand⟩
  · rw [hsame]
    exact ⟨own, FaultStep.refl h pd (dirIndex addr) (tableIndex addr)⟩
  · rw [hresolved]
    exact h.vmmHandleUserWriteFault hpd htask haddr
  · rw [hdemand]
    obtain ⟨own', hstep, -⟩ := h.demandPage task.vmaHead code.rw reasons hpd haddr (hcode hpresent)
    exact ⟨own', hstep⟩

end VmInv

end EnclaveOS
