import EnclaveOS.Process.OwnerRuns

/-!
# CowRuns - no writable page is shared

Fork, the two kinds of page fault, `mprotect` and exit, over any number of
directories and in any order.  What the page tables need so that copy-on-write is
sound is split in two: `SpaceLayout` says which frame is a table and which a page,
and `CowSafe` speaks of reference counts and of the flags of the entries.  A state
with both is a state with `VmInv`.
-/

namespace EnclaveOS

open PageWord RefCount

/-- The machine and the directories of its processes. -/
structure Spaces where
  machine : Machine
  pds : Finset Nat

/-- What a process does to its page tables. -/
inductive SpaceOp
  | fork (parent : Nat)
  /-- A fault of the process, or of the kernel on its behalf. -/
  | fault (pd addr : Nat) (vmas : List Vma) (code : FaultCode)
  | writeFault (pd addr : Nat) (vmas : List Vma)
  | mprotect (pd addr len : Nat) (prot : Word)
  | exit (pd : Nat)

def SpaceOp.step (s : Spaces) : SpaceOp → Option Spaces
  | .fork parent =>
    match vmmCloneAddressSpace s.machine parent with
    | (m, none) => some ⟨m, s.pds⟩
    | (m, some child) => some ⟨m, insert child s.pds⟩
  | .fault pd addr vmas code =>
    match pageFaultHandler s.machine (some ⟨some pd, vmas⟩) addr code with
    | (_, .halted) => none
    | (m, _) => some ⟨m, s.pds⟩
  | .writeFault pd addr vmas =>
    some ⟨(vmmHandleUserWriteFault s.machine ⟨some pd, vmas⟩ addr).1, s.pds⟩
  | .mprotect pd addr len prot =>
    some ⟨(pageList addr (addr + len)).foldl
      (fun m p => vmmProtectPageInPd m pd p (protPteFlags prot)) s.machine, s.pds⟩
  | .exit pd => some ⟨vmmDestroyAddressSpace s.machine pd, s.pds.erase pd⟩

/-- The directory is that of a process; there are fewer than 65535 processes; the CPU
reports a missing page where there is none; the ranges of `mprotect` are whole
pages below 3 GB, never to be written and executed. -/
def SpaceOp.Offered (s : Spaces) : SpaceOp → Prop
  | .fork parent => parent ∈ s.pds ∧ s.pds.card < 65535
  | .fault pd addr _ code => pd ∈ s.pds ∧ addr < kernelSpaceStart ∧
    (code.present = false → isMapped s.machine pd addr = false)
  | .writeFault pd _ _ => pd ∈ s.pds
  | .mprotect pd addr len prot => pd ∈ s.pds ∧ addr % 4096 = 0 ∧ len % 4096 = 0 ∧
    addr + len ≤ kernelSpaceStart ∧ ¬(hasFlag prot protWrite ∧ hasFlag prot protExec)
  | .exit pd => pd ∈ s.pds

/-- The reference counts and the flags of the user entries. -/
structure CowSafe (s : Spaces) : Prop where
  /-- The reference count of a mapped frame is its number of mappings. -/
  counted : ∀ site ∈ userSites s.pds, ∀ f, siteFrame s.machine site = some f →
    s.machine.pmm.refcounts f = userRefs s.machine s.pds f
  /-- An entry without `PAGE_COW` maps a frame of reference count 1. -/
  plain : ∀ site ∈ userSites s.pds, ∀ w, siteEntry s.machine site = some w →
    hasFlag w pageCow = false → s.machine.pmm.refcounts (frameOf w) = 1
  /-- No entry has both flags. -/
  marked : ∀ site ∈ userSites s.pds, ∀ w, siteEntry s.machine site = some w →
    ¬(hasFlag w pageWrite = true ∧ hasFlag w pageCow = true)

/-- The frame of a writable entry is mapped there only. -/
def WritableAlone (s : Spaces) : Prop :=
  ∀ site ∈ userSites s.pds, ∀ w, siteEntry s.machine site = some w → hasFlag w pageWrite = true →
    ∀ other ∈ userSites s.pds, siteFrame s.machine other = some (frameOf w) → other = site

/-- Two entries for one frame would give it two references. -/
theorem CowSafe.writableAlone {s : Spaces} (h : CowSafe s) : WritableAlone s := by
  intro site hsite w hw hwrite other hother hframe
  have hplain : hasFlag w pageCow = false := by
    rw [← Bool.not_eq_true]
    exact fun hcow => h.marked site hsite w hw ⟨hwrite, hcow⟩
  have hone : userRefs s.machine s.pds (frameOf w) = 1 := by
    rw [← h.counted site hsite _ (siteFrame_of_entry hw)]
    exact h.plain site hsite w hw hplain
  exact site_unique hone.le hother hsite hframe (siteFrame_of_entry hw)

/-- The use of each frame, apart from reference counts and copy-on-write flags. -/
structure SpaceLayout (s : Spaces) (own : Nat → Owner) : Prop where
  limit : s.machine.pmm.maxPage ≤ pmmMaxPages
  free_iff : ∀ f < s.machine.pmm.maxPage, own f = .free ↔ s.machine.pmm.bitmap f = false
  beyond : ∀ f, s.machine.pmm.maxPage ≤ f → own f = .kernel .reserved
  zeroBit : s.machine.pmm.bitmap 0 = true
  zero : own 0 = .kernel .reserved
  boot : own s.machine.bootPageDirectory = .kernel .reserved
  dir : ∀ pd ∈ s.pds, own pd = .dir
  table : ∀ pd ∈ s.pds, ∀ i < 768, isPresent (s.machine.mem pd i) = true →
    own (frameOf (s.machine.mem pd i)) = .table pd i
  kernelHalf : ∀ pd ∈ s.pds, ∀ i, 768 ≤ i → i < 1024 →
    s.machine.mem pd i = s.machine.mem s.machine.bootPageDirectory i
  small : ∀ pd ∈ s.pds, ∀ i < 768, hasFlag (s.machine.mem pd i) pagePs = false
  page_iff : ∀ f, own f = .page ↔ ∃ site ∈ userSites s.pds, siteFrame s.machine site = some f
  /-- The frames of a process's own tables are not shared. -/
  one : ∀ f, (own f = .held ∨ ∃ pd i, own f = .table pd i) → s.machine.pmm.refcounts f = 1
  /-- A process maps a frame at most once. -/
  single : ∀ pd i j i' j' f, (pd, i, j) ∈ userSites s.pds → (pd, i', j') ∈ userSites s.pds →
    siteFrame s.machine (pd, i, j) = some f → siteFrame s.machine (pd, i', j') = some f →
    i = i' ∧ j = j'

/-- The layout and the copy-on-write facts make up the ownership invariant. -/
theorem vmInv_iff (s : Spaces) (own : Nat → Owner) :
    VmInv s.machine s.pds own ↔ SpaceLayout s own ∧ CowSafe s := by
  constructor
  · intro h
    have hmapped : ∀ f, own f = .page ↔
        ∃ site ∈ userSites s.pds, siteFrame s.machine site = some f := by
      intro f
      constructor
      · intro hf
        obtain ⟨hcount, hpos⟩ := h.counted f hf
        rw [hcount] at hpos
        exact refs_pos_iff.mp hpos
      · rintro ⟨site, hsite, hframe⟩
        exact h.page_of_frame hsite hframe
    constructor
    · exact ⟨h.limit, h.free_iff, h.beyond, h.zeroBit, h.zero, h.boot, h.dir, h.table,
        h.kernelHalf, h.small, hmapped, h.one, h.single⟩
    · constructor
      · exact fun site hsite f hf => (h.mapped_frame hsite hf).1
      · exact h.cow
      · intro site hsite w hw hboth
        have hread := h.marked site hsite w hw hboth.2
        rw [hboth.1] at hread
        cases hread
  · rintro ⟨h, hc⟩
    exact
      { limit := h.limit
        free_iff := h.free_iff
        beyond := h.beyond
        zeroBit := h.zeroBit
        zero := h.zero
        boot := h.boot
        dir := h.dir
        table := h.table
        kernelHalf := h.kernelHalf
        small := h.small
        page := fun site hsite w hw =>
          (h.page_iff _).mpr ⟨site, hsite, siteFrame_of_entry hw⟩
        counted := by
          intro f hf
          obtain ⟨site, hsite, hframe⟩ := (h.page_iff f).mp hf
          have hcount := hc.counted site hsite f hframe
          exact ⟨hcount, hcount ▸ refs_pos hsite hframe⟩
        one := h.one
        single := h.single
        cow := hc.plain
        marked := by
          intro site hsite w hw hcow
          rw [← Bool.not_eq_true]
          exact fun hwrite => hc.marked site hsite w hw ⟨hwrite, hcow⟩ }

/-- The address spaces are laid out somehow, and copy-on-write is sound. -/
def CowState (s : Spaces) : Prop :=
  (∃ own, SpaceLayout s own) ∧ CowSafe s

theorem cowState_iff (s : Spaces) : CowState s ↔ ∃ own, VmInv s.machine s.pds own := by
  simp only [vmInv_iff, CowState, exists_and_right]

/-- One operation. -/
theorem CowState.step {s s' : Spaces} {op : SpaceOp} (h : CowState s) (hop : op.Offered s)
    (hstep : op.step s = some s') : CowState s' := by
  obtain ⟨own, hinv⟩ := (cowState_iff s).mp h
  apply (cowState_iff s').mpr
  cases op with
  | fork parent =>
    obtain ⟨hparent, hcard⟩ := hop
    have hclone := hinv.vmmCloneAddressSpace hparent fun i hi j hj f hf =>
      refcount_lt hinv hcard hparent hi hj hf
    rcases hclone with ⟨m', own', hclone, hinv', -⟩ | ⟨m', child, own', hclone, -, hinv', -⟩
    · simp only [SpaceOp.step, hclone, Option.some.injEq] at hstep
      rw [← hstep]
      exact ⟨own', hinv'⟩
    · simp only [SpaceOp.step, hclone, Option.some.injEq] at hstep
      rw [← hstep]
      exact ⟨own', hinv'⟩
  | fault pd addr vmas code =>
    obtain ⟨hpd, haddr, hmissing⟩ := hop
    obtain ⟨own', hfault⟩ : ∃ own', VmInv.FaultStep s.machine s.pds own pd (dirIndex addr)
        (tableIndex addr) (pageFaultHandler s.machine (some ⟨some pd, vmas⟩) addr code).1 own' :=
      hinv.pageFaultHandler hpd rfl haddr fun hp => siteEntry_of_not_mapped (hmissing hp)
    simp only [SpaceOp.step] at hstep
    generalize pageFaultHandler s.machine (some ⟨some pd, vmas⟩) addr code = res at hstep hfault
    obtain ⟨m, outcome⟩ := res
    cases outcome with
    | halted => cases hstep
    | resumed =>
      cases hstep
      exact ⟨own', hfault.inv⟩
    | killed reason =>
      cases hstep
      exact ⟨own', hfault.inv⟩
  | writeFault pd addr vmas =>
    cases hstep
    by_cases haddr : addr < kernelSpaceStart
    · obtain ⟨own', hfault⟩ : ∃ own', VmInv.FaultStep s.machine s.pds own pd (dirIndex addr)
          (tableIndex addr) (vmmHandleUserWriteFault s.machine ⟨some pd, vmas⟩ addr).1 own' :=
        hinv.vmmHandleUserWriteFault hop rfl haddr
      exact ⟨own', hfault.inv⟩
    · -- the handler refuses addresses of the kernel
      have hrefused : vmmHandleUserWriteFault s.machine ⟨some pd, vmas⟩ addr =
          (s.machine, .errPerm) := if_pos (Nat.not_lt.mp haddr)
      rw [hrefused]
      exact ⟨own, hinv⟩
  | mprotect pd addr len prot =>
    obtain ⟨hpd, haddr, -, hend, -⟩ := hop
    cases hstep
    refine ⟨own, (protectPages_inv hinv hpd (mapFlags_prot prot) fun y hy => ?_).1⟩
    have hrange := mem_pageList_aligned haddr hy
    omega
  | exit pd =>
    obtain ⟨own', hinv', -⟩ := hinv.vmmDestroyAddressSpace hop
    cases hstep
    exact ⟨own', hinv'⟩

/-- Copy-on-write stays sound over every run. -/
theorem cow_never_shared_writable {s₀ s : Spaces} {own : Nat → Owner}
    (hlayout : SpaceLayout s₀ own) (hsafe : CowSafe s₀)
    (hrun : Reach SpaceOp.step (fun s op => op.Offered s) s₀ s) :
    CowSafe s ∧ WritableAlone s := by
  have hstate : CowState s := hrun.invariant ⟨⟨own, hlayout⟩, hsafe⟩
    fun _ _ _ h hop hstep => h.step hop hstep
  exact ⟨hstate.2, hstate.2.writableAlone⟩

/-- The first process of the small machine forks. -/
theorem cow_never_shared_writable_fork : ∃ t pds s, SmallInit 3#32 t ∧ 4100 ∈ pds ∧
    SpaceOp.step ⟨t.machine, pds⟩ (.fork 4100) = some s ∧ CowSafe s ∧ WritableAlone s := by
  obtain ⟨t₀, t, hboot, hreach, hsmall⟩ := smallInit_reach
  obtain ⟨pds, own, hinv⟩ := SysInv.run hboot hreach
  have hmem : 4100 ∈ pds := (hinv.dirs 4100).mpr ⟨4107, _, hsmall.task, rfl⟩
  obtain ⟨hlayout, hsafe⟩ := (vmInv_iff ⟨t.machine, pds⟩ own).mp hinv.inv
  have hoffered : (SpaceOp.fork 4100).Offered ⟨t.machine, pds⟩ :=
    ⟨hmem, lt_of_le_of_lt hinv.card_le (by decide)⟩
  obtain ⟨s, hfork⟩ : ∃ s, SpaceOp.step ⟨t.machine, pds⟩ (.fork 4100) = some s := by
    simp only [SpaceOp.step]
    split <;> exact ⟨_, rfl⟩
  obtain ⟨hcow, halone⟩ :=
    cow_never_shared_writable hlayout hsafe (.next .start hoffered hfork)
  exact ⟨t, pds, s, hsmall, hmem, hfork, hcow, halone⟩

end EnclaveOS
