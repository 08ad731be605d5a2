import EnclaveOS.Memory.SpaceClone
import EnclaveOS.Process.OwnerRuns

/-!
# ForkIsolation - the writes of one process and the bytes of another

After a fork the two processes share frames, read-only and marked.  A write of Ring 3 to
such a frame faults and gets a copy.  A write of the kernel on behalf of a process does
not fault: `CR0.WP` is clear, so it goes to the shared frame.
-/

namespace EnclaveOS

open PageWord RefCount

/-- The byte of a word, in little-endian order. -/
def byteOf (w : Word) (index : Nat) : BitVec 8 :=
  (w >>> (8 * index)).setWidth 8

theorem byteOf_setByte (w : Word) (b : BitVec 8) {index : Nat} (hindex : index < 4) :
    byteOf (setByte w index b) index = b := by
  apply BitVec.eq_of_getLsbD_eq
  intro i hi
  have hmask : (0xFF#32).getLsbD i = true := by
    have hbits : ∀ k < 8, (0xFF#32).getLsbD k = true := by decide
    exact hbits i hi
  have hlow : 8 * index + i < 32 := by omega
  simp only [byteOf, setByte, BitVec.getLsbD_setWidth, BitVec.getLsbD_ushiftRight,
    BitVec.getLsbD_or, BitVec.getLsbD_and, BitVec.getLsbD_not, BitVec.getLsbD_shiftLeft]
  simp [hi, hlow, hmask]
  omega

theorem exists_other_byte (b : BitVec 8) : ∃ value, value ≠ b :=
  ⟨b + 1#8, by bv_omega⟩

/-- The byte that a process with the directory `pd` reads at a user address, when the
address is mapped. -/
def userByte (m : Machine) (pd addr : Nat) : Option (BitVec 8) :=
  (siteEntry m (pd, dirIndex addr, tableIndex addr)).map fun w =>
    byteOf (m.mem (frameOf w) (addr % 4096 / 4)) (addr % 4096 % 4)

theorem userByte_congr {m m' : Machine} {pd addr : Nat}
    (hentry : siteEntry m' (pd, dirIndex addr, tableIndex addr) =
      siteEntry m (pd, dirIndex addr, tableIndex addr))
    (hdata : ∀ w, siteEntry m (pd, dirIndex addr, tableIndex addr) = some w →
      m'.mem (frameOf w) = m.mem (frameOf w)) : userByte m' pd addr = userByte m pd addr := by
  unfold userByte
  rw [hentry]
  cases hw : siteEntry m (pd, dirIndex addr, tableIndex addr) with
  | none => rfl
  | some w => simp only [Option.map_some, hdata w hw]

/-- A user half that stays reads the same. -/
theorem SpaceKept.byte {m m' : Machine} {pd addr : Nat} (h : SpaceKept m m' pd)
    (haddr : addr < kernelSpaceStart) : userByte m' pd addr = userByte m pd addr := by
  have hi := (dirIndex_lt_768_iff addr).mpr haddr
  have hframe := (h.entries _ hi _ (tableIndex_lt addr)).frame
  have hbyte : ∀ m : Machine, userByte m pd addr =
      (siteFrame m (pd, dirIndex addr, tableIndex addr)).map fun f =>
        byteOf (m.mem f (addr % 4096 / 4)) (addr % 4096 % 4) := by
    intro m
    rw [siteFrame, Option.map_map]
    rfl
  rw [hbyte, hbyte]
  change siteFrame m' _ = siteFrame m _ at hframe
  rw [hframe]
  cases hsite : siteFrame m (pd, dirIndex addr, tableIndex addr) with
  | none => rfl
  | some f => simp only [Option.map_some, h.data _ hi _ (tableIndex_lt addr) f hsite]

/-- No byte of a process other than `p` changes. -/
def OthersKept (s s' : System) (p : Nat) : Prop :=
  ∀ q task pd, q ≠ p → s.running q = some (task, pd) →
    ∀ addr < kernelSpaceStart, userByte s'.machine pd addr = userByte s.machine pd addr

/-- A write at `addr`, by the process `p` in Ring 3 (`us`) or by the kernel on its
behalf, changes no byte that another process reads. -/
def WriteIsolated (s : System) (p addr : Nat) (value : BitVec 8) (us : Bool) : Prop :=
  ∀ s', SysOp.step s (.access p addr (.store value) us) = some s' → OthersKept s s' p

/-- Ring 3 writes, or the address is not mapped, or its frame has one reference. -/
def PrivateWrite (m : Machine) (pd addr : Nat) (us : Bool) : Prop :=
  us = true ∨ isMapped m pd addr = false ∨ m.pmm.refcounts (walkFrame m pd addr) = 1

section Private

variable {m : Machine} {pds : Finset Nat} {own : Nat → Owner} {pd other addr a : Nat}

theorem siteFrame_of_walk (hmapped : isMapped m pd addr = true) :
    siteFrame m (pd, dirIndex addr, tableIndex addr) = some (walkFrame m pd addr) :=
  siteFrame_of_entry (siteEntry_of_mapped hmapped)

/-- A write that the processor lets Ring 3 make goes to a frame mapped once. -/
theorem refcount_of_userWrite (h : VmInv m pds own) (hpd : pd ∈ pds)
    (haddr : addr < kernelSpaceStart) (hcode : cpuFault kernelCr0 m pd addr true true = none) :
    m.pmm.refcounts (walkFrame m pd addr) = 1 := by
  unfold cpuFault at hcode
  split_ifs at hcode with hmapped huser hwrite
  have hentry := siteEntry_of_mapped (by simpa using hmapped)
  have hsite := index_mem_userSites hpd haddr
  have hwritable : hasFlag (m.pteAt pd (dirIndex addr) (tableIndex addr)) pageWrite = true := by
    have hwalk : walkFlag m pd addr pageWrite = true := by simpa using hwrite
    exact (Bool.and_eq_true_iff.mp hwalk).2
  apply h.cow _ hsite _ hentry
  rw [← Bool.not_eq_true]
  intro hcow
  rw [h.marked _ hsite _ hentry hcow] at hwritable
  cases hwritable

/-- Storing into a frame mapped once changes no byte of another process. -/
theorem userByte_store (h : VmInv m pds own) (hpd : pd ∈ pds) (hother : other ∈ pds)
    (hne : other ≠ pd) (haddr : addr < kernelSpaceStart) (ha : a < kernelSpaceStart)
    (hmapped : isMapped m pd addr = true)
    (hone : m.pmm.refcounts (walkFrame m pd addr) = 1) (offset : Nat) (value : BitVec 8) :
    userByte (m.storeBytes (walkFrame m pd addr) offset [value]) other a = userByte m other a := by
  have hsite := index_mem_userSites hpd haddr
  have hsite' := index_mem_userSites hother ha
  have hframe := siteFrame_of_walk hmapped
  have hpage := h.page_of_frame hsite hframe
  apply userByte_congr
  · apply h.siteEntry_congr_of_ne (Or.inr (Or.inr hpage)) _ hsite'
    exact fun g hg => Machine.storeBytes_mem_of_ne hg _ _
  · intro w hw
    apply Machine.storeBytes_mem_of_ne
    intro hsame
    -- a second mapping of the frame would be the first
    have hrefs : userRefs m pds (walkFrame m pd addr) ≤ 1 := by
      rw [← (h.counted _ hpage).1]
      exact hone.le
    have heq := site_unique hrefs hsite' hsite (hsame ▸ siteFrame_of_entry hw) hframe
    exact hne (congrArg Prod.fst heq)

end Private

namespace SysInv

variable {s s' : System} {pds : Finset Nat} {own : Nat → Owner} {p pd addr : Nat} {task : Process}

/-- A private write reaches no byte of another process. -/
theorem access_isolated (h : SysInv s pds own) (hrun : s.running p = some (task, pd))
    (haddr : addr < kernelSpaceStart) {us : Bool} (hprivate : PrivateWrite s.machine pd addr us)
    (value : BitVec 8) : WriteIsolated s p addr value us := by
  intro s' hstep q task' other hqp hrun' a ha
  obtain ⟨hp, hpd⟩ := System.running_eq_some.mp hrun
  obtain ⟨hq, hother⟩ := System.running_eq_some.mp hrun'
  have hmem := h.mem_of_running hrun
  have hmem' := h.mem_of_running hrun'
  have hne : other ≠ pd := by
    rintro rfl
    exact hqp (h.dirInj q p task' task _ hq hp hother hpd)
  simp only [SysOp.step, hrun] at hstep
  unfold System.access at hstep
  rw [show (Access.store value).isWrite = true from rfl] at hstep
  cases hcode : cpuFault kernelCr0 s.machine pd addr true us with
  | none =>
    rw [hcode] at hstep
    cases hstep
    have hmapped : isMapped s.machine pd addr = true := by
      by_contra hnot
      rw [Bool.not_eq_true] at hnot
      unfold cpuFault at hcode
      rw [hnot] at hcode
      cases hcode
    have hone : s.machine.pmm.refcounts (walkFrame s.machine pd addr) = 1 := by
      rcases hprivate with rfl | habsent | hone
      · exact refcount_of_userWrite h.inv hmem haddr hcode
      · rw [hmapped] at habsent
        cases habsent
      · exact hone
    exact userByte_store h.inv hmem hmem' hne haddr ha hmapped hone _ value
  | some code =>
    rw [hcode] at hstep
    obtain ⟨own', hfault⟩ :=
      @VmInv.pageFaultHandler _ _ _ _ h.inv task.toFaultTask _ _ hmem hpd haddr
        (siteEntry_of_fault hcode)
    dsimp only at hstep
    rcases hres : pageFaultHandler s.machine (some task.toFaultTask) addr code with ⟨m, outcome⟩
    rw [hres] at hstep hfault
    have hkept : userByte m other a = userByte s.machine other a :=
      (VmInv.FaultStep.space h.inv hfault hmem' hne).byte ha
    cases outcome with
    | resumed =>
      cases hstep
      exact hkept
    | killed reason =>
      cases hstep
      rw [← hkept]
      have hboot : pd ≠ m.bootPageDirectory := by
        rw [hfault.kernel.boot]
        exact h.ne_boot hmem
      unfold System.exitTask
      rw [System.setMachine_machine, System.setProc_machine, System.setMachine_machine,
        SysInv.releaseMemory_eq hpd hboot]
      exact (hfault.inv.space_destroy hmem hmem' hne).byte ha
    | halted => cases hstep

/-- A frame with more than one reference is mapped by another process too. -/
theorem other_mapping (h : SysInv s pds own) (hrun : s.running p = some (task, pd))
    (haddr : addr < kernelSpaceStart) (hmapped : isMapped s.machine pd addr = true)
    (hshared : s.machine.pmm.refcounts (walkFrame s.machine pd addr) ≠ 1) :
    ∃ q task' other i j, q ≠ p ∧ s.running q = some (task', other) ∧ i < 768 ∧ j < 1024 ∧
      siteFrame s.machine (other, i, j) = some (walkFrame s.machine pd addr) := by
  obtain ⟨hp, hpd⟩ := System.running_eq_some.mp hrun
  have hsite := index_mem_userSites (h.mem_of_running hrun) haddr
  have hframe := siteFrame_of_walk hmapped
  obtain ⟨hcount, hpos⟩ := h.inv.counted _ (h.inv.page_of_frame hsite hframe)
  have htwo : 1 < userRefs s.machine pds (walkFrame s.machine pd addr) := by omega
  obtain ⟨⟨other, i, j⟩, hmem, hne⟩ :=
    Finset.exists_mem_ne htwo (pd, dirIndex addr, tableIndex addr)
  obtain ⟨hsite', hframe'⟩ := Finset.mem_filter.mp hmem
  have hdir : other ≠ pd := by
    rintro rfl
    obtain ⟨rfl, rfl⟩ := h.inv.single other i j _ _ _ hsite' hsite hframe' hframe
    exact hne rfl
  obtain ⟨hother, hi, hj⟩ := mem_userSites.mp hsite'
  obtain ⟨q, task', hq, hqdir⟩ := (h.dirs other).mp hother
  refine ⟨q, task', other, i, j, ?_, System.running_eq_some.mpr ⟨hq, hqdir⟩, hi, hj, hframe'⟩
  rintro rfl
  rw [hp] at hq
  cases hq
  rw [hpd] at hqdir
  cases hqdir
  exact hdir rfl

/-- The kernel writes to a page that is still shared, and another process sees it. -/
theorem shared_write_seen (h : SysInv s pds own) (hrun : s.running p = some (task, pd))
    (haddr : addr < kernelSpaceStart) (hmapped : isMapped s.machine pd addr = true)
    (hshared : s.machine.pmm.refcounts (walkFrame s.machine pd addr) ≠ 1) :
    ∃ value, ¬ WriteIsolated s p addr value false := by
  obtain ⟨q, task', other, i, j, hqp, hrun', hi, hj, hframe⟩ :=
    h.other_mapping hrun haddr hmapped hshared
  -- the same byte of the frame, where the other process maps it
  have hlow : i * 4194304 + j * 4096 + addr % 4096 < kernelSpaceStart := by
    unfold kernelSpaceStart
    omega
  have hdirIndex : dirIndex (i * 4194304 + j * 4096 + addr % 4096) = i := by
    unfold dirIndex
    omega
  have htableIndex : tableIndex (i * 4194304 + j * 4096 + addr % 4096) = j := by
    unfold tableIndex
    omega
  have hoffset : (i * 4194304 + j * 4096 + addr % 4096) % 4096 = addr % 4096 := by omega
  obtain ⟨w, hw, hwf⟩ := siteFrame_eq_some.mp hframe
  have hread : ∀ m : Machine, siteEntry m (other, i, j) = some w →
      userByte m other (i * 4194304 + j * 4096 + addr % 4096) =
        some (byteOf (m.mem (walkFrame s.machine pd addr) (addr % 4096 / 4)) (addr % 4096 % 4)) := by
    intro m hm
    unfold userByte
    rw [hdirIndex, htableIndex, hoffset, hm, Option.map_some, hwf]
  obtain ⟨value, hvalue⟩ := exists_other_byte
    (byteOf (s.machine.mem (walkFrame s.machine pd addr) (addr % 4096 / 4)) (addr % 4096 % 4))
  refine ⟨value, fun hall => ?_⟩
  have hcode : cpuFault kernelCr0 s.machine pd addr true false = none := by
    unfold cpuFault
    rw [hmapped, show hasFlag kernelCr0 cr0Wp = false by decide]
    simp
  have hstep : SysOp.step s (.access p addr (.store value) false) = some (s.setMachine
      (s.machine.storeBytes (walkFrame s.machine pd addr) (addr % 4096) [value])) := by
    simp only [SysOp.step, hrun]
    unfold System.access
    rw [show (Access.store value).isWrite = true from rfl, hcode]
  have hkept := hall _ hstep q task' other hqp hrun' _ hlow
  have hsite : (pd, dirIndex addr, tableIndex addr) ∈ userSites pds :=
    index_mem_userSites (h.mem_of_running hrun) haddr
  have hpage := h.inv.page_of_frame hsite (siteFrame_of_walk hmapped)
  have hentry : siteEntry (s.machine.storeBytes (walkFrame s.machine pd addr) (addr % 4096)
      [value]) (other, i, j) = some w := by
    rw [h.inv.siteEntry_congr_of_ne (Or.inr (Or.inr hpage))
      (fun g hg => Machine.storeBytes_mem_of_ne hg _ _)
      (mem_userSites.mpr ⟨h.mem_of_running hrun', hi, hj⟩), hw]
  rw [System.setMachine_machine, hread _ hentry, hread _ hw, Option.some.injEq] at hkept
  rw [Machine.storeBytes, Machine.storeBytes, Machine.setWord_mem_self,
    byteOf_setByte _ _ (Nat.mod_lt _ (by norm_num))] at hkept
  exact hvalue hkept

end SysInv

/-- In every state reached, the writes that are isolated whatever the byte are the private
ones. -/
theorem writes_isolated_iff {image : BootImage} {info : BootInfo} {ram : Nat → Nat → Word}
    {s₀ s : System} {p pd addr : Nat} {task : Process} {us : Bool}
    (hboot : System.boot image info ram = some s₀)
    (hrun : Reach SysOp.step (fun s op => op.Possible s ∧ op.KeepsOwners s) s₀ s)
    (hp : s.running p = some (task, pd)) (haddr : addr < kernelSpaceStart) :
    (∀ value, WriteIsolated s p addr value us) ↔ PrivateWrite s.machine pd addr us := by
  obtain ⟨pds, own, hinv⟩ := SysInv.run hboot hrun
  constructor
  · intro hall
    by_contra hnot
    unfold PrivateWrite at hnot
    simp only [not_or, Bool.not_eq_true, Bool.not_eq_false] at hnot
    obtain ⟨rfl, hmapped, hshared⟩ := hnot
    obtain ⟨value, hseen⟩ := hinv.shared_write_seen hp haddr hmapped hshared
    exact hseen (hall value)
  · exact fun hprivate => hinv.access_isolated hp haddr hprivate

theorem foldl_cloneEntry_one {m : Machine} {P C j : Nat} {l : List Nat} (hl : l.Nodup)
    (habsent : ∀ k ∈ l, k ≠ j → isPresent (m.mem P k) = false) :
    l.foldl (cloneEntry P C) m = if j ∈ l then cloneEntry P C m j else m := by
  induction l generalizing m with
  | nil => rfl
  | cons k l ih =>
    obtain ⟨hk, hl⟩ := List.nodup_cons.mp hl
    rw [List.foldl_cons]
    by_cases hkj : k = j
    · subst hkj
      rw [ih hl, if_neg hk, if_pos List.mem_cons_self]
      intro i hi hik
      rw [(cloneEntry_entry hik).1]
      exact habsent i (List.mem_cons_of_mem k hi) hik
    · have hsame : cloneEntry P C m k = m := by
        unfold cloneEntry
        simp [habsent k List.mem_cons_self hkj]
      rw [hsame, ih hl fun i hi => habsent i (List.mem_cons_of_mem k hi)]
      simp [Ne.symm hkj]

theorem cloneUserHalf_one {m m' : Machine} {parent child i : Nat} {l : List Nat} (hl : l.Nodup)
    (habsent : ∀ k ∈ l, k ≠ i → isPresent (m.mem parent k) = false)
    (hrow : cloneDirEntry parent child m i = (m', true)) (hdir : m'.mem parent = m.mem parent) :
    cloneUserHalf parent child l m = if i ∈ l then (m', true) else (m, true) := by
  have hskip : ∀ {n : Machine} {k : Nat}, isPresent (n.mem parent k) = false →
      cloneDirEntry parent child n k = (n, true) := by
    intro n k hk
    unfold cloneDirEntry
    simp [hk]
  have hrest : ∀ {n : Machine} (l : List Nat), (∀ k ∈ l, isPresent (n.mem parent k) = false) →
      cloneUserHalf parent child l n = (n, true) := by
    intro n l
    induction l with
    | nil => exact fun _ => rfl
    | cons k l ih =>
      intro hall
      rw [List.forall_mem_cons] at hall
      simp only [cloneUserHalf, hskip hall.1, ih hall.2]
  induction l with
  | nil => rfl
  | cons k l ih =>
    obtain ⟨hk, hl⟩ := List.nodup_cons.mp hl
    have habsent' : ∀ n ∈ l, n ≠ i → isPresent (m.mem parent n) = false :=
      fun n hn => habsent n (List.mem_cons_of_mem k hn)
    by_cases hki : k = i
    · subst hki
      have hclear : ∀ n ∈ l, isPresent (m'.mem parent n) = false := by
        intro n hn
        rw [hdir]
        apply habsent' n hn
        rintro rfl
        exact hk hn
      simp only [cloneUserHalf, hrow, hrest l hclear, List.mem_cons_self, if_true]
    · simp only [cloneUserHalf, hskip (habsent k List.mem_cons_self hki), ih hl habsent']
      simp [Ne.symm hki]

/-- A row whose table has one page. -/
theorem cloneDirEntry_one {m m' : Machine} {parent child i j P t : Nat} {pde ptPhys : Word}
    (hpde : m.mem parent i = pde) (hpres : isPresent pde = true)
    (hsmall : hasFlag pde pagePs = false) (halloc : m.allocPage = (m', ptPhys))
    (hnz : ptPhys ≠ 0#32) (hP : frameOf pde = P) (ht : frameOf ptPhys = t) (htP : P ≠ t)
    (hj : j < 1024) (habsent : ∀ k < 1024, k ≠ j → isPresent (m.mem P k) = false) :
    cloneDirEntry parent child m i = ((cloneEntry P t (m'.clearFrame t) j).setWord child i
      (ptPhys ||| pagePresent ||| pageWrite ||| pageUser), true) := by
  have hmem : m'.mem = m.mem := by
    have hsame := m.allocPage_mem
    rwa [halloc] at hsame
  have hloop : (List.range 1024).foldl (cloneEntry P t) (m'.clearFrame t) =
      cloneEntry P t (m'.clearFrame t) j := by
    have hone := @foldl_cloneEntry_one (m'.clearFrame t) P t j (List.range 1024) List.nodup_range ?_
    · rwa [if_pos (List.mem_range.mpr hj)] at hone
    · intro k hk hne
      rw [Machine.clearFrame_mem_of_ne htP, hmem]
      exact habsent k (List.mem_range.mp hk) hne
  unfold cloneDirEntry
  simp only [hpde, hpres, hsmall, halloc, hP, ht, hloop, hnz, Bool.not_true, Bool.false_eq_true,
    if_false]

/-- The clone of a directory that maps one page. -/
theorem vmmCloneAddressSpace_one {m m₁ m₂ : Machine} {parent child i j P t : Nat}
    {pde pte ptPhys : Word} (hcreate : vmmCreateAddressSpace m = (m₁, some child))
    (halloc : m₁.allocPage = (m₂, ptPhys)) (hi : i < 768) (hj : j < 1024)
    (hpde : m₁.mem parent i = pde) (hpte : m₁.mem P j = pte) (hpres : isPresent pde = true)
    (hsmall : hasFlag pde pagePs = false) (hpage : isPresent pte = true) (hnz : ptPhys ≠ 0#32)
    (hP : frameOf pde = P) (ht : frameOf ptPhys = t) (htP : P ≠ t) (hparent : parent ≠ child)
    (hparentP : parent ≠ P) (hparentT : parent ≠ t) (hchildP : P ≠ child)
    (hrows : ∀ k < 768, k ≠ i → isPresent (m₁.mem parent k) = false)
    (hentries : ∀ k < 1024, k ≠ j → isPresent (m₁.mem P k) = false) :
    ∃ m', vmmCloneAddressSpace m parent = (m', some child) ∧ m'.mem parent i = pde ∧
      m'.mem P j = cowEntry pte ∧ m'.pmm = pmmIncRef m₂.pmm (physOf pte) := by
  have hmem : m₂.mem = m₁.mem := by
    have hsame := m₁.allocPage_mem
    rwa [halloc] at hsame
  have hclear : (m₂.clearFrame t).mem P j = pte := by
    rw [Machine.clearFrame_mem_of_ne htP, hmem, hpte]
  have hshared : cloneEntry P t (m₂.clearFrame t) j =
      (((m₂.clearFrame t).incRef (physOf pte)).setWord t j (cowEntry pte)).setWord P j
        (cowEntry pte) := by
    unfold cloneEntry
    simp only [hclear, hpage, Bool.not_true, Bool.false_eq_true, if_false]
  have hrow := @cloneDirEntry_one m₁ m₂ parent child i j P t pde ptPhys hpde hpres hsmall halloc
    hnz hP ht htP hj hentries
  rw [hshared] at hrow
  obtain ⟨m', hm'⟩ : ∃ m', m' = ((((m₂.clearFrame t).incRef (physOf pte)).setWord t j
      (cowEntry pte)).setWord P j (cowEntry pte)).setWord child i
      (ptPhys ||| pagePresent ||| pageWrite ||| pageUser) := ⟨_, rfl⟩
  rw [← hm'] at hrow
  have hdir : m'.mem parent = m₁.mem parent := by
    rw [hm', Machine.setWord_mem_of_ne hparent, Machine.setWord_mem_of_ne hparentP,
      Machine.setWord_mem_of_ne hparentT, Machine.incRef_mem,
      Machine.clearFrame_mem_of_ne hparentT, hmem]
  refine ⟨m', ?_, by rw [hdir, hpde], ?_, ?_⟩
  · rw [vmmCloneAddressSpace_eq, hcreate]
    dsimp only
    rw [cloneUserHalf_one List.nodup_range (fun k hk hne => hrows k (List.mem_range.mp hk) hne)
      hrow hdir, if_pos (List.mem_range.mpr hi)]
  · rw [hm', Machine.setWord_mem_of_ne hchildP, Machine.setWord_mem_self]
  · rw [hm']
    rfl

/-- The first process forks: its page has two references. -/
theorem forked_of_check {s : System} (hsmall : SmallInit 3#32 s) (hcheck : forkCheck s = true) :
    ∃ s' task, SysOp.step s (.fork 4107 []) = some s' ∧ s'.running 4107 = some (task, 4100) ∧
      isMapped s'.machine 4100 0x08048000 = true ∧
      s'.machine.pmm.refcounts (walkFrame s'.machine 4100 0x08048000) = 2 := by
  unfold forkCheck at hcheck
  rcases hstack : vmmAllocKernelStack s.machine with ⟨m₁, top⟩ | _ | _
  · rw [hstack] at hcheck
    dsimp only at hcheck
    rcases hpcb : m₁.allocPage with ⟨m₂, pcbPhys⟩
    rw [hpcb] at hcheck
    dsimp only at hcheck
    rcases hcreate : vmmCreateAddressSpace m₂ with ⟨m₃, _ | child⟩
    · rw [hcreate] at hcheck
      cases hcheck
    · rw [hcreate] at hcheck
      dsimp only at hcheck
      rcases htable : m₃.allocPage with ⟨m₄, ptPhys⟩
      rw [htable] at hcheck
      simp only [Bool.and_eq_true, decide_eq_true_eq, List.all_eq_true, List.mem_range,
        Bool.or_eq_true, Bool.not_eq_true'] at hcheck
      obtain ⟨⟨⟨hpcbNz, hpcbNew, hchild, hchildT, hpde, hptNz, hptDir, hptTable, hpte, hone,
        hmax⟩, hrows⟩, hentries⟩ := hcheck
      obtain ⟨m₅, hclone, hpde₅, hpte₅, hpmm⟩ := vmmCloneAddressSpace_one hcreate htable
        (by decide : 32 < 768) (by decide : 72 < 1024) hpde hpte (by decide) (by decide)
        (by decide) hptNz (by decide : frameOf 0x01006007#32 = 4102) rfl hptTable.symm hchild.symm
        (by decide) hptDir.symm hchildT.symm (fun k hk => (hrows k hk).resolve_left)
        fun k hk => (hentries k hk).resolve_left
      have hareas : ¬ (vmaClone (smallVmas 3#32) []).2.1 < 0 := by decide
      have hfork : taskForkMemory s.machine 4100 (smallVmas 3#32) [] = some (m₅,
          some (frameOf pcbPhys, ⟨⟨some child, (vmaClone (smallVmas 3#32) []).1⟩, top⟩)) := by
        unfold taskForkMemory
        rw [hstack]
        dsimp only
        rw [hpcb]
        dsimp only
        rw [if_neg hpcbNz, hclone]
        dsimp only
        rw [if_neg hareas]
      have hrun := hsmall.running
      have hwalk : m₅.pteAt 4100 (dirIndex 0x08048000) (tableIndex 0x08048000) =
          cowEntry 0x01005007#32 := by
        unfold Machine.pteAt
        rw [show dirIndex 0x08048000 = 32 from rfl, hpde₅,
          show tableIndex 0x08048000 = 72 from rfl, show frameOf 0x01006007#32 = 4102 by decide,
          hpte₅]
      have hstep : SysOp.step s (.fork 4107 []) = some ((s.setMachine m₅).setProc
          (frameOf pcbPhys)
          (some ⟨⟨some child, (vmaClone (smallVmas 3#32) []).1⟩, top⟩)) := by
        simp only [SysOp.step, hrun, hfork]
      refine ⟨_, ⟨⟨some 4100, smallVmas 3#32⟩, kernelStackTop 0⟩, hstep, ?_, ?_, ?_⟩
      · rw [System.running_eq_some, System.setProc_proc, if_neg hpcbNew.symm]
        exact ⟨hsmall.task, rfl⟩
      · rw [System.setProc_machine, System.setMachine_machine, isMapped_iff, hwalk,
          show dirIndex 0x08048000 = 32 from rfl, hpde₅]
        decide
      · rw [System.setProc_machine, System.setMachine_machine, walkFrame, hwalk, hpmm,
          show physOf 0x01005007#32 = frameAddr 4101 by decide,
          show frameOf (cowEntry 0x01005007#32) = 4101 by decide, pmmIncRef_frameAddr _ (by decide),
          if_pos ⟨hmax, by rw [hone]; decide⟩]
        simp [hone]
  · rw [hstack] at hcheck
    cases hcheck
  · rw [hstack] at hcheck
    cases hcheck

/-- The first process forks; then the kernel stores a byte into its page. -/
theorem kernel_write_reaches_child : ¬ ∀ (image : BootImage) (info : BootInfo)
    (ram : Nat → Nat → Word) (s₀ s : System) (p pd addr : Nat) (task : Process)
    (value : BitVec 8) (us : Bool), System.boot image info ram = some s₀ →
    Reach SysOp.step (fun s op => op.Possible s ∧ op.KeepsOwners s) s₀ s →
    s.running p = some (task, pd) → addr < kernelSpaceStart → WriteIsolated s p addr value us := by
  intro hall
  obtain ⟨s₀, s, hboot, hinit, hsmall, hcheck⟩ := smallInit_forks
  obtain ⟨s', task, hfork, hrun, hmapped, htwo⟩ := forked_of_check hsmall hcheck
  have hfirst : (SysOp.startInit (smallFile 6) []).Possible s₀ ∧
      (SysOp.startInit (smallFile 6) []).KeepsOwners s₀ := ⟨trivial, smallFile_fits⟩
  have hsecond : (SysOp.fork 4107 []).Possible s ∧ (SysOp.fork 4107 []).KeepsOwners s :=
    ⟨trivial, trivial⟩
  have hreach : Reach SysOp.step (fun s op => op.Possible s ∧ op.KeepsOwners s) s₀ s' :=
    .next (.next .start hfirst hinit) hsecond hfork
  obtain ⟨pds, own, hinv⟩ := SysInv.run hboot hreach
  obtain ⟨value, hseen⟩ := hinv.shared_write_seen hrun (by decide) hmapped (by rw [htwo]; decide)
  exact hseen (hall _ _ _ s₀ s' 4107 4100 0x08048000 task value false hboot hreach hrun (by decide))

/-- A store of Ring 3 to the same page. -/
theorem writes_isolated_small : ∃ s, SmallInit 3#32 s ∧
    ((∀ value, WriteIsolated s 4107 0x08048000 value true) ↔
      PrivateWrite s.machine 4100 0x08048000 true) := by
  obtain ⟨s₀, s, hboot, hreach, hsmall⟩ := smallInit_reach
  exact ⟨s, hsmall, writes_isolated_iff hboot hreach hsmall.running (by decide)⟩

end EnclaveOS
