import EnclaveOS.Memory.VmaMap
import EnclaveOS.Process.ProcessVmas
import EnclaveOS.Process.SystemBoot

/-!
# WxRuns - write and execute permission over the life of a process

The flags of an area come from a program header, from `mmap` and
`mprotect`, or are fixed.  Only the loader takes both permissions.
-/

namespace EnclaveOS

open PageWord

section Edits

variable {P : Word → Prop} {vmas : List Vma}

theorem vmaAdd_flags (h : ∀ v ∈ vmas, P v.flags) (start stop : Nat) {flags : Word} (hnew : P flags)
    (k : Kmalloc) : ∀ v ∈ (vmaAdd vmas start stop flags k).1, P v.flags := by
  rcases vmaAdd_cases vmas start stop flags k with ⟨hsame, -⟩ | ⟨-, -, hinsert, -⟩
  · rw [hsame]
    exact h
  · rw [hinsert]
    intro v hv
    rcases mem_vmaInsert.mp hv with rfl | hold
    · exact hnew
    · exact h v hold

/-- What remains of an area keeps its flags. -/
theorem vmaUnmapRange_flags (start stop : Nat) (k : Kmalloc) (h : ∀ v ∈ vmas, P v.flags) :
    ∀ v ∈ (vmaUnmapRange start stop vmas k).1, P v.flags := by
  intro p hp
  obtain ⟨v, hv, rfl | hp⟩ := (unmap_walks_any start stop).of_mem hp
  · exact h p hv
  · have hflags : p.flags = v.flags := by
      unfold unmapPieces at hp
      split_ifs at hp <;> grind
    exact hflags ▸ h v hv

/-- A piece has the flags of its area, or the new ones with the old marker. -/
theorem vmaProtectRange_flags (start stop : Nat) {newFlags : Word} (k : Kmalloc)
    (h : ∀ v ∈ vmas, P v.flags) (hnew : ∀ v : Vma, P (vmaProtectFlags v newFlags)) :
    ∀ v ∈ (vmaProtectRange start stop newFlags vmas k).1, P v.flags := by
  intro p hp
  obtain ⟨v, hv, rfl | hp⟩ := (protect_walks start stop newFlags).of_mem hp
  · exact h p hv
  · have hflags : p.flags = v.flags ∨ p.flags = vmaProtectFlags v newFlags := by
      unfold protectPieces at hp
      split_ifs at hp <;> grind
    exact hflags.elim (fun heq => heq ▸ h v hv) fun heq => heq ▸ hnew v

theorem vmaCloneFrom_flags {child : List Vma} (k : Kmalloc) (hchild : ∀ v ∈ child, P v.flags)
    (h : ∀ v ∈ vmas, P v.flags) : ∀ v ∈ (vmaCloneFrom child vmas k).1, P v.flags := by
  induction vmas generalizing child k with
  | nil => exact hchild
  | cons curr rest ih =>
    obtain ⟨hcurr, hrest⟩ := List.forall_mem_cons.mp h
    have hadd := vmaAdd_flags hchild curr.start curr.end hcurr k
    rw [vmaCloneFrom]
    rcases hres : vmaAdd child curr.start curr.end curr.flags k with ⟨child', ret, k'⟩
    rw [hres] at hadd
    dsimp only
    split_ifs
    · rintro v ⟨⟩
    · exact ih k' hadd hrest

theorem loadedVmas_flags {segments : List Elf32Phdr} (h : ∀ v ∈ vmas, P v.flags)
    (hsegments : ∀ ph ∈ segments, P ph.vmaFlags) :
    ∀ v ∈ loadedVmas segments vmas, P v.flags := by
  induction segments generalizing vmas with
  | nil => exact h
  | cons ph rest ih =>
    obtain ⟨hph, hrest⟩ := List.forall_mem_cons.mp hsegments
    refine ih (fun v hv => ?_) hrest
    rcases mem_vmaInsert.mp hv with rfl | hold
    · exact hph
    · exact h v hold

theorem addStackAndHeap_flags (k : Kmalloc) (h : ∀ v ∈ vmas, P v.flags)
    (hrw : P (vmaRead ||| vmaWrite)) : ∀ v ∈ (addStackAndHeap vmas k).1, P v.flags := by
  have hstack := vmaAdd_flags h (userStackVirtTop - userStackSize) userStackVirtTop hrw k
  unfold addStackAndHeap
  rcases hres : vmaAdd vmas (userStackVirtTop - userStackSize) userStackVirtTop
    (vmaRead ||| vmaWrite) k with ⟨vmas', ret, k'⟩
  rw [hres] at hstack
  dsimp only
  split_ifs
  · exact hstack
  · exact vmaAdd_flags hstack userHeapStart userHeapStart hrw k'

theorem sysMmap_flags {addr len : Nat} {prot flags : Word} (k : Kmalloc)
    (h : ∀ v ∈ vmas, P v.flags)
    (hnew : ¬(hasFlag prot protWrite ∧ hasFlag prot protExec) → P (protVmaFlags prot)) :
    ∀ v ∈ (sysMmap vmas addr len prot flags k).1, P v.flags := by
  rcases sysMmap_vmas vmas addr len prot flags k with
    hsame | ⟨haccepted, a, -, hadd⟩
  · rw [hsame]
    exact h
  · rw [hadd]
    exact vmaAdd_flags h a _ (hnew haccepted.prot) k

theorem sysBrk_flags (p : Pmm) (newBrk : Nat) (k : Kmalloc) (h : ∀ v ∈ vmas, P v.flags)
    (hrw : P (vmaRead ||| vmaWrite)) : ∀ v ∈ (sysBrk p vmas newBrk k).1, P v.flags := by
  rcases sysBrk_vmas p vmas newBrk k with
    hsame | ⟨-, -, ⟨-, hadd⟩ | ⟨pos, heap, hheap, hset, -⟩⟩
  · rw [hsame]
    exact h
  · rw [hadd]
    exact vmaAdd_flags h userHeapStart newBrk hrw k
  · rw [hset]
    intro v hv
    rcases List.mem_or_eq_of_mem_set hv with hold | rfl
    · exact h v hold
    · exact h heap (List.mem_of_getElem? (heapVma_some hheap).1)

end Edits

/-- Both `VMA_WRITE` and `VMA_EXEC`. -/
def WriteExec (flags : Word) : Prop :=
  hasFlag flags vmaWrite = true ∧ hasFlag flags vmaExec = true

/-- No area is writable and executable. -/
def NoWx (vmas : List Vma) : Prop :=
  ∀ v ∈ vmas, ¬ WriteExec v.flags

/-- No loadable segment of a file that is accepted is writable and executable. -/
def FileNoWx (file : VfsFile) : Prop :=
  ∀ header, ElfAccepted file header →
    ∀ h ∈ loadHeaders file header (List.range header.ePhnum),
      ¬(hasFlag h.pFlags pfW = true ∧ hasFlag h.pFlags pfX = true)

theorem writeExec_readWrite : ¬ WriteExec (vmaRead ||| vmaWrite) := by
  unfold WriteExec
  decide

theorem hasFlag_protVmaFlags (prot : Word) :
    hasFlag (protVmaFlags prot) vmaRead = hasFlag prot protRead ∧
      hasFlag (protVmaFlags prot) vmaWrite = hasFlag prot protWrite ∧
      hasFlag (protVmaFlags prot) vmaExec = hasFlag prot protExec := by
  unfold protVmaFlags
  cases hasFlag prot protRead <;> cases hasFlag prot protWrite <;>
    cases hasFlag prot protExec <;> decide

theorem Elf32Phdr.hasFlag_vmaFlags (h : Elf32Phdr) :
    hasFlag h.vmaFlags vmaRead = hasFlag h.pFlags pfR ∧
      hasFlag h.vmaFlags vmaWrite = hasFlag h.pFlags pfW ∧
      hasFlag h.vmaFlags vmaExec = hasFlag h.pFlags pfX := by
  unfold Elf32Phdr.vmaFlags
  cases hasFlag h.pFlags pfR <;> cases hasFlag h.pFlags pfW <;>
    cases hasFlag h.pFlags pfX <;> decide

theorem hasFlag_vmaProtectFlags (v : Vma) (newFlags : Word) {flag : Word}
    (hflag : vmaCow &&& flag = 0#32) :
    hasFlag (vmaProtectFlags v newFlags) flag = hasFlag newFlags flag := by
  rw [vmaProtectFlags, hasFlag_or, hasFlag_and_of_disjoint _ hflag, Bool.false_or]

theorem writeExec_prot {prot : Word} (hprot : ¬(hasFlag prot protWrite ∧ hasFlag prot protExec)) :
    ¬ WriteExec (protVmaFlags prot) := by
  obtain ⟨-, hwrite, hexec⟩ := hasFlag_protVmaFlags prot
  unfold WriteExec
  rw [hwrite, hexec]
  exact hprot

/-- The operations whose files have no segment with both permissions. -/
def SysOp.LoadsNoWx : SysOp → Prop
  | .startInit file _ => FileNoWx file
  | .exec _ file _ => ∀ f, file = .ok f → FileNoWx f
  | _ => True

/-- One operation. -/
theorem NoWx.edited {s : System} {op : SysOp} {vmas : List Vma} (hedit : Edited s op vmas)
    (h : ∀ p task, s.proc p = some task → NoWx task.vmaHead) (hload : op.LoadsNoWx) :
    NoWx vmas := by
  have hfile : ∀ (file : VfsFile) (header : Elf32Header) (k : Kmalloc), FileNoWx file →
      ElfAccepted file header → NoWx (addStackAndHeap
        (loadedVmas (loadHeaders file header (List.range header.ePhnum)) []) k).1 := by
    intro file header k hno hacc
    refine addStackAndHeap_flags (P := fun flags => ¬ WriteExec flags) k
      (loadedVmas_flags (P := fun flags => ¬ WriteExec flags) ?_ ?_) writeExec_readWrite
    · rintro v ⟨⟩
    · intro ph hph
      obtain ⟨-, hwrite, hexec⟩ := ph.hasFlag_vmaFlags
      unfold WriteExec
      rw [hwrite, hexec]
      exact hno header hacc ph hph
  cases hedit with
  | kept hp => exact h _ _ hp
  | dropped => rintro v ⟨⟩
  | mmap hp =>
    exact sysMmap_flags (P := fun flags => ¬ WriteExec flags) _ (h _ _ hp) writeExec_prot
  | munmap hp hlen =>
    exact vmaUnmapRange_flags (P := fun flags => ¬ WriteExec flags) _ _ _ (h _ _ hp)
  | mprotect hp hlen hprot hend =>
    refine vmaProtectRange_flags (P := fun flags => ¬ WriteExec flags) _ _ _ (h _ _ hp)
      fun v => ?_
    have hnew := writeExec_prot hprot
    unfold WriteExec at hnew ⊢
    rwa [hasFlag_vmaProtectFlags _ _ (by decide), hasFlag_vmaProtectFlags _ _ (by decide)]
  | brk hp =>
    exact sysBrk_flags (P := fun flags => ¬ WriteExec flags) _ _ _ (h _ _ hp)
      writeExec_readWrite
  | fork hp =>
    exact vmaCloneFrom_flags (P := fun flags => ¬ WriteExec flags) _ (by rintro v ⟨⟩) (h _ _ hp)
  | startInit hacc => exact hfile _ _ _ hload hacc
  | exec hacc => exact hfile _ _ _ (hload _ rfl) hacc

/-- The reasons of the two demand-paging paths for an area with both permissions. -/
def wxReasons : List String := [userDemandReasons.writeExec, kernelDemandReasons.writeExec]

/-- The fault handler does not refuse an access because its area is writable and
executable. -/
structure NoWxRefusal (m : Machine) (task : FaultTask) : Prop where
  demand : ∀ addr code, ∀ reason ∈ wxReasons,
    (pageFaultHandler m (some task) addr code).2 ≠ .killed reason
  resolver : ∀ addr v, vmaFind task.vmaHead addr = some v →
    writableArea v = (hasFlag v.flags vmaRead && hasFlag v.flags vmaWrite)

section Refusal

variable {m : Machine} {pd : Nat} {vmas : List Vma} {addr : Nat} {reason : String}

theorem NoWx.found (h : NoWx vmas) {v : Vma} (hv : vmaFind vmas addr = some v) :
    (hasFlag v.flags vmaWrite && hasFlag v.flags vmaExec) = false := by
  have hno := h v (vmaFindPage_mem hv).1
  rw [← Bool.not_eq_true, Bool.and_eq_true]
  exact hno

/-- A demand-paging path ends for another reason. -/
theorem demandPage_reason (h : NoWx vmas) (rw : Bool) {reasons : DemandReasons}
    (hreason : reason ∉ [reasons.noVma, reasons.notReadable, reasons.readOnly,
      "Out of Memory (OOM Kill)", "Out of Memory (VMM PT Alloc Failed)"]) :
    (demandPage m pd vmas addr rw reasons).2 ≠ .killed reason := by
  simp only [List.mem_cons, List.not_mem_nil, or_false, not_or] at hreason
  obtain ⟨hnoVma, hnotReadable, hreadOnly, hoom, hpt⟩ := hreason
  unfold demandPage
  cases hv : vmaFind vmas addr with
  | none =>
    rintro ⟨⟩
    exact hnoVma rfl
  | some v =>
    dsimp only
    rw [h.found hv]
    by_cases hr : (!hasFlag v.flags vmaRead) = true
    · rw [if_pos hr]
      rintro ⟨⟩
      exact hnotReadable rfl
    · rw [if_neg hr]
      by_cases hw : (rw && !hasFlag v.flags vmaWrite) = true
      · rw [if_pos hw]
        rintro ⟨⟩
        exact hreadOnly rfl
      · rw [if_neg hw, if_neg Bool.false_ne_true]
        split_ifs
        · rintro ⟨⟩
          exact hoom rfl
        · split
          · rintro ⟨⟩
          · rintro ⟨⟩
            exact hpt rfl
          · rintro ⟨⟩

theorem kernelFault_reason (task : FaultTask) (h : NoWx task.vmaHead) (code : FaultCode)
    (hreason : reason ∈ wxReasons) :
    (kernelFault m pd task addr code).2 ≠ .killed reason := by
  have hcases : reason = "W^X violation" ∨ reason = "W^X violation in kernel user access" := by
    simpa [wxReasons, userDemandReasons, kernelDemandReasons] using hreason
  unfold kernelFault
  split_ifs
  · rcases hcases with rfl | rfl <;> simp
  · dsimp only
    split_ifs
    · simp
    · split <;> simp
  · rcases hcases with rfl | rfl <;> simp
  · rcases vmmHandleUserWriteFault m task addr with ⟨m', rc⟩
    rcases hcases with rfl | rfl <;> cases rc <;> simp [kernelWriteOutcome]
  · refine demandPage_reason h code.rw ?_
    rcases hcases with rfl | rfl <;> simp [kernelDemandReasons]
  · rcases hcases with rfl | rfl <;> simp
  · simp

theorem userFault_reason (task : FaultTask) (h : NoWx task.vmaHead) (code : FaultCode)
    (hreason : reason ∈ wxReasons) : (userFault m pd task addr code).2 ≠ .killed reason := by
  have hcases : reason = "W^X violation" ∨ reason = "W^X violation in kernel user access" := by
    simpa [wxReasons, userDemandReasons, kernelDemandReasons] using hreason
  unfold userFault
  split_ifs
  · rcases hcases with rfl | rfl <;> simp
  · rcases vmmHandleUserWriteFault m task addr with ⟨m', rc⟩
    rcases hcases with rfl | rfl <;> cases rc <;> simp [userWriteOutcome]
  · refine demandPage_reason h code.rw ?_
    rcases hcases with rfl | rfl <;> simp [userDemandReasons]
  · rcases hcases with rfl | rfl <;> simp

theorem NoWx.refusal (m : Machine) (task : FaultTask) (h : NoWx task.vmaHead) :
    NoWxRefusal m task := by
  refine ⟨fun addr code reason hreason => ?_, fun addr v hv => ?_⟩
  · have hcases : reason = "W^X violation" ∨ reason = "W^X violation in kernel user access" := by
      simpa [wxReasons, userDemandReasons, kernelDemandReasons] using hreason
    cases hpd : task.pdirVirt with
    | none =>
      simp only [pageFaultHandler, hpd]
      split_ifs <;> rcases hcases with rfl | rfl <;> simp
    | some pd =>
      simp only [pageFaultHandler, hpd]
      split_ifs
      · rcases hcases with rfl | rfl <;> simp
      · simp
      · rcases hcases with rfl | rfl <;> simp
      · simp
      · rcases hcases with rfl | rfl <;> simp
      · exact kernelFault_reason task h code hreason
      · exact userFault_reason task h code hreason
  · rw [writableArea, h.found hv, Bool.not_false, Bool.and_true]

end Refusal

/-- In every state reached no area is writable and executable, so that no fault is
refused for it. -/
theorem no_write_exec {image : BootImage} {info : BootInfo} {ram : Nat → Nat → Word}
    {s₀ s : System} (hboot : System.boot image info ram = some s₀)
    (hrun : Reach SysOp.step (fun s op => op.Possible s ∧ op.LoadsNoWx) s₀ s) {p : Nat}
    {task : Process} (hp : s.proc p = some task) :
    NoWx task.vmaHead ∧ NoWxRefusal s.machine task.toFaultTask := by
  obtain ⟨own, hstart⟩ := System.boot_inv hboot
  have hall : ∀ p task, s.proc p = some task → NoWx task.vmaHead := by
    refine hrun.invariant (P := fun s => ∀ p task, s.proc p = some task → NoWx task.vmaHead)
      ?_ ?_
    · intro p task hp
      rw [hstart.idle p] at hp
      cases hp
    · rintro s op s' h ⟨-, hload⟩ hstep p task hp
      exact NoWx.edited (SysOp.step_edited hstep hp) h hload
  exact ⟨hall p task hp, (hall p task hp).refusal s.machine task.toFaultTask⟩

theorem smallFile_noWx : FileNoWx (smallFile 6) := by
  have hall : (elfHeader (smallFile 6)).all fun header => decide
      (∀ h ∈ loadHeaders (smallFile 6) header (List.range header.ePhnum),
        ¬(hasFlag h.pFlags pfW = true ∧ hasFlag h.pFlags pfX = true)) := by decide +kernel
  intro header hacc h hh
  rw [hacc.found, Option.all_some, decide_eq_true_eq] at hall
  exact hall h hh

/-- A first process without such a segment. -/
theorem no_write_exec_sample : ∃ s task, SmallInit 3#32 s ∧ s.proc 4107 = some task ∧
    NoWx task.vmaHead ∧ NoWxRefusal s.machine task.toFaultTask := by
  obtain ⟨s₀, s, hboot, hstep, hsmall⟩ := smallInit_rw
  have hinit : (SysOp.startInit (smallFile 6) []).Possible s₀ ∧
      (SysOp.startInit (smallFile 6) []).LoadsNoWx := ⟨trivial, smallFile_noWx⟩
  exact ⟨s, _, hsmall, hsmall.task, no_write_exec hboot (.next .start hinit hstep) hsmall.task⟩

/-- The first process of the small machine has an area with both permissions. -/
theorem elf_loads_write_exec : ¬ ∀ (image : BootImage) (info : BootInfo)
    (ram : Nat → Nat → Word) (s₀ s : System), System.boot image info ram = some s₀ →
    Reach SysOp.step (fun s op => op.Possible s) s₀ s → ∀ p task, s.proc p = some task →
    NoWx task.vmaHead := by
  intro hall
  obtain ⟨s₀, s, hboot, hstep, hsmall⟩ := smallInit_rwx
  have hinit : (SysOp.startInit (smallFile 7) []).Possible s₀ := trivial
  refine hall _ _ _ s₀ s hboot (.next .start hinit hstep) 4107 _ hsmall.task
    ⟨0x08048000, 0x08049000, 7#32⟩ List.mem_cons_self ?_
  unfold WriteExec
  decide

end EnclaveOS
