import EnclaveOS.Memory.ResolverSpec
import EnclaveOS.Process.OwnerRuns

/-!
# PageOwners - what the pages of a process never are
-/

namespace EnclaveOS

open PageWord

variable {s₀ s : System} {image : BootImage} {info : BootInfo} {ram : Nat → Nat → Word}
  {p pd addr : Nat} {task : Process}

/-- Frames that the kernel keeps to itself: its own directory and tables, those of the processes,
the task structures and the pages of the kernel stacks. -/
inductive KernelsOwn (s : System) : Nat → Prop
  | boot : KernelsOwn s s.machine.bootPageDirectory
  | dir {p pd : Nat} {task : Process} (h : s.running p = some (task, pd)) : KernelsOwn s pd
  | table {p pd i : Nat} {task : Process} (h : s.running p = some (task, pd)) (hi : i < 1024)
      (hpres : isPresent (s.machine.mem pd i) = true) : KernelsOwn s (frameOf (s.machine.mem pd i))
  | pcb {p : Nat} {task : Process} (h : s.proc p = some task) : KernelsOwn s p
  | stack {slot page : Nat} (h : stacksInUse s.machine slot page) :
      KernelsOwn s (frameOf (kernelPte s.machine (stackVirt slot page)))

/-- Such a frame has another owner than the pages of the processes. -/
theorem SysInv.kernelsOwn {pds : Finset Nat} {own : Nat → Owner} (h : SysInv s pds own) {f : Nat}
    (hf : KernelsOwn s f) : own f ≠ .page := by
  cases hf with
  | boot => simp [h.inv.boot]
  | dir hrun => simp [h.inv.dir _ (h.mem_of_running hrun)]
  | @table p pd i task hrun hi hpres =>
    have hpd := h.mem_of_running hrun
    by_cases huser : i < 768
    · simp [h.inv.table pd hpd i huser hpres]
    · rw [h.inv.kernelHalf pd hpd i (Nat.le_of_not_lt huser) hi] at hpres ⊢
      simp [(h.half.table i (Nat.le_of_not_lt huser) hi hpres).1]
  | pcb hproc => simp [h.pcb _ _ hproc]
  | stack hused => simp [(h.half.stack _ _ hused).2.2.2.2]

/-- In every run: an access to a user address that the processor lets through, by a process or by
the kernel for it, does not reach a frame that the kernel keeps to itself. -/
theorem access_spares_kernels_own (hboot : System.boot image info ram = some s₀)
    (hrun : Reach SysOp.step (fun s op => op.Possible s ∧ op.KeepsOwners s) s₀ s)
    (hp : s.running p = some (task, pd)) (haddr : addr < kernelSpaceStart) {rw us : Bool}
    (haccess : cpuFault kernelCr0 s.machine pd addr rw us = none) :
    ¬ KernelsOwn s (walkFrame s.machine pd addr) := by
  obtain ⟨pds, own, h⟩ := SysInv.run hboot hrun
  intro hkernel
  exact h.kernelsOwn hkernel (h.page_of_access (h.mem_of_running hp) haddr haccess)

/-- The first process writes to its page. -/
theorem access_spares_kernels_own_small : ∃ s, SmallInit 3#32 s ∧
    ¬ KernelsOwn s (walkFrame s.machine 4100 0x08048000) := by
  obtain ⟨s₀, s, hboot, hreach, hsmall⟩ := smallInit_reach
  have haccess : cpuFault kernelCr0 s.machine 4100 0x08048000 true true = none := by
    have hpde : s.machine.mem 4100 (dirIndex 0x08048000) = 0x01006007#32 := hsmall.pde
    simp only [cpuFault, isMapped, walkFlag, hsmall.pteAt, hpde]
    decide
  exact ⟨s, hsmall, access_spares_kernels_own hboot hreach hsmall.running (by decide) haccess⟩

/-- In every run the tables of every process are ready for the write-fault resolver. -/
theorem resolver_ready_run (hboot : System.boot image info ram = some s₀)
    (hrun : Reach SysOp.step (fun s op => op.Possible s ∧ op.KeepsOwners s) s₀ s)
    (hp : s.running p = some (task, pd)) (haddr : addr < kernelSpaceStart) :
    ResolverReady s.machine pd addr := by
  obtain ⟨pds, own, h⟩ := SysInv.run hboot hrun
  exact h.inv.resolverReady (h.mem_of_running hp) haddr

theorem resolver_ready_small : ∃ s, SmallInit 3#32 s ∧ ResolverReady s.machine 4100 0x08048000 := by
  obtain ⟨s₀, s, hboot, hreach, hsmall⟩ := smallInit_reach
  exact ⟨s, hsmall, resolver_ready_run hboot hreach hsmall.running (by decide)⟩

end EnclaveOS
