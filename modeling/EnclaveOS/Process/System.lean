import EnclaveOS.Foundation.Run
import EnclaveOS.Memory.Boot
import EnclaveOS.Memory.Cpu
import EnclaveOS.Process.Syscall

/-!
# System - the machine and its processes

Processes are named by the frame of their PCB.  Interrupts are off in the kernel,
so a system call, a fault and the end of a task are one step each; an access of a
process to memory is a step of its own.  A kernel that stops in `hlt` takes no
step.
-/

namespace EnclaveOS

open PageWord

/-- The machine and the tasks whose PCB is not freed yet. -/
structure System where
  machine : Machine
  proc : Nat → Option Process

namespace System

def setMachine (s : System) (m : Machine) : System := { s with machine := m }

def setProc (s : System) (p : Nat) (task : Option Process) : System :=
  { s with proc := Function.update s.proc p task }

/-- The areas of a task after a system call. -/
def setVmas (s : System) (p : Nat) (task : Process) (vmas : List Vma) : System :=
  s.setProc p (some { task with vmaHead := vmas })

/-- The directory and the task of a process that is not a zombie. -/
def running (s : System) (p : Nat) : Option (Process × Nat) :=
  match s.proc p with
  | none => none
  | some task =>
    match task.pdirVirt with
    | none => none
    | some pd => some (task, pd)

theorem running_eq_some {s : System} {p pd : Nat} {task : Process} :
    s.running p = some (task, pd) ↔ s.proc p = some task ∧ task.pdirVirt = some pd := by
  unfold running
  constructor
  · intro h
    cases hp : s.proc p with
    | none =>
      rw [hp] at h
      cases h
    | some t =>
      rw [hp] at h
      dsimp only at h
      cases hpd : t.pdirVirt with
      | none =>
        rw [hpd] at h
        cases h
      | some d =>
        rw [hpd] at h
        cases h
        exact ⟨rfl, hpd⟩
  · rintro ⟨hp, hpd⟩
    rw [hp]
    dsimp only
    rw [hpd]

/-- The end of a task, by itself, by a fault or with its parent. -/
def exitTask (s : System) (p : Nat) (task : Process) : System :=
  (s.setMachine (releaseMemory s.machine task).1).setProc p
    (some (releaseMemory s.machine task).2)

end System

/-- What a process does to memory. -/
inductive Access
  | load
  | store (value : BitVec 8)

def Access.isWrite : Access → Bool
  | .load => false
  | .store _ => true

inductive SysOp
  | startInit (file : VfsFile) (k : Kmalloc)
  /-- An access by the process (`us`) or by the kernel on its behalf. -/
  | access (p addr : Nat) (a : Access) (us : Bool)
  | fork (p : Nat) (k : Kmalloc)
  | mmap (p addr len : Nat) (prot flags : Word) (k : Kmalloc)
  | munmap (p addr len : Nat) (k : Kmalloc)
  | mprotect (p addr len : Nat) (prot : Word) (k : Kmalloc)
  | brk (p newBrk : Nat) (k : Kmalloc)
  | exec (p : Nat) (file : Except Int VfsFile) (k : Kmalloc)
  | exit (p : Nat)
  | reap (p : Nat)

/-- An access that goes through, or the fault it raises. -/
def System.access (s : System) (p : Nat) (task : Process) (pd addr : Nat) (a : Access)
    (us : Bool) : Option System :=
  match cpuFault kernelCr0 s.machine pd addr a.isWrite us with
  | none =>
    match a with
    | .load => some s
    | .store value =>
      some (s.setMachine
        (s.machine.storeBytes (walkFrame s.machine pd addr) (addr % 4096) [value]))
  | some code =>
    match pageFaultHandler s.machine (some task.toFaultTask) addr code with
    | (m, .resumed) => some (s.setMachine m)
    | (m, .killed _) => some ((s.setMachine m).exitTask p task)
    | (_, .halted) => none

def SysOp.step (s : System) : SysOp → Option System
  | .startInit file k =>
    match EnclaveOS.startInit s.machine file k with
    | none => none
    | some (m, pcb, task) => some ((s.setMachine m).setProc pcb (some task))
  | .access p addr a us =>
    match s.running p with
    | none => none
    | some (task, pd) => s.access p task pd addr a us
  | .fork p k =>
    match s.running p with
    | none => none
    | some (task, pd) =>
      match taskForkMemory s.machine pd task.vmaHead k with
      | none => none
      | some (m, none) => some (s.setMachine m)
      | some (m, some (pcb, child)) => some ((s.setMachine m).setProc pcb (some child))
  | .mmap p addr len prot flags k =>
    match s.running p with
    | none => none
    | some (task, _) => some (s.setVmas p task (sysMmap task.vmaHead addr len prot flags k).1)
  | .munmap p addr len k =>
    match s.running p with
    | none => none
    | some (task, pd) =>
      match sysMunmap s.machine pd task.vmaHead addr len k with
      | (m, vmas, _) => some ((s.setMachine m).setVmas p task vmas)
  | .mprotect p addr len prot k =>
    match s.running p with
    | none => none
    | some (task, pd) =>
      match sysMprotect s.machine pd task.vmaHead addr len prot k with
      | (m, vmas, _) => some ((s.setMachine m).setVmas p task vmas)
  | .brk p newBrk k =>
    match s.running p with
    | none => none
    | some (task, _) => some (s.setVmas p task (sysBrk s.machine.pmm task.vmaHead newBrk k).1)
  | .exec p file k =>
    match s.running p with
    | none => none
    | some (task, pd) =>
      match sysExecMemory s.machine pd task.vmaHead file k with
      | none => none
      | some (m, newPd, vmas, _) =>
        some ((s.setMachine m).setProc p
          (some { task with pdirVirt := some newPd, vmaHead := vmas }))
  | .exit p =>
    match s.running p with
    | none => none
    | some (task, _) => some (s.exitTask p task)
  | .reap p =>
    match s.proc p with
    | none => none
    | some task =>
      match task.pdirVirt with
      | some _ => none
      | none => some ((s.setMachine (reapTask s.machine p task)).setProc p none)

/-- What an access comes to. -/
inductive System.Accessed (s : System) (p : Nat) (task : Process) (pd addr : Nat) (us : Bool) :
    Access → System → Prop
  | load (hcode : cpuFault kernelCr0 s.machine pd addr false us = none) :
    Accessed s p task pd addr us .load s
  | store (value : BitVec 8) (hcode : cpuFault kernelCr0 s.machine pd addr true us = none) :
    Accessed s p task pd addr us (.store value) (s.setMachine
      (s.machine.storeBytes (walkFrame s.machine pd addr) (addr % 4096) [value]))
  | resumed {a : Access} {code : FaultCode} {m : Machine}
    (hcode : cpuFault kernelCr0 s.machine pd addr a.isWrite us = some code)
    (hres : pageFaultHandler s.machine (some task.toFaultTask) addr code = (m, .resumed)) :
    Accessed s p task pd addr us a (s.setMachine m)
  | killed {a : Access} {code : FaultCode} {m : Machine} {reason : String}
    (hcode : cpuFault kernelCr0 s.machine pd addr a.isWrite us = some code)
    (hres : pageFaultHandler s.machine (some task.toFaultTask) addr code = (m, .killed reason)) :
    Accessed s p task pd addr us a ((s.setMachine m).exitTask p task)

theorem System.accessed {s s' : System} {p pd addr : Nat} {task : Process} {a : Access}
    {us : Bool} (h : s.access p task pd addr a us = some s') :
    s.Accessed p task pd addr us a s' := by
  unfold System.access at h
  cases hcode : cpuFault kernelCr0 s.machine pd addr a.isWrite us with
  | none =>
    rw [hcode] at h
    cases a with
    | load =>
      cases h
      exact .load hcode
    | store value =>
      cases h
      exact .store value hcode
  | some code =>
    rw [hcode] at h
    dsimp only at h
    rcases hres : pageFaultHandler s.machine (some task.toFaultTask) addr code with ⟨m, outcome⟩
    rw [hres] at h
    cases outcome with
    | resumed =>
      cases h
      exact .resumed hcode hres
    | killed reason =>
      cases h
      exact .killed hcode hres
    | halted => cases h

/-- What an operation does to the system. -/
inductive SysOp.Stepped (s : System) : SysOp → System → Prop
  | startInit {file : VfsFile} {k : Kmalloc} {m : Machine} {pcb : Nat} {task : Process}
    (hinit : EnclaveOS.startInit s.machine file k = some (m, pcb, task)) :
    Stepped s (.startInit file k) ((s.setMachine m).setProc pcb (some task))
  | access {p pd addr : Nat} {task : Process} {a : Access} {us : Bool} {s' : System}
    (hrun : s.running p = some (task, pd)) (haccess : s.Accessed p task pd addr us a s') :
    Stepped s (.access p addr a us) s'
  | forkFailed {p pd : Nat} {task : Process} {k : Kmalloc} {m : Machine}
    (hrun : s.running p = some (task, pd))
    (hfork : taskForkMemory s.machine pd task.vmaHead k = some (m, none)) :
    Stepped s (.fork p k) (s.setMachine m)
  | forked {p pd pcb : Nat} {task child : Process} {k : Kmalloc} {m : Machine}
    (hrun : s.running p = some (task, pd))
    (hfork : taskForkMemory s.machine pd task.vmaHead k = some (m, some (pcb, child))) :
    Stepped s (.fork p k) ((s.setMachine m).setProc pcb (some child))
  | mmap {p pd addr len : Nat} {task : Process} {prot flags : Word} {k : Kmalloc}
    (hrun : s.running p = some (task, pd)) : Stepped s (.mmap p addr len prot flags k)
      (s.setVmas p task (sysMmap task.vmaHead addr len prot flags k).1)
  | munmap {p pd addr len : Nat} {task : Process} {k : Kmalloc}
    (hrun : s.running p = some (task, pd)) : Stepped s (.munmap p addr len k)
      ((s.setMachine (sysMunmap s.machine pd task.vmaHead addr len k).1).setVmas p task
        (sysMunmap s.machine pd task.vmaHead addr len k).2.1)
  | mprotect {p pd addr len : Nat} {task : Process} {prot : Word} {k : Kmalloc}
    (hrun : s.running p = some (task, pd)) : Stepped s (.mprotect p addr len prot k)
      ((s.setMachine (sysMprotect s.machine pd task.vmaHead addr len prot k).1).setVmas p task
        (sysMprotect s.machine pd task.vmaHead addr len prot k).2.1)
  | brk {p pd newBrk : Nat} {task : Process} {k : Kmalloc}
    (hrun : s.running p = some (task, pd)) : Stepped s (.brk p newBrk k)
      (s.setVmas p task (sysBrk s.machine.pmm task.vmaHead newBrk k).1)
  | exec {p pd newPd : Nat} {task : Process} {file : Except Int VfsFile} {k k' : Kmalloc}
    {m : Machine} {vmas : List Vma} {ret : Int} (hrun : s.running p = some (task, pd))
    (hexec : sysExecMemory s.machine pd task.vmaHead file k = some (m, newPd, vmas, ret, k')) :
    Stepped s (.exec p file k) ((s.setMachine m).setProc p
      (some { task with pdirVirt := some newPd, vmaHead := vmas }))
  | exit {p pd : Nat} {task : Process} (hrun : s.running p = some (task, pd)) :
    Stepped s (.exit p) (s.exitTask p task)
  | reap {p : Nat} {task : Process} (hproc : s.proc p = some task)
    (hdead : task.pdirVirt = none) :
    Stepped s (.reap p) ((s.setMachine (reapTask s.machine p task)).setProc p none)

theorem SysOp.stepped {s s' : System} {op : SysOp} (h : op.step s = some s') :
    op.Stepped s s' := by
  cases op with
  | startInit file k =>
    simp only [SysOp.step] at h
    rcases hinit : EnclaveOS.startInit s.machine file k with _ | ⟨m, pcb, task⟩
    · rw [hinit] at h
      cases h
    · rw [hinit] at h
      cases h
      exact .startInit hinit
  | access p addr a us =>
    rcases hrun : s.running p with _ | ⟨task, pd⟩ <;>
      simp only [SysOp.step, hrun, reduceCtorEq] at h
    exact .access hrun (System.accessed h)
  | fork p k =>
    rcases hrun : s.running p with _ | ⟨task, pd⟩ <;>
      simp only [SysOp.step, hrun, reduceCtorEq] at h
    rcases hfork : taskForkMemory s.machine pd task.vmaHead k with _ | ⟨m, _ | ⟨pcb, child⟩⟩
    · rw [hfork] at h
      cases h
    · rw [hfork] at h
      cases h
      exact .forkFailed hrun hfork
    · rw [hfork] at h
      cases h
      exact .forked hrun hfork
  | mmap p addr len prot flags k =>
    rcases hrun : s.running p with _ | ⟨task, pd⟩ <;>
      simp only [SysOp.step, hrun, reduceCtorEq] at h
    cases h
    exact .mmap hrun
  | munmap p addr len k =>
    rcases hrun : s.running p with _ | ⟨task, pd⟩ <;>
      simp only [SysOp.step, hrun, reduceCtorEq] at h
    cases h
    exact .munmap hrun
  | mprotect p addr len prot k =>
    rcases hrun : s.running p with _ | ⟨task, pd⟩ <;>
      simp only [SysOp.step, hrun, reduceCtorEq] at h
    cases h
    exact .mprotect hrun
  | brk p newBrk k =>
    rcases hrun : s.running p with _ | ⟨task, pd⟩ <;>
      simp only [SysOp.step, hrun, reduceCtorEq] at h
    cases h
    exact .brk hrun
  | exec p file k =>
    rcases hrun : s.running p with _ | ⟨task, pd⟩ <;>
      simp only [SysOp.step, hrun, reduceCtorEq] at h
    rcases hexec : sysExecMemory s.machine pd task.vmaHead file k with
      _ | ⟨m, newPd, vmas, ret, k'⟩
    · rw [hexec] at h
      cases h
    · rw [hexec] at h
      cases h
      exact .exec hrun hexec
  | exit p =>
    rcases hrun : s.running p with _ | ⟨task, pd⟩ <;>
      simp only [SysOp.step, hrun, reduceCtorEq] at h
    cases h
    exact .exit hrun
  | reap p =>
    simp only [SysOp.step] at h
    rcases hproc : s.proc p with _ | task
    · rw [hproc] at h
      cases h
    · rw [hproc] at h
      dsimp only at h
      rcases hdead : task.pdirVirt with _ | pd
      · rw [hdead] at h
        cases h
        exact .reap hproc hdead
      · rw [hdead] at h
        cases h

/-- Arguments of Ring 3 are words, and the accesses are to user addresses. -/
def SysOp.Possible (_ : System) : SysOp → Prop
  | .access _ addr _ _ => addr < kernelSpaceStart
  | .mmap _ addr len _ _ _ => addr < 4294967296 ∧ len < 4294967296
  | .munmap _ addr len _ => addr < 4294967296 ∧ len < 4294967296
  | .mprotect _ addr len _ _ => addr < 4294967296 ∧ len < 4294967296
  | .brk _ newBrk _ => newBrk < 4294967296
  | _ => True

/-- `tasking_init`: the main task takes a page for its PCB and never ends. -/
def taskingInit (m : Machine) : Option Machine :=
  match m.allocPage with
  | (m, mainPcbPhys) => if mainPcbPhys = 0#32 then none else some m

/-- The system before the first process. -/
def System.boot (image : BootImage) (info : BootInfo) (ram : Nat → Nat → Word) :
    Option System := do
  let m ← kernelBoot image info ram
  let m ← taskingInit m
  some ⟨m, fun _ => none⟩

end EnclaveOS
