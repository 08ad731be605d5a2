import EnclaveOS.Foundation.Run
import Mathlib.Logic.Function.Basic
import Mathlib.Tactic.SplitIfs

/-!
# Fpu - lazy switching of the floating point registers

The registers of the FPU stay with the task that used them last.  A context switch
only sets `CR0.TS`, and the first FPU instruction after it traps to
`device_not_available_handler`, which saves the registers of the old owner and
loads those of the new one.  The contents of the register file are of an arbitrary
type.
-/

namespace EnclaveOS

/-- What a process control block is used for. -/
inductive TaskUse
  | free
  | kernel
  | user
  | exited
deriving DecidableEq

/-- The FPU part of `task_t`. -/
structure FpuTask (F : Type*) where
  status : TaskUse
  fpuState : F
  fpuInitialized : Bool

/-- The register file, `CR0.TS`, `fpu_owner` and the save areas. -/
structure FpuSystem (F : Type*) where
  tasks : Nat → FpuTask F
  currentTask : Nat
  fpuOwner : Option Nat
  ts : Bool
  regs : F

/-- What happens to the FPU.  An instruction leaves new contents in the registers. -/
inductive FpuOp (F : Type*)
  | instruction (out : F)
  | switchContext (task : Nat)
  | taskCreate (task : Nat)
  | taskFork (child : Nat)
  | sysExec
  | taskExit
  | killChild (child : Nat)
  | reap (task : Nat)

namespace FpuSystem

variable {F : Type*}

/-- Rewrite the control block of a task. -/
def setTask (s : FpuSystem F) (task : Nat) (t : FpuTask F) : FpuSystem F :=
  { s with tasks := Function.update s.tasks task t }

theorem setTask_tasks (s : FpuSystem F) (i j : Nat) (t : FpuTask F) :
    (s.setTask i t).tasks j = if j = i then t else s.tasks j :=
  Function.update_apply ..

@[simp]
theorem setTask_currentTask (s : FpuSystem F) (i : Nat) (t : FpuTask F) :
    (s.setTask i t).currentTask = s.currentTask := rfl
@[simp]
theorem setTask_fpuOwner (s : FpuSystem F) (i : Nat) (t : FpuTask F) :
    (s.setTask i t).fpuOwner = s.fpuOwner := rfl
@[simp]
theorem setTask_ts (s : FpuSystem F) (i : Nat) (t : FpuTask F) : (s.setTask i t).ts = s.ts := rfl
@[simp]
theorem setTask_regs (s : FpuSystem F) (i : Nat) (t : FpuTask F) :
    (s.setTask i t).regs = s.regs := rfl

/-- The save area that `fxsave` writes when another task owns the registers. -/
def saveOwner (s : FpuSystem F) : FpuSystem F :=
  match s.fpuOwner with
  | some owner =>
    if owner ≠ s.currentTask then
      s.setTask owner { s.tasks owner with fpuState := s.regs }
    else s
  | none => s

/-- `device_not_available_handler`; `clean` is what `fninit` leaves. -/
def deviceNotAvailable (clean : F) (s : FpuSystem F) : FpuSystem F :=
  let s := { s with ts := false }.saveOwner
  let task := s.tasks s.currentTask
  let s :=
    if task.fpuInitialized then { s with regs := task.fpuState }
    else
      { s with regs := clean }.setTask s.currentTask
        { task with fpuState := clean, fpuInitialized := true }
  { s with fpuOwner := some s.currentTask }

/-- The state in which an FPU instruction executes. -/
def access (clean : F) (s : FpuSystem F) : FpuSystem F :=
  if s.ts then s.deviceNotAvailable clean else s

/-- `fpu_release_ownership`. -/
def fpuReleaseOwnership (s : FpuSystem F) (task : Nat) : FpuSystem F :=
  if s.fpuOwner = some task then { s with fpuOwner := none } else s

/-- A task that gives up the registers and exits. -/
def leave (s : FpuSystem F) (task : Nat) : FpuSystem F :=
  (s.fpuReleaseOwnership task).setTask task { s.tasks task with status := .exited }

/-- One event; `zero` is the save area of a zeroed control block. -/
def step (clean zero : F) (s : FpuSystem F) : FpuOp F → FpuSystem F
  | .instruction out => { s.access clean with regs := out }
  | .switchContext task => { s with currentTask := task, ts := true }
  | .taskCreate task => s.setTask task ⟨.user, zero, false⟩
  | .taskFork child =>
    let parent := s.tasks s.currentTask
    s.setTask child ⟨.user, parent.fpuState, parent.fpuInitialized⟩
  | .sysExec =>
    (s.fpuReleaseOwnership s.currentTask).setTask s.currentTask
      { s.tasks s.currentTask with fpuInitialized := false }
  | .taskExit => s.leave s.currentTask
  | .killChild child => s.leave child
  | .reap task => s.setTask task { s.tasks task with status := .free }

/-- Events that can happen in a state.  The kernel's own code runs no FPU instruction,
and a new task takes a control block that is free. -/
def Offered (s : FpuSystem F) : FpuOp F → Prop
  | .instruction _ => (s.tasks s.currentTask).status = .user
  | .switchContext task =>
    (s.tasks task).status = .user ∨ (s.tasks task).status = .kernel
  | .taskCreate task => (s.tasks task).status = .free ∧ task ≠ s.currentTask
  | .taskFork child =>
    (s.tasks s.currentTask).status = .user ∧ (s.tasks child).status = .free
  | .sysExec => (s.tasks s.currentTask).status = .user
  | .taskExit => (s.tasks s.currentTask).status = .user
  | .killChild child => (s.tasks child).status = .user ∧ child ≠ s.currentTask
  | .reap task => (s.tasks task).status = .exited

/-- `tasking_init`: the kernel's own task runs, and nobody owns the registers. -/
def boot (zero : F) (main : Nat) (ts : Bool) (regs : F) : FpuSystem F where
  tasks task := ⟨if task = main then .kernel else .free, zero, false⟩
  currentTask := main
  fpuOwner := none
  ts := ts
  regs := regs

end FpuSystem

/-- Contents of the registers of each task when every switch saves and restores them. -/
def eagerStep {F : Type*} (clean : F) (current : Nat) (contents : Nat → F) :
    FpuOp F → Nat → F
  | .instruction out => Function.update contents current out
  | .taskCreate task => Function.update contents task clean
  | .taskFork child => Function.update contents child (contents current)
  | .sysExec => Function.update contents current clean
  | _ => contents

/-- The lazy system and the contents it has to show. -/
structure FpuRun (F : Type*) where
  sys : FpuSystem F
  contents : Nat → F

namespace FpuRun

variable {F : Type*}

def step (clean zero : F) (r : FpuRun F) (op : FpuOp F) : FpuRun F where
  sys := r.sys.step clean zero op
  contents := eagerStep clean r.sys.currentTask r.contents op

/-- The start of a run. -/
def boot (clean zero : F) (main : Nat) (ts : Bool) (regs : F) : FpuRun F where
  sys := .boot zero main ts regs
  contents _ := clean

end FpuRun

end EnclaveOS
