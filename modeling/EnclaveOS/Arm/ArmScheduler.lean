import EnclaveOS.Config
import EnclaveOS.Foundation.Run
import Mathlib.Data.List.Basic

/-!
# ArmScheduler - the task table of the ARM kernel

The round-robin scheduler of `arm_main.c` and the tick of `arm_timer.c`.  Interrupts are
off in every function below, so a call is one function on the task table.  A switch stores the
stack pointer of the task that leaves, which the caller supplies, and nothing that the source
does after a switch touches the table.  A halt of the kernel is `none`; serial output is
left out.
-/

namespace EnclaveOS

/-- `MAX_TASKS` of `arm_main.c`. -/
def armMaxTasks : Nat := 4

/-- `TASK_STACK_SIZE`. -/
def armTaskStackSize : Nat := 4096

/-- `QUANTUM_TICKS`. -/
def quantumTicks : Nat := 10

/-- `arm_task_t.state`. -/
inductive ArmTaskState
  | free
  | ready
  | running
  | sleeping
deriving DecidableEq, Repr

/-- The fields of `arm_task_t` that the scheduler reads. -/
structure ArmTask where
  sp : Nat
  ttbr0Phys : Nat
  state : ArmTaskState
  wakeupTick : Nat

/-- A task that can run or does. -/
def ArmTask.Awake (t : ArmTask) : Prop := t.state = .ready ∨ t.state = .running

/-- The scheduler data of `arm_main.c` and `arm_timer.c`, and the TTBR0 register. -/
structure ArmScheduler where
  tasks : Nat → ArmTask
  currentTask : Nat
  numTasks : Nat
  tickCount : Nat
  quantumCounter : Nat
  ttbr0 : Nat

/-- A stack pointer pushed by `arm_context_switch`: the kernel stacks do not reach
address 0. -/
structure ArmStackPointer where
  addr : Nat
  pos : addr ≠ 0

namespace ArmScheduler

/-- The state of one task rewritten. -/
def setState (s : ArmScheduler) (i : Nat) (state : ArmTaskState) : ArmScheduler :=
  { s with tasks := Function.update s.tasks i { s.tasks i with state := state } }

/-- The candidates of the round-robin search, from the one behind the current task on. -/
def candidates (s : ArmScheduler) : List Nat :=
  (List.range s.numTasks).map fun i => (s.currentTask + 1 + i) % s.numTasks

/-- The first candidate that is ready. -/
def nextReady (s : ArmScheduler) : Option Nat :=
  s.candidates.find? fun candidate => (s.tasks candidate).state = .ready

/-- `arm_context_switch`: the old stack pointer is stored, the table of the new task is
loaded. -/
def armContextSwitch (s : ArmScheduler) (prev next : Nat) (sp : ArmStackPointer) :
    ArmScheduler :=
  { s with
    tasks := Function.update s.tasks prev { s.tasks prev with sp := sp.addr }
    ttbr0 := (s.tasks next).ttbr0Phys }

/-- The end of `schedule`, when a task to run has been found. -/
def switchTo (s : ArmScheduler) (next : Nat) (sp : ArmStackPointer) : Option ArmScheduler :=
  if next = s.currentTask then some (s.setState next .running)
  else if (s.tasks next).sp = 0 then none
  else
    some (armContextSwitch { s.setState next .running with currentTask := next }
      s.currentTask next sp)

/-- `schedule`. -/
def schedule (s : ArmScheduler) (sp : ArmStackPointer) : Option ArmScheduler :=
  let s := if (s.tasks s.currentTask).state = .running then s.setState s.currentTask .ready
    else s
  match s.nextReady with
  | some next => s.switchTo next sp
  | none =>
    if s.currentTask ≠ 0 ∧ (s.tasks 0).state ≠ .free ∧ (s.tasks 0).state ≠ .sleeping then
      (s.setState 0 .ready).switchTo 0 sp
    else if (s.tasks s.currentTask).state = .ready then
      some (s.setState s.currentTask .running)
    else some s

/-- What `arm_task_exit` and `arm_task_fault_kill` do before they switch away: the
current task is freed, and idle can run. -/
def freeCurrent (s : ArmScheduler) : ArmScheduler :=
  let s := s.setState s.currentTask .free
  if (s.tasks 0).state ≠ .running then s.setState 0 .ready else s

/-- `arm_task_yield`. -/
def armTaskYield (s : ArmScheduler) (sp : ArmStackPointer) : Option ArmScheduler := s.schedule sp

/-- `arm_task_exit`. -/
def armTaskExit (s : ArmScheduler) (sp : ArmStackPointer) : Option ArmScheduler :=
  if s.currentTask = 0 then some s else s.freeCurrent.schedule sp

/-- The current task asleep until a tick. -/
def sleepUntil (s : ArmScheduler) (tick : Nat) : ArmScheduler :=
  { s with
    tasks := Function.update s.tasks s.currentTask
      { s.tasks s.currentTask with wakeupTick := tick, state := .sleeping } }

/-- `arm_task_set_sleep`. -/
def armTaskSetSleep (s : ArmScheduler) (ms : Nat) (sp : ArmStackPointer) : Option ArmScheduler :=
  if ms = 0 then some s
  else if 0x7FFFFFFF < ms then some s
  else (s.sleepUntil (wrap64 (s.tickCount + ms))).schedule sp

/-- `arm_task_check_wakeup`. -/
def armTaskCheckWakeup (s : ArmScheduler) (currentTick : Nat) : ArmScheduler :=
  { s with tasks := fun i =>
      if i < s.numTasks ∧ (s.tasks i).state = .sleeping ∧ (s.tasks i).wakeupTick ≤ currentTick
      then { s.tasks i with state := .ready } else s.tasks i }

/-- `arm_task_fault_kill`.  It halts for task 0 and when `schedule` comes back. -/
def armTaskFaultKill (s : ArmScheduler) (sp : ArmStackPointer) : Option ArmScheduler :=
  if s.currentTask = 0 ∨ s.numTasks ≤ s.currentTask then none
  else do
    let s' ← s.freeCurrent.schedule sp
    if s'.currentTask = s.currentTask then none else some s'

/-- `timer_irq_handler` with `hal_timer_tick`. -/
def halTimerTick (s : ArmScheduler) (sp : ArmStackPointer) : Option ArmScheduler :=
  let tick := wrap64 (s.tickCount + 1)
  let s := armTaskCheckWakeup { s with tickCount := tick } tick
  let quantum := wrap32 (s.quantumCounter + 1)
  if quantumTicks ≤ quantum then schedule { s with quantumCounter := 0 } sp
  else some { s with quantumCounter := quantum }

end ArmScheduler

/-- What `arm_kernel_main` passes for a user task: its address space and its kernel
stack. -/
structure ArmUserTask where
  space : Nat
  kstackBase : Nat
  kstackFits : kstackBase + armTaskStackSize < 4294967296

namespace ArmScheduler

/-- `arm_task_create_user`, with the address space stored before it: ten words are pushed
on the kernel stack. -/
def armTaskCreateUser (s : ArmScheduler) (id : Nat) (user : ArmUserTask) : ArmScheduler :=
  let stackTop := wrap32 (user.kstackBase + armTaskStackSize) / 8 * 8
  let task := { s.tasks id with
    sp := wrap32 (stackTop + 4294967296 - 40), ttbr0Phys := user.space, state := .ready }
  { s with tasks := Function.update s.tasks id task }

/-- The user tasks created one after the other. -/
def createUsers (s : ArmScheduler) (id : Nat) : List ArmUserTask → ArmScheduler
  | [] => s
  | user :: users => createUsers (s.armTaskCreateUser id user) (id + 1) users

end ArmScheduler

/-- The tasks `arm_kernel_main` starts: idle on the boot table, and user tasks. -/
structure ArmTasks where
  bootTtbr0 : Nat
  users : List ArmUserTask
  fit : users.length ≤ armMaxTasks - 1

/-- Task 0 on its own. -/
def ArmTasks.idleOnly (tasks : ArmTasks) : ArmScheduler where
  tasks := Function.update (fun _ => ⟨0, 0, .free, 0⟩) 0 ⟨0, tasks.bootTtbr0, .running, 0⟩
  currentTask := 0
  numTasks := 1 + tasks.users.length
  tickCount := 0
  quantumCounter := 0
  ttbr0 := tasks.bootTtbr0

/-- The scheduler when `arm_kernel_main` enables interrupts. -/
def ArmTasks.start (tasks : ArmTasks) : ArmScheduler :=
  tasks.idleOnly.createUsers 1 tasks.users

/-- The entries of the scheduler. -/
inductive ArmTaskOp
  | halTimerTick (sp : ArmStackPointer)
  | armTaskYield (sp : ArmStackPointer)
  | armTaskExit (sp : ArmStackPointer)
  | armTaskSetSleep (ms : Nat) (sp : ArmStackPointer)
  | armTaskCheckWakeup
  | armTaskFaultKill (sp : ArmStackPointer)

namespace ArmScheduler

def step (s : ArmScheduler) : ArmTaskOp → Option ArmScheduler
  | .halTimerTick sp => s.halTimerTick sp
  | .armTaskYield sp => s.armTaskYield sp
  | .armTaskExit sp => s.armTaskExit sp
  | .armTaskSetSleep ms sp => s.armTaskSetSleep ms sp
  | .armTaskCheckWakeup => some (s.armTaskCheckWakeup s.tickCount)
  | .armTaskFaultKill sp => s.armTaskFaultKill sp

/-- System calls and faults come from user mode, which task 0 never enters. -/
def Offered (s : ArmScheduler) : ArmTaskOp → Prop
  | .halTimerTick _ | .armTaskCheckWakeup => True
  | .armTaskYield _ | .armTaskExit _ | .armTaskSetSleep _ _ | .armTaskFaultKill _ =>
    s.currentTask ≠ 0

end ArmScheduler
end EnclaveOS
