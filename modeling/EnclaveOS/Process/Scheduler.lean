import EnclaveOS.Config
import EnclaveOS.Foundation.Run

/-!
# Scheduler - tasks, the run queue, the process tree and the reaper

The functions of `task.c` on process control blocks in memory.  A block is named by
the frame that holds it, and a block that has been given back is not a task: an access
to it, or through a null pointer, has no next state.  A walk along pointers that does
not come to an end has no next state either; `taskLimit` blocks are all there can
be.

Interrupts are off in these functions, so each of them runs to its call of
`schedule` without interruption.  `schedule` itself is several steps: one for
each block that its reaper takes from the list, and one for the switch.
-/

namespace EnclaveOS

/-- The frame that holds a process control block. -/
abbrev Pcb := Nat

/-- A block is one page frame. -/
def taskLimit : Nat := 1048576

def WNOHANG : Nat := 1

inductive TaskState
  | running
  | ready
  | sleeping
  | zombie
  | dead
deriving DecidableEq, Repr

/-- The fields of `task_t` that order the tasks.  The field `birth` is not in the
source: it is the value of the pid counter when the task was made, without reduction, and
tells apart the tasks that a frame holds one after another. -/
structure Task where
  pid : Nat
  state : TaskState
  kernelStackVirt : Nat
  parent : Option Pcb
  children : Option Pcb
  nextSibling : Option Pcb
  exitCode : Int
  orphanOnExit : Bool
  monitorChildren : Bool
  next : Option Pcb
  prev : Option Pcb
  reaperNext : Option Pcb
  sleepUntil : Nat
  birth : Nat
deriving DecidableEq, Repr

/-- The pid and the flags that Init gets after `task_create`. -/
def Task.asInit (t : Task) : Task :=
  { t with pid := 1, orphanOnExit := false, monitorChildren := true }

/-- The task that `tasking_init` makes of the code that runs already. -/
def Task.kernelMain (main : Pcb) : Task :=
  { pid := 1, state := .running, kernelStackVirt := 0, parent := none, children := none,
    nextSibling := none, exitCode := 0, orphanOnExit := true, monitorChildren := false,
    next := some main, prev := some main, reaperNext := none, sleepUntil := 0, birth := 1 }

/-- What a task and its parent can observe; tasks are named by their birth. -/
inductive TaskEvent
  | created (parent birth : Nat) (pcb : Pcb) (stack : Nat)
  | adopted (parent birth : Nat)
  | exited (birth pid : Nat) (code : Int)
  | delivered (waiter birth pid : Nat) (code : Int)
  | freedStack (birth stack : Nat)
  | freedPcb (birth : Nat) (pcb : Pcb)
deriving DecidableEq, Repr

/-- Where the processor is. -/
inductive Phase
  /-- The current task runs its own code. -/
  | running
  /-- In `schedule`, before the switch. -/
  | reaping
  /-- In `schedule`, halted until the next interrupt. -/
  | idle
  /-- Halted for good. -/
  | halted
deriving DecidableEq, Repr

/-- The tasks and the variables of `task.c` and `timer.c`.  The counters
`nextPid` and `tickCount` are not reduced; the source reads them modulo
`2 ^ 32`.  `mainTask` is the task that runs `kernel_main`, and `reaped` the
local variable `dead` of `schedule`: the task that the reaper has taken from its
list and not given back yet. -/
structure Scheduler where
  task : Pcb → Option Task
  currentTask : Pcb
  initTask : Pcb
  mainTask : Pcb
  deadTasksHead : Option Pcb
  reaped : Option Pcb
  nextPid : Nat
  tickCount : Nat
  phase : Phase
  log : List TaskEvent

/-- How an allocation of a kernel stack, a block and an address space ends. -/
inductive NewTask
  /-- No stack or no block. -/
  | noMemory
  /-- No address space; the pid has been taken. -/
  | noSpace
  | ok (pcb : Pcb) (stack : Nat)
deriving DecidableEq, Repr

inductive TaskOp
  /-- `kernel_main` starts Init. -/
  | startInit (pcb : Pcb) (stack : Nat)
  | taskCreate (memory : NewTask)
  | taskFork (memory : NewTask)
  | taskExit (exitCode : Int)
  | taskKillCurrent
  | taskWaitpid (pid options : Nat)
  | sysSleep (ms : Nat)
  | taskYield
  | timerTick
  /-- One round of the reaper; a block and a stack for Init, should it be started again. -/
  | reap (respawn : Option (Pcb × Nat))
  /-- The rest of `schedule`. -/
  | dispatch
deriving DecidableEq, Repr

namespace Scheduler

/-- Write fields of a task. -/
def set (s : Scheduler) (p : Pcb) (f : Task → Task) : Option Scheduler :=
  (s.task p).map fun t => { s with task := Function.update s.task p (some (f t)) }

def note (s : Scheduler) (e : TaskEvent) : Scheduler := { s with log := e :: s.log }

/-- `timer_get_ticks`. -/
def timerGetTicks (s : Scheduler) : Nat := wrap32 s.tickCount

/-- `task_queue_add`: the task goes behind the current one. -/
def taskQueueAdd (s : Scheduler) (task : Pcb) : Option Scheduler := do
  let current ← s.task s.currentTask
  let s ← s.set task fun t => { t with next := current.next, prev := some s.currentTask }
  let after ← current.next
  let s ← s.set after fun t => { t with prev := some task }
  s.set s.currentTask fun t => { t with next := some task }

/-- The neighbours of a task are linked to each other. -/
def bypass (s : Scheduler) (task : Pcb) : Option Scheduler := do
  let t ← s.task task
  let before ← t.prev
  let s ← s.set before fun b => { b with next := t.next }
  let t ← s.task task
  let after ← t.next
  s.set after fun a => { a with prev := t.prev }

/-- The removal in `task_exit`, `task_kill_current` and
`task_cleanup_children_on_exit`, which also resets the pointers of the task. -/
def queueRemove (s : Scheduler) (task : Pcb) : Option Scheduler := do
  let t ← s.task task
  if t.next ≠ none ∧ t.prev ≠ none ∧ t.next ≠ some task then do
    let s ← s.bypass task
    s.set task fun t => { t with next := some task, prev := some task }
  else some s

/-- Put a task in front of the list of the reaper. -/
def pushDead (s : Scheduler) (task : Pcb) : Option Scheduler := do
  let s ← s.set task fun t => { t with reaperNext := s.deadTasksHead }
  some { s with deadTasksHead := some task }

/-- A task with its pid, made a child of the current one and queued: what
`task_create` and `task_fork` have in common. -/
def addTask (s : Scheduler) (pcb : Pcb) (stack : Nat) (orphanOnExit monitorChildren : Bool) :
    Option Scheduler := do
  let current ← s.task s.currentTask
  let new : Task :=
    { pid := wrap32 s.nextPid, state := .ready, kernelStackVirt := stack,
      parent := some s.currentTask, children := none, nextSibling := current.children,
      exitCode := 0, orphanOnExit := orphanOnExit, monitorChildren := monitorChildren,
      next := none, prev := none, reaperNext := none, sleepUntil := 0, birth := s.nextPid }
  let s := { s with task := Function.update s.task pcb (some new), nextPid := s.nextPid + 1 }
  let s := s.note (.created current.birth new.birth pcb stack)
  let s ← s.set s.currentTask fun t => { t with children := some pcb }
  s.taskQueueAdd pcb

def taskCreate (s : Scheduler) : NewTask → Option Scheduler
  | .noMemory => some s
  | .noSpace => some { s with nextPid := s.nextPid + 1 }
  | .ok pcb stack => s.addTask pcb stack true false

def taskFork (s : Scheduler) : NewTask → Option Scheduler
  | .noMemory => some s
  | .noSpace => some { s with nextPid := s.nextPid + 1 }
  | .ok pcb stack => do
    let current ← s.task s.currentTask
    s.addTask pcb stack current.orphanOnExit current.monitorChildren

/-- The end of `kernel_main`. -/
def startInit (s : Scheduler) (pcb : Pcb) (stack : Nat) : Option Scheduler := do
  let s ← s.taskCreate (.ok pcb stack)
  let s ← s.set pcb Task.asInit
  some { s with initTask := pcb }

/-- The loop that looks for the sibling before `child`. -/
def siblingBefore (s : Scheduler) (child : Pcb) : Nat → Option Pcb → Option (Option Pcb)
  | 0, _ => none
  | _ + 1, none => some none
  | fuel + 1, some sibling => do
    let t ← s.task sibling
    if t.nextSibling = some child then some (some sibling)
    else s.siblingBefore child fuel t.nextSibling

/-- Take `child` out of the child list of `parent`. -/
def unlinkChild (s : Scheduler) (parent child : Pcb) : Option Scheduler := do
  let p ← s.task parent
  let c ← s.task child
  if p.children = some child then
    s.set parent fun t => { t with children := c.nextSibling }
  else do
    match ← s.siblingBefore child (taskLimit + 1) p.children with
    | none => some s
    | some sibling => s.set sibling fun t => { t with nextSibling := c.nextSibling }

/-- The search of `task_waitpid`; `pid` is the register, minus one stands for any
child. -/
def findZombie (s : Scheduler) (pid : Nat) : Nat → Option Pcb → Option (Option Pcb)
  | 0, _ => none
  | _ + 1, none => some none
  | fuel + 1, some child => do
    let t ← s.task child
    if t.state = .zombie ∧ (pid = 0xFFFFFFFF ∨ t.pid = pid) then some (some child)
    else s.findZombie pid fuel t.nextSibling

/-- The end of a child whose parent goes. -/
def killChild (s : Scheduler) (child : Pcb) : Option Scheduler := do
  let s ← s.set child fun t => { t with state := .dead, exitCode := -1 }
  let s ← s.queueRemove child
  s.pushDead child

/-- `task_cleanup_children_on_exit` from a child on: the children of a child that is no
zombie go first. -/
def cleanupFrom : Nat → Scheduler → Option Pcb → Option Scheduler
  | 0, _, _ => none
  | _ + 1, s, none => some s
  | fuel + 1, s, some child => do
    let t ← s.task child
    if t.state = .dead then cleanupFrom fuel s t.nextSibling
    else do
      let s ←
        (if t.state ≠ .zombie ∧ t.children ≠ none then do
          let s ← cleanupFrom fuel s t.children
          s.set child fun t => { t with children := none }
        else some s)
      let s ← s.killChild child
      cleanupFrom fuel s t.nextSibling

/-- `task_cleanup_children_on_exit`. -/
def taskCleanupChildrenOnExit (s : Scheduler) (task : Pcb) : Option Scheduler := do
  let t ← s.task task
  let s ← cleanupFrom (taskLimit + 1) s t.children
  s.set task fun t => { t with children := none }

/-- The first child of the current task goes to `init_task`. -/
def adoptChild (s : Scheduler) (child : Pcb) : Option Scheduler := do
  let c ← s.task child
  let s ← s.set s.currentTask fun t => { t with children := c.nextSibling }
  if s.initTask ≠ s.currentTask then do
    let init ← s.task s.initTask
    let s ← s.set child fun t =>
      { t with parent := some s.initTask, nextSibling := init.children }
    let s ← s.set s.initTask fun t => { t with children := some child }
    some (s.note (.adopted init.birth c.birth))
  else s.set child fun t => { t with parent := none, nextSibling := none }

/-- The loop of `task_exit` over the children that Init adopts. -/
def adoptChildren : Nat → Scheduler → Option Scheduler
  | 0, _ => none
  | fuel + 1, s => do
    let current ← s.task s.currentTask
    match current.children with
    | none => some s
    | some child => do
      let s ← s.adoptChild child
      adoptChildren fuel s

/-- What becomes of the children of the task that goes. -/
def leaveChildren (s : Scheduler) : Option Scheduler := do
  let current ← s.task s.currentTask
  if current.pid = 1 then s.taskCleanupChildrenOnExit s.currentTask
  else if current.orphanOnExit then adoptChildren (taskLimit + 1) s
  else if current.monitorChildren then s.taskCleanupChildrenOnExit s.currentTask
  else some s

/-- The parent that waits, or sleeps for any other reason, is woken. -/
def wakeParent (s : Scheduler) : Option Scheduler := do
  let current ← s.task s.currentTask
  match current.parent with
  | none => some s
  | some parent => do
    let p ← s.task parent
    if p.state = .sleeping then
      s.set parent fun t => { t with state := .ready, sleepUntil := 0 }
    else some s

/-- Init has no parent that waits for it, and goes to the reaper at once. -/
def buryInit (s : Scheduler) : Option Scheduler := do
  let current ← s.task s.currentTask
  if current.pid = 1 then do
    let s ← s.queueRemove s.currentTask
    let s ← s.set s.currentTask fun t => { t with state := .dead }
    s.pushDead s.currentTask
  else some s

/-- `task_exit` up to its call of `schedule`. -/
def taskExit (s : Scheduler) (exitCode : Int) : Option Scheduler := do
  let s ← s.leaveChildren
  let s ← s.set s.currentTask fun t => { t with state := .zombie, exitCode := exitCode }
  let current ← s.task s.currentTask
  let s := s.note (.exited current.birth current.pid exitCode)
  let s ← s.wakeParent
  let s ← s.buryInit
  some { s with phase := .reaping }

/-- `task_kill_current`, which is `task_exit` with exit code minus one except that it
stops the machine for pid 0. -/
def taskKillCurrent (s : Scheduler) : Option Scheduler := do
  let current ← s.task s.currentTask
  if current.pid = 0 then some { s with phase := .halted }
  else s.taskExit (-1)

/-- The zombie that `task_waitpid` has found is handed to the reaper.  Its own queue
pointers are not reset here. -/
def collect (s : Scheduler) (zombie : Pcb) : Option Scheduler := do
  let z ← s.task zombie
  let current ← s.task s.currentTask
  let s ← s.unlinkChild s.currentTask zombie
  let s ← (if z.next ≠ some zombie then s.bypass zombie else some s)
  let s ← s.set zombie fun t => { t with state := .dead }
  let s ← s.pushDead zombie
  some (s.note (.delivered current.birth z.birth z.pid z.exitCode))

/-- One round of the loop of `task_waitpid`.  A task that has slept runs another round
when it is current again. -/
def taskWaitpid (s : Scheduler) (pid options : Nat) : Option Scheduler := do
  let current ← s.task s.currentTask
  match ← s.findZombie pid (taskLimit + 1) current.children with
  | some zombie => s.collect zombie
  | none =>
    if options &&& WNOHANG ≠ 0 then some s
    else do
      let s ← s.set s.currentTask fun t => { t with state := .sleeping, sleepUntil := 0 }
      some { s with phase := .reaping }

/-- `sys_sleep_handler`. -/
def sysSleep (s : Scheduler) (ms : Nat) : Option Scheduler :=
  if ms = 0 then some { s with phase := .reaping }
  else do
    let s ← s.set s.currentTask fun t =>
      { t with sleepUntil := wrap32 (s.timerGetTicks + ms), state := .sleeping }
    some { s with phase := .reaping }

/-- `wake_sleepers` from a task of the queue on. -/
def wakeFrom : Nat → Scheduler → Pcb → Option Scheduler
  | 0, _, _ => none
  | fuel + 1, s, p => do
    let t ← s.task p
    let s ←
      (if t.state = .sleeping ∧ 0 < t.sleepUntil ∧ t.sleepUntil ≤ s.timerGetTicks then
        s.set p fun t => { t with state := .ready, sleepUntil := 0 }
      else some s)
    let after ← t.next
    if after = s.currentTask then some s else wakeFrom fuel s after

/-- `pit_handler` and `task_timer_tick`. -/
def timerTick (s : Scheduler) : Option Scheduler := do
  let s := { s with tickCount := s.tickCount + 1 }
  let s ← wakeFrom taskLimit s s.currentTask
  if s.timerGetTicks % 10 = 0 then some { s with phase := .reaping }
  else some { s with phase := .running }

/-- `respawn_init_task` with the block and the stack that `task_create` gets. -/
def respawnInitTask (s : Scheduler) (pcb : Pcb) (stack : Nat) : Option Scheduler := do
  let s ← s.taskCreate (.ok pcb stack)
  let s ← s.set pcb Task.asInit
  let s ← s.unlinkChild s.currentTask pcb
  let s ← s.set pcb fun t => { t with parent := none, nextSibling := none }
  some { s with initTask := pcb }

/-- The end of a round of the reaper: the kernel stack and the block are given back. -/
def release (s : Scheduler) (dead : Pcb) : Option Scheduler := do
  let t ← s.task dead
  let s := if t.kernelStackVirt ≠ 0 then s.note (.freedStack t.birth t.kernelStackVirt) else s
  let s := { s with task := Function.update s.task dead none, reaped := none }
  some (s.note (.freedPcb t.birth dead))

/-- One round of the reaper.  The machine stops when Init cannot be started again. -/
def reap (s : Scheduler) (respawn : Option (Pcb × Nat)) : Option Scheduler := do
  let dead ← s.deadTasksHead
  let t ← s.task dead
  let s := { s with deadTasksHead := t.reaperNext, reaped := some dead }
  if t.pid = 1 then
    match respawn with
    | none => some { s with phase := .halted }
    | some (pcb, stack) => do
      let s ← s.respawnInitTask pcb stack
      s.release dead
  else s.release dead

/-- The loop of `schedule` that looks for a task to run. -/
def pickNext (s : Scheduler) : Nat → Pcb → Option Pcb
  | 0, _ => none
  | fuel + 1, new =>
    if new = s.currentTask then some new
    else do
      let t ← s.task new
      if t.state = .sleeping ∨ t.state = .zombie ∨ t.state = .dead then do
        let after ← t.next
        s.pickNext fuel after
      else some new

/-- `schedule` after the reaper. -/
def dispatch (s : Scheduler) : Option Scheduler := do
  let old ← s.task s.currentTask
  match old.next with
  | none => some { s with phase := .running }
  | some first => do
    let new ← s.pickNext taskLimit first
    if new = s.currentTask then
      some { s with phase := if old.state = .running then .running else .idle }
    else do
      let s ←
        (if old.state = .running then
          s.set s.currentTask fun t => { t with state := .ready }
        else some s)
      let s ← s.set new fun t => { t with state := .running }
      some { s with currentTask := new, phase := .running }

def step (s : Scheduler) : TaskOp → Option Scheduler
  | .startInit pcb stack => s.startInit pcb stack
  | .taskCreate memory => s.taskCreate memory
  | .taskFork memory => s.taskFork memory
  | .taskExit exitCode => s.taskExit exitCode
  | .taskKillCurrent => s.taskKillCurrent
  | .taskWaitpid pid options => s.taskWaitpid pid options
  | .sysSleep ms => s.sysSleep ms
  | .taskYield => some { s with phase := .reaping }
  | .timerTick => s.timerTick
  | .reap respawn => s.reap respawn
  | .dispatch => s.dispatch

/-- A block that holds no task and a kernel stack that no task has. -/
def Fresh (s : Scheduler) (pcb : Pcb) (stack : Nat) : Prop :=
  pcb < taskLimit ∧ s.task pcb = none ∧ stack ≠ 0 ∧
    ∀ p t, s.task p = some t → t.kernelStackVirt ≠ stack

def FreshMemory (s : Scheduler) : NewTask → Prop
  | .ok pcb stack => s.Fresh pcb stack
  | _ => True

/-- A task that runs its own code in a system call. -/
def InSyscall (s : Scheduler) : Prop :=
  s.phase = .running ∧ s.currentTask ≠ s.mainTask ∧
    ∀ t, s.task s.currentTask = some t → t.state ≠ .zombie ∧ t.state ≠ .dead

/-- What can happen in a state.  `kernel_main` starts Init once and from then on waits for
interrupts; allocations return memory that is not in use. -/
def Offered (s : Scheduler) : TaskOp → Prop
  | .startInit pcb stack =>
    s.phase = .running ∧ s.currentTask = s.mainTask ∧ s.initTask = s.mainTask ∧
      s.Fresh pcb stack
  | .taskCreate memory =>
    s.phase = .running ∧ (s.currentTask = s.mainTask ∨ s.InSyscall) ∧ s.FreshMemory memory
  | .taskFork memory => s.InSyscall ∧ s.FreshMemory memory
  | .taskExit _ => s.InSyscall
  | .taskKillCurrent => s.InSyscall
  | .taskWaitpid _ _ => s.InSyscall
  | .sysSleep ms => s.InSyscall ∧ ms < 4294967296
  | .taskYield => s.InSyscall
  | .timerTick => s.phase = .running ∨ s.phase = .idle
  | .reap respawn =>
    s.phase = .reaping ∧ s.deadTasksHead ≠ none ∧
      ∀ pcb stack, respawn = some (pcb, stack) → s.Fresh pcb stack
  | .dispatch => s.phase = .reaping ∧ s.deadTasksHead = none

/-- `tasking_init`, in any tick. -/
def boot (main : Pcb) (ticks : Nat) : Scheduler where
  task := Function.update (fun _ => none) main (some (Task.kernelMain main))
  currentTask := main
  initTask := main
  mainTask := main
  deadTasksHead := none
  reaped := none
  nextPid := 2
  tickCount := ticks
  phase := .running
  log := []

end Scheduler
end EnclaveOS
