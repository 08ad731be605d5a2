import EnclaveOS.Process.TaskRest

/-!
# SchedulerRuns - the run queue, the reaper and the life of a task over whole runs

Runs in which no task with pid 1 exits or is killed.  In these every step goes through,
and what the reaper frees is never in use.  When Init itself goes, it becomes the head of
the list of the reaper while it is still the current task.
-/

namespace EnclaveOS
namespace Scheduler

variable {s s' : Scheduler} {main p : Pcb} {ticks : Nat} {op : TaskOp}

/-- The task that exits or is killed is not one with pid 1. -/
def SparesInit (s : Scheduler) : TaskOp → Prop
  | .taskExit _ | .taskKillCurrent => ∀ t, s.task s.currentTask = some t → t.pid ≠ 1
  | _ => True

/-- The runs from boot in which every step meets a condition. -/
abbrev Runs (condition : Scheduler → TaskOp → Prop) (main : Pcb) (ticks : Nat) :
    Scheduler → Prop :=
  Reach Scheduler.step (fun s op => s.Offered op ∧ condition s op) (boot main ticks)

theorem boot_task : (boot main ticks).task p =
    if p = main then some (Task.kernelMain main) else none := by
  simp [boot, Function.update_apply]

theorem eq_of_boot_task {t : Task} (h : (boot main ticks).task p = some t) :
    p = main ∧ t = Task.kernelMain main := by
  rw [boot_task] at h
  split_ifs at h with hp
  exact ⟨hp, (Option.some.inj h).symm⟩

theorem TaskInv.boot (hmain : main < taskLimit) (ticks : Nat) : TaskInv (boot main ticks) := by
  have hself : (Scheduler.boot main ticks).task main = some (Task.kernelMain main) := by
    simp [boot_task]
  have hlink : ∀ g, (Scheduler.boot main ticks).link g main = g (Task.kernelMain main) :=
    fun g => link_of_task hself
  have halive : ∀ p, (Scheduler.boot main ticks).Alive p ↔ p = main := by
    intro p
    constructor
    · rintro ⟨t, ht, -⟩
      exact (eq_of_boot_task ht).1
    · rintro rfl
      exact ⟨_, hself, by simp [Task.kernelMain]⟩
  have hdead : ∀ p, ¬ (Scheduler.boot main ticks).Dead p := by
    rintro p ⟨t, ht, hd⟩
    rw [(eq_of_boot_task ht).2] at hd
    simp [Task.kernelMain] at hd
  constructor
  case queue =>
    refine ⟨⟨[], ⟨by simp, ?_⟩, ?_⟩, ⟨[], rfl, by simp [hdead]⟩, by simp [Scheduler.boot]⟩
    · have hring : Linked ((Scheduler.boot main ticks).link Task.next)
          ((Scheduler.boot main ticks).link Task.prev) main main := ⟨hlink _, hlink _⟩
      simpa [Scheduler.boot] using hring
    · simpa [Scheduler.boot] using fun p => (halive p).symm
  case family =>
    have hroot : (Scheduler.boot main ticks).link Task.parent main = none := hlink _
    refine ⟨⟨?_, ?_, ?_, ?_⟩, ?_⟩
    · intro p hp
      obtain rfl := (halive p).mp hp
      refine ⟨[], hlink _, fun q => ?_⟩
      simp only [List.not_mem_nil, false_iff, not_and]
      intro hq
      rw [(halive q).mp hq, hroot]
      simp
    · intro q hq _
      rw [(halive q).mp hq]
      exact hlink _
    · intro p q hq hp
      rw [(halive q).mp hq, hroot] at hp
      cases hp
    · intro q hq
      rw [(halive q).mp hq]
      exact ⟨0, .root hroot⟩
    · intro p t ht _
      rw [(eq_of_boot_task ht).1]
      exact hlink _
  case roles =>
    constructor
    case limit => exact fun p t ht => (eq_of_boot_task ht).1 ▸ hmain
    case main => exact ⟨_, hself, rfl, Or.inl rfl, rfl⟩
    case init => exact ⟨_, hself, rfl, by simp [Task.kernelMain], by simp [Task.kernelMain], Or.inl rfl⟩
    case root => exact fun p t ht _ _ => (eq_of_boot_task ht).2 ▸ rfl
    case policy => exact fun p t ht => Or.inl ((eq_of_boot_task ht).2 ▸ rfl)
  case supply =>
    constructor
    case stack =>
      intro p t ht
      obtain ⟨rfl, rfl⟩ := eq_of_boot_task ht
      simp [Task.kernelMain, Scheduler.boot]
    case stack_inj =>
      intro p q t u ht hu _
      rw [(eq_of_boot_task ht).1, (eq_of_boot_task hu).1]
    case birth_lt =>
      intro p t ht
      rw [(eq_of_boot_task ht).2]
      exact Nat.lt_succ_self 1
    case birth_inj =>
      intro p q t u ht hu _
      rw [(eq_of_boot_task ht).1, (eq_of_boot_task hu).1]
  case ledger =>
    constructor
    case recent => simp [Scheduler.boot]
    case held => exact fun p t ht hp => absurd (eq_of_boot_task ht).1 hp
    case unfreed => exact fun p t _ => rfl
    case released => simp [Scheduler.boot]
    case zombie =>
      intro p t ht hz
      rw [(eq_of_boot_task ht).2] at hz
      simp [Task.kernelMain] at hz
    case active => simp [Scheduler.boot]
    case undelivered => simp [Scheduler.boot]
    case parents =>
      intro p t w u ht _ hw _
      rw [(eq_of_boot_task ht).2] at hw
      simp [Task.kernelMain] at hw
    case orderly => exact trivial

theorem SchedulerInv.boot (hmain : main < taskLimit) (ticks : Nat) :
    SchedulerInv (boot main ticks) :=
  ⟨.boot hmain ticks, by simp [Scheduler.boot], fun _ => rfl, Task.kernelMain main,
    by simp [Scheduler.boot], by simp [Task.kernelMain], fun _ => rfl⟩

/-- Every step that spares Init goes through and keeps the invariants. -/
theorem SchedulerInv.step (h : SchedulerInv s) (hop : s.Offered op) (hspares : s.SparesInit op) :
    ∃ s', s.step op = some s' ∧ SchedulerInv s' := by
  cases op with
  | startInit pcb stack => exact startInit_spec h hop.1 hop.2.1 hop.2.2.2
  | taskCreate memory => exact taskCreate_spec h hop.1 hop.2.2
  | taskFork memory => exact taskFork_spec h hop.1.1 hop.2
  | taskExit code =>
    obtain ⟨cur, hcur, -⟩ := h.awake
    exact taskExit_spec h hop.1 hop.2.1 hcur (hspares cur hcur) code
  | taskKillCurrent =>
    obtain ⟨cur, hcur, -⟩ := h.awake
    exact taskKillCurrent_spec h hop.1 hop.2.1 hcur (hspares cur hcur)
  | taskWaitpid pid options => exact taskWaitpid_spec h hop.1 hop.2.1 pid options
  | sysSleep ms => exact sysSleep_spec h hop.1.1 hop.1.2.1 ms
  | taskYield =>
    obtain ⟨cur, hcur, hready, -⟩ := h.awake
    refine ⟨_, rfl, h.tasks.congr rfl rfl rfl rfl rfl rfl rfl rfl, by simp,
      fun _ => h.reaper (by simp [hop.1]), cur, hcur, hready, by simp⟩
  | timerTick =>
    have hphase : s.phase = .running := hop.resolve_right h.busy
    obtain ⟨s', hrun, h', -⟩ := timerTick_spec h hphase
    exact ⟨s', hrun, h'⟩
  | reap respawn =>
    obtain ⟨p, hp⟩ := Option.ne_none_iff_exists'.mp hop.2.1
    obtain ⟨s', hrun, h', -⟩ := reap_spec h hop.1 hp hop.2.2
    exact ⟨s', hrun, h'⟩
  | dispatch => exact dispatch_spec h hop.1

/-- The invariants hold throughout a run that spares Init. -/
theorem SchedulerInv.of_run (hmain : main < taskLimit) (h : Runs SparesInit main ticks s) :
    SchedulerInv s := by
  apply Reach.invariant (SchedulerInv.boot hmain ticks) _ h
  intro s op s' hs hop hstep
  obtain ⟨s₁, hrun, h₁⟩ := hs.step hop.1 hop.2
  rw [hstep, Option.some.injEq] at hrun
  exact hrun ▸ h₁

/-- While `schedule` runs on the stack of the current task, nothing of that task is given
back: it is in memory and none of it has been freed, it is not on the list of the reaper, and
it is as before after any round. -/
structure ReaperSpares (s : Scheduler) : Prop where
  current : ∃ t, s.task s.currentTask = some t ∧ s.log.filter (·.freesOf t.birth) = []
  waiting : ∃ l, Threaded (s.link Task.reaperNext) s.deadTasksHead l ∧ s.currentTask ∉ l
  taken : s.reaped ≠ some s.currentTask
  round : ∀ respawn s', s.Offered (.reap respawn) → s.step (.reap respawn) = some s' →
    s'.currentTask = s.currentTask ∧ ∃ t t', s.task s.currentTask = some t ∧
      s'.task s.currentTask = some t' ∧ t'.kernelStackVirt = t.kernelStackVirt ∧
      t'.birth = t.birth ∧ s'.log.filter (·.freesOf t.birth) = []

/-- The queue from the current task is one cycle of the tasks that are not dead, and a round of
the reaper takes none of them off it. -/
structure QueueWellFormed (s : Scheduler) : Prop where
  cycle : ∃ rest, Ring (s.link Task.next) (s.link Task.prev) s.currentTask rest ∧
    ∀ p, p ∈ s.currentTask :: rest ↔ s.Alive p
  round : ∀ respawn s', s.Offered (.reap respawn) → s.step (.reap respawn) = some s' →
    ∀ p, s.Alive p → s'.Alive p

/-- What has become of every task that was made, and that no pointer is stale.  A pointer is
answered by the task that it leads to, and the parent is the one that the log names. -/
structure Lifecycle (s : Scheduler) : Prop where
  released : ∀ w b p stack, .created w b p stack ∈ s.log →
    (s.log.filter (·.freesOf b) = [] ∧
      ∃ t, s.task p = some t ∧ t.birth = b ∧ t.kernelStackVirt = stack) ∨
    s.log.filter (·.freesOf b) = [.freedPcb b p, .freedStack b stack]
  collected : s.phase = .reaping → s.deadTasksHead = none → ∀ p, ¬ s.Dead p
  orderly : TaskEvent.Orderly s.log
  current : s.Alive s.currentTask
  init : s.Alive s.initTask
  queue : ∀ p t, s.task p = some t → t.state ≠ .dead → ∃ q r, t.next = some q ∧ t.prev = some r ∧
    s.Alive q ∧ s.Alive r ∧ s.link Task.prev q = some p ∧ s.link Task.next r = some p
  parent : ∀ p t q, s.task p = some t → t.state ≠ .dead → t.parent = some q →
    ∃ u, s.task q = some u ∧ u.state ≠ .dead ∧ TaskEvent.parentIn t.birth s.log = some u.birth
  children : ∀ p t q, s.task p = some t → t.state ≠ .dead → t.children = some q →
    s.Alive q ∧ s.link Task.parent q = some p
  nextSibling : ∀ p t q, s.task p = some t → t.state ≠ .dead → t.nextSibling = some q →
    s.Alive q ∧ s.link Task.parent q = t.parent
  deadList : ∃ l, Threaded (s.link Task.reaperNext) s.deadTasksHead l ∧ ∀ q ∈ l, s.Dead q

namespace SchedulerInv

variable (h : SchedulerInv s)

include h

/-- The reaper leaves the tasks that are not dead as they are. -/
theorem round {respawn : Option (Pcb × Nat)} (hop : s.Offered (.reap respawn))
    (hstep : s.step (.reap respawn) = some s') : SchedulerInv s' ∧
      s'.currentTask = s.currentTask ∧ ∀ q t, s.task q = some t → t.state ≠ .dead →
        ∃ t', s'.task q = some t' ∧ t'.childless = t.childless := by
  obtain ⟨p, hp⟩ := Option.ne_none_iff_exists'.mp hop.2.1
  obtain ⟨s₁, hrun, h₁, ⟨d, hd, hdead⟩, -, hcurrent, hothers⟩ := reap_spec h hop.1 hp hop.2.2
  have hstep' : s.reap respawn = some s' := hstep
  rw [hstep'] at hrun
  cases hrun
  refine ⟨h₁, hcurrent, fun q t ht hl => hothers q t ?_ ht⟩
  rintro rfl
  rw [ht, Option.some.injEq] at hd
  exact hl (hd ▸ hdead)

theorem reaperSpares : s.ReaperSpares := by
  obtain ⟨cur, hcur, hlive⟩ := h.tasks.queue.current
  constructor
  case current => exact ⟨cur, hcur, h.tasks.ledger.unfreed _ cur hcur⟩
  case waiting =>
    obtain ⟨l, hl, hmem⟩ := h.tasks.queue.dead
    exact ⟨l, hl, fun hin => h.tasks.queue.current.not_dead ((hmem _).mp hin).1⟩
  case taken => exact fun hr => h.tasks.queue.current.not_dead (h.tasks.queue.reaped _ hr)
  case round =>
    intro respawn s' hop hstep
    obtain ⟨h', hcurrent, hothers⟩ := h.round hop hstep
    obtain ⟨cur', hcur', he⟩ := hothers _ cur hcur hlive
    have hbirth : cur'.birth = cur.birth := Task.childless_eq he Task.birth fun _ => rfl
    refine ⟨hcurrent, cur, cur', hcur, hcur',
      Task.childless_eq he Task.kernelStackVirt fun _ => rfl, hbirth, ?_⟩
    rw [← hbirth]
    exact h'.tasks.ledger.unfreed _ cur' hcur'

theorem queueWellFormed : s.QueueWellFormed := by
  refine ⟨h.tasks.queue.ring, fun respawn s' hop hstep p hp => ?_⟩
  obtain ⟨t, ht, hl⟩ := hp
  obtain ⟨-, -, hothers⟩ := h.round hop hstep
  obtain ⟨t', ht', he⟩ := hothers p t ht hl
  exact ⟨t', ht', by rwa [Task.childless_eq he Task.state fun _ => rfl]⟩

theorem lifecycle : s.Lifecycle := by
  have htree := h.tasks.family.tree
  obtain ⟨l, hl, hmem⟩ := h.tasks.queue.dead
  constructor
  case released =>
    intro w b p stack he
    rcases h.tasks.ledger.released w b p stack he with ⟨t, ht, hb, hstack⟩ | hdone
    · exact Or.inl ⟨hb ▸ h.tasks.ledger.unfreed p t ht, t, ht, hb, hstack⟩
    · exact Or.inr hdone
  case collected =>
    intro hphase hhead p hp
    rw [hhead] at hl
    have hin := (hmem p).mpr ⟨hp, by simp [h.reaper (by simp [hphase])]⟩
    simp [hl.eq_nil] at hin
  case orderly => exact h.tasks.ledger.orderly
  case current => exact h.tasks.queue.current
  case init =>
    obtain ⟨i, hi, -, -, hil, -⟩ := h.tasks.roles.init
    exact ⟨i, hi, hil⟩
  case queue =>
    intro p t ht hlive
    obtain ⟨rest, hr, halive⟩ := h.tasks.queue.ring
    have hp := (halive p).mpr ⟨t, ht, hlive⟩
    obtain ⟨q, hq, hnext, hback⟩ := hr.next_mem hp
    obtain ⟨r, hr', hprev, hforth⟩ := hr.prev_mem hp
    rw [link_of_task ht] at hnext hprev
    exact ⟨q, r, hnext, hprev, (halive q).mp hq, (halive r).mp hr', hback, hforth⟩
  case parent =>
    intro p t q ht hlive hparent
    obtain ⟨u, hu, hul⟩ := htree.up q p ⟨t, ht, hlive⟩ (by rw [link_of_task ht, hparent])
    exact ⟨u, hu, hul, h.tasks.ledger.parents p t q u ht hlive hparent hu⟩
  case children =>
    intro p t q ht hlive hfirst
    exact htree.child_parent ⟨t, ht, hlive⟩ (by rw [link_of_task ht, hfirst])
  case nextSibling =>
    intro p t q ht hlive hsib
    obtain ⟨hq, w, hp, hqw⟩ := htree.sib_parent (w := p) ⟨t, ht, hlive⟩
      (by rw [link_of_task ht, hsib])
    rw [link_of_task ht] at hp
    exact ⟨hq, hqw.trans hp.symm⟩
  case deadList => exact ⟨l, hl, fun q hq => ((hmem q).mp hq).1⟩

end SchedulerInv

/-- `kernel_main` has started Init on a machine with a fixed layout. -/
def initStarted : Scheduler := ((boot 0 9).step (.startInit 1 4096)).get (by decide +kernel)

def initPreempts : Scheduler := (initStarted.step .timerTick).get (by decide +kernel)

/-- Init has the processor. -/
def initRunning : Scheduler := (initPreempts.step .dispatch).get (by decide +kernel)

/-- Init exits; the reaper has not run yet. -/
def initExited : Scheduler := (initRunning.step (.taskExit 0)).get (by decide +kernel)

/-- The reaper has started another Init and has given the first one back. -/
def initReaped : Scheduler := (initExited.step (.reap (some (2, 8192)))).get (by decide +kernel)

section Samples

variable {condition : Scheduler → TaskOp → Prop}

theorem fresh_of_forall {pcb stack : Nat} (hlimit : pcb < taskLimit) (hfree : s.task pcb = none)
    (hstack : stack ≠ 0) {l : List Pcb} (hmem : ∀ p, s.task p ≠ none → p ∈ l)
    (hl : ∀ p ∈ l, (s.task p).map Task.kernelStackVirt ≠ some stack) : s.Fresh pcb stack := by
  refine ⟨hlimit, hfree, hstack, fun p t ht he => ?_⟩
  apply hl p (hmem p (by simp [ht]))
  rw [ht, Option.map_some, he]

/-- Init is started and gets the processor in the next tick. -/
theorem started_run {s₁ s₂ s₃ : Scheduler} (ticks : Nat)
    (hcondition : ∀ s, condition s (.startInit 1 4096) ∧ condition s .timerTick ∧
      condition s .dispatch)
    (hstart : (boot 0 ticks).step (.startInit 1 4096) = some s₁) (hrunning : s₁.phase = .running)
    (htick : s₁.step .timerTick = some s₂)
    (hreaping : s₂.phase = .reaping ∧ s₂.deadTasksHead = none)
    (hdispatch : s₂.step .dispatch = some s₃) : Runs condition 0 ticks s₃ := by
  have hfresh : (boot 0 ticks).Fresh 1 4096 := by
    refine ⟨by decide, by simp [boot_task], by decide, fun p t ht => ?_⟩
    rw [(eq_of_boot_task ht).2]
    decide
  have h₁ : Runs condition 0 ticks s₁ :=
    .next (i := TaskOp.startInit 1 4096) .start ⟨⟨rfl, rfl, rfl, hfresh⟩, (hcondition _).1⟩ hstart
  have h₂ : Runs condition 0 ticks s₂ :=
    .next (i := TaskOp.timerTick) h₁ ⟨Or.inl hrunning, (hcondition _).2.1⟩ htick
  exact .next (i := TaskOp.dispatch) h₂ ⟨hreaping, (hcondition _).2.2⟩ hdispatch

theorem initRunning_run
    (hcondition : ∀ s, condition s (.startInit 1 4096) ∧ condition s .timerTick ∧
      condition s .dispatch) : Runs condition 0 9 initRunning :=
  started_run 9 hcondition (Option.some_get _).symm (by decide +kernel) (Option.some_get _).symm
    ⟨by decide +kernel, by decide +kernel⟩ (Option.some_get _).symm

theorem inSyscall_of_running (hphase : s.phase = .running) (hmain : s.currentTask ≠ s.mainTask)
    (hstate : (s.task s.currentTask).map Task.state = some .running) : s.InSyscall := by
  refine ⟨hphase, hmain, fun t ht => ?_⟩
  rw [ht, Option.map_some, Option.some.injEq] at hstate
  simp [hstate]

theorem initRunning_inSyscall : initRunning.InSyscall :=
  inSyscall_of_running (by decide +kernel) (by decide +kernel) (by decide +kernel)

theorem initExited_run : Reach step Offered (boot 0 9) initExited := by
  have hrun : Runs (fun _ _ => True) 0 9 initRunning :=
    initRunning_run fun _ => ⟨trivial, trivial, trivial⟩
  exact .next (i := TaskOp.taskExit 0) (hrun.mono fun _ _ h => h.1) initRunning_inSyscall
    (Option.some_get _).symm

/-- There are two tasks. -/
theorem initRunning_memory (hp : initRunning.task p ≠ none) : p ∈ [0, 1] := by
  have hinv : SchedulerInv initRunning :=
    .of_run (by decide) (initRunning_run fun _ => ⟨trivial, trivial, trivial⟩)
  obtain ⟨t, ht⟩ := Option.ne_none_iff_exists'.mp hp
  by_cases hmain : p = initRunning.mainTask
  · have hzero : initRunning.mainTask = 0 := by decide +kernel
    simp [hmain, hzero]
  · obtain ⟨w, hw⟩ := hinv.tasks.ledger.held p t ht hmain
    have hlog : initRunning.log = [.created 1 2 1 4096] := by decide +kernel
    rw [hlog, List.mem_singleton, TaskEvent.created.injEq] at hw
    simp [hw.2.2.1]

theorem initReaped_run : Reach step Offered (boot 0 9) initReaped := by
  have hquiet : Quiet (fun _ => True) initRunning initExited :=
    .taskExit (Option.some_get _).symm fun _ _ _ _ => ⟨Or.inl trivial, fun _ _ => trivial⟩
  refine .next (i := TaskOp.reap (some (2, 8192))) initExited_run
    ⟨by decide +kernel, by decide +kernel, fun pcb stack he => ?_⟩ (Option.some_get _).symm
  obtain ⟨rfl, rfl⟩ : 2 = pcb ∧ 8192 = stack := by simpa using he
  apply fresh_of_forall (by decide) (by decide +kernel) (by decide) (l := [0, 1])
  · intro p hp
    obtain ⟨t', ht'⟩ := Option.ne_none_iff_exists'.mp hp
    obtain ⟨t, ht, -⟩ := hquiet.task p t' ht'
    exact initRunning_memory (by simp [ht])
  · decide +kernel

end Samples

/-- In every run that spares Init, the reaper frees nothing that `schedule` uses. -/
theorem reaper_spares (hmain : main < taskLimit) (h : Runs SparesInit main ticks s) :
    s.ReaperSpares :=
  (SchedulerInv.of_run hmain h).reaperSpares

theorem reaper_spares_sample : initRunning.ReaperSpares :=
  reaper_spares (by decide) (initRunning_run fun _ => ⟨trivial, trivial, trivial⟩)

/-- Init exits, and `schedule` finds the task on whose stack it runs on its list. -/
theorem init_exit_reaped : ∃ s, Reach step Offered (boot 0 9) s ∧ s.phase = .reaping ∧
    ¬ s.ReaperSpares := by
  refine ⟨initExited, initExited_run, by decide +kernel, fun h => ?_⟩
  obtain ⟨l, hl, hcur⟩ := h.waiting
  have hhead : initExited.deadTasksHead = some initExited.currentTask := by decide +kernel
  rw [hhead] at hl
  exact hcur hl.mem_of_head

/-- In every run that spares Init, the run queue is one cycle of the tasks that live. -/
theorem run_queue_cycle (hmain : main < taskLimit) (h : Runs SparesInit main ticks s) :
    s.QueueWellFormed :=
  (SchedulerInv.of_run hmain h).queueWellFormed

theorem run_queue_cycle_sample : initRunning.QueueWellFormed :=
  run_queue_cycle (by decide) (initRunning_run fun _ => ⟨trivial, trivial, trivial⟩)

/-- Init exits, and the queue from the current task holds a dead one and not that of
`kernel_main`, which is ready. -/
theorem init_exit_off_queue : ∃ s, Reach step Offered (boot 0 9) s ∧ s.Alive s.mainTask ∧
    ¬ s.QueueWellFormed := by
  refine ⟨initExited, initExited_run, ?_, fun h => ?_⟩
  · have hready : (initExited.task initExited.mainTask).map Task.state = some .ready := by
      decide +kernel
    obtain ⟨m, hm, hstate⟩ := Option.map_eq_some_iff.mp hready
    exact ⟨m, hm, by simp [hstate]⟩
  · obtain ⟨rest, -, hmem⟩ := h.cycle
    obtain ⟨t, ht, hl⟩ := (hmem initExited.currentTask).mp (by simp)
    have hdead : (initExited.task initExited.currentTask).map Task.state = some .dead := by
      decide +kernel
    rw [ht, Option.map_some, Option.some.injEq] at hdead
    exact hl hdead

/-- In every run that spares Init, tasks are freed once, exits are delivered once to the parent,
and no pointer leads to a task that has been freed. -/
theorem task_lifecycle (hmain : main < taskLimit) (h : Runs SparesInit main ticks s) :
    s.Lifecycle :=
  (SchedulerInv.of_run hmain h).lifecycle

theorem task_lifecycle_sample : initRunning.Lifecycle :=
  task_lifecycle (by decide) (initRunning_run fun _ => ⟨trivial, trivial, trivial⟩)

/-- Init exits, and `current_task` leads to a block that has been given back. -/
theorem init_exit_freed : ∃ s, Reach step Offered (boot 0 9) s ∧
    s.task s.currentTask = none ∧ ¬ s.Lifecycle := by
  have hnone : initReaped.task initReaped.currentTask = none := by decide +kernel
  exact ⟨initReaped, initReaped_run, hnone, fun h => h.current.task_ne_none hnone⟩


/-- Tasks in memory have different pids, and `init_task` is the one with pid 1. -/
structure PidsUnique (s : Scheduler) : Prop where
  unique : ∀ p q t u, s.task p = some t → s.task q = some u → t.pid = u.pid → p = q
  init : ∀ p t, s.task p = some t → (t.pid = 1 ↔ p = s.initTask)

/-- `kernel_main` has not come to the point where it starts Init. -/
def BeforeInit (_ : Scheduler) : TaskOp → Prop
  | .startInit _ _ => False
  | _ => True

/-- What every step but a start of Init does to the pids. -/
structure PidsKept (s s' : Scheduler) : Prop where
  nextPid : s.nextPid ≤ s'.nextPid
  mainTask : s'.mainTask = s.mainTask
  initTask : s'.initTask = s.initTask
  task : ∀ q t', s'.task q = some t' → (t'.birth = s.nextPid ∧ t'.pid = wrap32 s.nextPid) ∨
    ∃ t, s.task q = some t ∧ t'.birth = t.birth ∧ t'.pid = t.pid

theorem Quiet.pidsKept {awake : Pcb → Prop} (h : Quiet awake s s') : PidsKept s s' := by
  refine ⟨h.nextPid.ge, h.mainTask, h.initTask, fun q t' ht' => ?_⟩
  obtain ⟨t, ht, hb, hp, -⟩ := h.task q t' ht'
  exact Or.inr ⟨t, ht, hb, hp⟩

theorem Grown.pidsKept {awake : Pcb → Prop} {pcb : Pcb}
    (h : Grown awake pcb (wrap32 s.nextPid) s.initTask s s') : PidsKept s s' := by
  refine ⟨by rw [h.nextPid]; exact Nat.le_succ _, h.mainTask, h.initTask, fun q t' ht' => ?_⟩
  rcases h.task q t' ht' with ⟨-, hb, hp⟩ | ⟨t, ht, hb, hp, -⟩
  · exact Or.inl ⟨hb, hp⟩
  · exact Or.inr ⟨t, ht, hb, hp⟩

theorem PidsKept.taskCreate {memory : NewTask} (h : s.taskCreate memory = some s') :
    PidsKept s s' := by
  cases memory with
  | noMemory =>
    cases h
    have hq : Quiet (fun _ => True) s s := .refl s
    exact hq.pidsKept
  | noSpace =>
    cases h
    exact ⟨Nat.le_succ _, rfl, rfl, fun q t ht => Or.inr ⟨t, ht, rfl, rfl⟩⟩
  | ok pcb stack =>
    have hg : Grown (fun _ => True) pcb (wrap32 s.nextPid) s.initTask s s' := .addTask h
    exact hg.pidsKept

theorem PidsKept.taskFork {memory : NewTask} (h : s.taskFork memory = some s') :
    PidsKept s s' := by
  cases memory with
  | noMemory =>
    cases h
    have hq : Quiet (fun _ => True) s s := .refl s
    exact hq.pidsKept
  | noSpace =>
    cases h
    exact ⟨Nat.le_succ _, rfl, rfl, fun q t ht => Or.inr ⟨t, ht, rfl, rfl⟩⟩
  | ok pcb stack =>
    simp only [Scheduler.taskFork, Option.bind_eq_bind, Option.bind_eq_some_iff] at h
    obtain ⟨cur, -, h⟩ := h
    have hg : Grown (fun _ => True) pcb (wrap32 s.nextPid) s.initTask s s' := .addTask h
    exact hg.pidsKept

theorem PidsKept.timerTick (h : s.timerTick = some s') : PidsKept s s' := by
  simp only [Scheduler.timerTick, Option.bind_eq_bind, Option.bind_eq_some_iff] at h
  obtain ⟨s₁, h₁, h⟩ := h
  have hq : Quiet (fun _ => True) { s with tickCount := s.tickCount + 1 } s₁ :=
    .wakeFrom h₁ fun _ => trivial
  have hk := hq.pidsKept
  split_ifs at h <;> cases h <;> exact ⟨hk.nextPid, hk.mainTask, hk.initTask, hk.task⟩

/-- A round of the reaper that finds no task with pid 1. -/
theorem PidsKept.reap {respawn : Option (Pcb × Nat)} (h : s.reap respawn = some s')
    (hdead : ∀ p t, s.deadTasksHead = some p → s.task p = some t → t.pid ≠ 1) :
    PidsKept s s' := by
  simp only [Scheduler.reap, Option.bind_eq_bind, Option.bind_eq_some_iff] at h
  obtain ⟨dead, hhead, t, ht, h⟩ := h
  rw [if_neg (hdead dead t hhead ht)] at h
  have hq : Quiet (fun _ => True) _ s' := .release h
  have hk := hq.pidsKept
  exact ⟨hk.nextPid, hk.mainTask, hk.initTask, hk.task⟩

theorem PidsKept.step (h : s.step op = some s') (hop : s.BeforeInit op)
    (hreap : ∀ respawn, op = .reap respawn → PidsKept s s') : PidsKept s s' := by
  have hexit : ∀ {s'} code, s.taskExit code = some s' → Quiet (fun _ => True) s s' :=
    fun code h => .taskExit h fun _ _ _ _ => ⟨Or.inl trivial, fun _ _ => trivial⟩
  cases op with
  | startInit pcb stack => exact hop.elim
  | taskCreate memory => exact .taskCreate h
  | taskFork memory => exact .taskFork h
  | taskExit code => exact (hexit code h).pidsKept
  | taskKillCurrent => exact (Quiet.taskKillCurrent h (hexit (-1))).pidsKept
  | taskWaitpid pid options =>
    have hq : Quiet (fun _ => True) s s' := .taskWaitpid h fun _ _ => Or.inl trivial
    exact hq.pidsKept
  | sysSleep ms =>
    have hq : Quiet (fun _ => True) s s' := .sysSleep h fun _ _ => Or.inl trivial
    exact hq.pidsKept
  | taskYield =>
    cases h
    exact ⟨Nat.le_refl _, rfl, rfl, fun q t ht => Or.inr ⟨t, ht, rfl, rfl⟩⟩
  | timerTick => exact .timerTick h
  | reap respawn => exact hreap respawn rfl
  | dispatch =>
    have hq : Quiet (fun _ => True) s s' := .dispatch h
    exact hq.pidsKept

/-- Pids are never given back to the counter. -/
theorem step_nextPid_le (h : s.step op = some s') (hop : s.Offered op) (hbefore : s.BeforeInit op) :
    s.nextPid ≤ s'.nextPid := by
  cases op with
  | startInit pcb stack => exact hbefore.elim
  | reap respawn =>
    have hs : Settled (fun _ => True) s s' :=
      .reap h fun pcb stack he => (hop.2.2 pcb stack he).2.1
    exact hs.nextPid
  | _ => exact (PidsKept.step h hbefore fun _ he => by cases he).nextPid

/-- Before Init there is only the task of `kernel_main` with pid 1, and the pids are the
births. -/
structure PidInv (s : Scheduler) : Prop where
  inv : SchedulerInv s
  early : s.initTask = s.mainTask
  pid : ∀ p t, s.task p = some t → t.pid = wrap32 t.birth ∧ 0 < t.birth

theorem PidInv.boot (hmain : main < taskLimit) (ticks : Nat) : PidInv (boot main ticks) := by
  refine ⟨.boot hmain ticks, rfl, fun p t ht => ?_⟩
  rw [(eq_of_boot_task ht).2]
  exact ⟨rfl, Nat.one_pos⟩

namespace PidInv

variable (h : PidInv s) (hfew : s.nextPid ≤ 4294967297)

include h hfew

/-- As long as the counter has not wrapped, pids are different. -/
theorem birth_eq {q : Pcb} {t u : Task} (ht : s.task p = some t) (hu : s.task q = some u)
    (he : t.pid = u.pid) : t.birth = u.birth := by
  have htb := h.inv.tasks.supply.birth_lt p t ht
  have hub := h.inv.tasks.supply.birth_lt q u hu
  obtain ⟨htp, ht0⟩ := h.pid p t ht
  obtain ⟨hup, hu0⟩ := h.pid q u hu
  rw [htp, hup] at he
  simp only [wrap32] at he
  omega

theorem pidsUnique : s.PidsUnique := by
  obtain ⟨m, hm, hpid, -⟩ := h.inv.tasks.roles.main
  constructor
  case unique =>
    intro p q t u ht hu he
    exact h.inv.tasks.supply.birth_inj p q t u ht hu (h.birth_eq hfew ht hu he)
  case init =>
    intro p t ht
    rw [h.early]
    constructor
    · intro hone
      apply h.inv.tasks.supply.birth_inj p s.mainTask t m ht hm
      exact h.birth_eq hfew ht hm (hone.trans hpid.symm)
    · rintro rfl
      rw [hm, Option.some.injEq] at ht
      exact ht ▸ hpid

/-- No task with pid 1 runs in a system call or is on the list of the reaper. -/
theorem step (hop : s.Offered op) (hbefore : s.BeforeInit op) (hstep : s.step op = some s') :
    PidInv s' := by
  have hunique := h.pidsUnique hfew
  have hspares : s.SparesInit op := by
    have hsyscall : s.InSyscall → ∀ t, s.task s.currentTask = some t → t.pid ≠ 1 := by
      intro hin t ht hone
      exact hin.2.1 (h.early ▸ (hunique.init _ t ht).mp hone)
    cases op with
    | taskExit code => exact hsyscall hop
    | taskKillCurrent => exact hsyscall hop
    | _ => trivial
  obtain ⟨s₁, hrun, hinv⟩ := h.inv.step hop hspares
  rw [hstep] at hrun
  cases hrun
  obtain ⟨l, hl, hmem⟩ := h.inv.tasks.queue.dead
  have hdead : ∀ p t, s.deadTasksHead = some p → s.task p = some t → t.pid ≠ 1 := by
    intro p t hhead ht hone
    rw [hhead] at hl
    obtain ⟨d, hd, hstate⟩ := ((hmem p).mp hl.mem_of_head).1
    obtain ⟨m, hm, -, hlive, -⟩ := h.inv.tasks.roles.main
    rw [(hunique.init p t ht).mp hone, h.early, hm, Option.some.injEq] at hd
    rw [← hd] at hstate
    rcases hlive with h | h <;> simp [h] at hstate
  have hkept : PidsKept s s' := by
    refine .step hstep hbefore fun respawn he => ?_
    subst he
    exact .reap hstep hdead
  have hborn : 0 < s.nextPid := by
    obtain ⟨m, hm, -⟩ := h.inv.tasks.roles.main
    have := h.inv.tasks.supply.birth_lt _ m hm
    omega
  constructor
  case inv => exact hinv
  case early => rw [hkept.initTask, hkept.mainTask, h.early]
  case pid =>
    intro p t' ht'
    rcases hkept.task p t' ht' with ⟨hb, hp⟩ | ⟨t, ht, hb, hp⟩
    · rw [hb, hp]
      exact ⟨rfl, hborn⟩
    · rw [hb, hp]
      exact h.pid p t ht

end PidInv

theorem PidInv.of_run (hmain : main < taskLimit) (h : Runs BeforeInit main ticks s) :
    s.nextPid ≤ 4294967297 → PidInv s := by
  apply Reach.invariant (P := fun s => s.nextPid ≤ 4294967297 → PidInv s) _ _ h
  · exact fun _ => .boot hmain ticks
  · intro s op s' ih hop hstep hfew
    have hfew' := (step_nextPid_le hstep hop.1 hop.2).trans hfew
    exact (ih hfew').step hfew' hop.1 hop.2 hstep

/-- Until `kernel_main` starts Init, and while the counter has not wrapped, pids are
different and `init_task` is the one task with pid 1.  From then on it never is: the task of
`kernel_main` has pid 1 as well. -/
theorem pids_unique (hmain : main < taskLimit) (hfew : s.nextPid ≤ 4294967297) :
    (Runs BeforeInit main ticks s → s.PidsUnique) ∧
      (Runs SparesInit main ticks s → s.initTask ≠ s.mainTask → ¬ s.PidsUnique) := by
  constructor
  · intro h
    exact (PidInv.of_run hmain h hfew).pidsUnique hfew
  · intro h hinit hunique
    obtain ⟨m, hm, hpid, -⟩ := (SchedulerInv.of_run hmain h).tasks.roles.main
    exact hinit ((hunique.init _ m hm).mp hpid).symm

theorem pids_unique_sample : (boot 0 9).PidsUnique ∧ ¬ initRunning.PidsUnique :=
  ⟨(pids_unique (by decide) (by decide)).1 .start,
    (pids_unique (by decide) (by decide +kernel)).2
      (initRunning_run fun _ => ⟨trivial, trivial, trivial⟩) (by decide +kernel)⟩

/-- Init and the task of `kernel_main` both have pid 1. -/
theorem init_shares_pid : ∃ s, Reach step Offered (boot 0 9) s ∧ ¬ s.PidsUnique := by
  have hrun : Runs (fun _ _ => True) 0 9 initRunning :=
    initRunning_run fun _ => ⟨trivial, trivial, trivial⟩
  refine ⟨initRunning, hrun.mono fun _ _ h => h.1, fun h => ?_⟩
  have hpid : (initRunning.task 0).map Task.pid = some 1 := by decide +kernel
  obtain ⟨t, ht, hone⟩ := Option.map_eq_some_iff.mp hpid
  have hinit := (h.init 0 t ht).mp hone
  revert hinit
  decide +kernel

end Scheduler
end EnclaveOS
