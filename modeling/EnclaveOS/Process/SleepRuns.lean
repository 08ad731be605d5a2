import EnclaveOS.Process.SchedulerRuns

/-!
# SleepRuns - when a task that sleeps is woken

The deadline of `sys_sleep` is a tick modulo `2 ^ 32`, and `wake_sleepers` compares
it with the tick of the moment.  A task wakes in the right tick when the comparison does
not see the counter wrap, no child of it exits meanwhile, and Init lives.
-/

namespace EnclaveOS
namespace Scheduler

variable {s s' s₀ : Scheduler} {main p : Pcb} {ticks birth deadline ms : Nat} {op : TaskOp}

/-- Init lives, and the task that exits or is killed is no child of `p`. -/
def LetsSleep (p : Pcb) (s : Scheduler) (op : TaskOp) : Prop :=
  s.SparesInit op ∧
    match op with
    | .taskExit _ | .taskKillCurrent =>
      ∀ t, s.task s.currentTask = some t → t.parent ≠ some p
    | _ => True

/-- The deadline of the call is past the present tick, or the counter wraps in the next one. -/
def SleepFits (s : Scheduler) (ms : Nat) : Prop :=
  s.timerGetTicks + ms < 4294967296 ∨ s.timerGetTicks = 4294967295 ∧ 2 ≤ ms

/-- The task at `p` that was born so sleeps until `tick`, and the tick wakes it, unless it
dies before. -/
structure Sleeper (p : Pcb) (birth tick : Nat) (s : Scheduler) : Prop where
  asleep : ∀ t, s.task p = some t → t.birth = birth → t.state ≠ .dead → s.tickCount < tick →
    t.state = .sleeping
  wakes : ∀ t s', s.task p = some t → t.birth = birth → t.state ≠ .dead →
    s.tickCount + 1 = tick → s.Offered .timerTick → s.step .timerTick = some s' →
    ∃ t', s'.task p = some t' ∧ t'.birth = birth ∧ t'.state = .ready

/-- What `sys_sleep` promises of the runs that go on from its call. -/
def SleepExact (condition : Scheduler → TaskOp → Prop) (s : Scheduler) (ms : Nat) : Prop :=
  ∀ t s₁ s', s.task s.currentTask = some t → s.step (.sysSleep ms) = some s₁ →
    Reach step (fun s op => s.Offered op ∧ condition s op) s₁ s' →
    Sleeper s.currentTask t.birth (s.tickCount + ms) s'

/-- A step other than a tick lets the task sleep. -/
theorem SchedulerInv.settled (h : SchedulerInv s) (hop : s.Offered op) (hlets : s.LetsSleep p op)
    (htick : op ≠ .timerTick) (hstep : s.step op = some s') : Settled (· ≠ p) s s' := by
  have hrunning : s.InSyscall → ∀ cur, s.task s.currentTask = some cur →
      s.currentTask ≠ p ∨ cur.state = .running := by
    intro hin cur hcur
    obtain ⟨t, ht, hstate⟩ := h.running hin.1
    rw [hcur, Option.some.injEq] at ht
    exact Or.inr (ht ▸ hstate)
  have hexit : ∀ {s'} code, s.InSyscall →
      (∀ t, s.task s.currentTask = some t → t.pid ≠ 1) →
      (∀ t, s.task s.currentTask = some t → t.parent ≠ some p) →
      s.taskExit code = some s' → Quiet (· ≠ p) s s' := by
    intro s' code hin hpid hparent hrun
    obtain ⟨cur, hcur, hstate⟩ := h.running hin.1
    obtain ⟨s₁, hleave, -, hframe, cur₁, hcur₁, he, -⟩ := leaveChildren_spec h.tasks hcur
      (by simp [Task.Active, hstate]) hin.2.1 (hpid cur hcur)
    refine .taskExit hrun fun s₂ cur₂ hleave₂ hcur₂ => ?_
    rw [hleave] at hleave₂
    cases hleave₂
    rw [hframe.currentTask, hcur₁] at hcur₂
    cases hcur₂
    have hstate₁ : cur₁.state = .running :=
      (Task.childless_eq he Task.state fun _ => rfl).trans hstate
    refine ⟨Or.inr (by simp [hstate₁]), fun q hq => ?_⟩
    rintro rfl
    rw [Task.childless_eq he Task.parent fun _ => rfl] at hq
    exact hparent cur hcur hq
  cases op with
  | startInit pcb stack => exact (Grown.startInit hstep hop.2.2.2.2.1).settled
  | taskCreate memory => exact .taskCreate hstep
  | taskFork memory => exact .taskFork hstep
  | taskExit code => exact (hexit code hop hlets.1 hlets.2 hstep).settled
  | taskKillCurrent =>
    exact (Quiet.taskKillCurrent hstep (hexit (-1) hop hlets.1 hlets.2)).settled
  | taskWaitpid pid options => exact (Quiet.taskWaitpid hstep (hrunning hop)).settled
  | sysSleep ms => exact (Quiet.sysSleep hstep (hrunning hop.1)).settled
  | taskYield =>
    cases hstep
    apply Quiet.settled
    exact .of_task rfl rfl rfl rfl rfl
  | timerTick => exact absurd rfl htick
  | reap respawn => exact .reap hstep fun pcb stack he => (hop.2.2 pcb stack he).2.1
  | dispatch => exact (Quiet.dispatch hstep).settled

/-- Until its tick comes, the task is dead or sleeps with the deadline of the call. -/
structure SleepInv (p : Pcb) (birth deadline start tick : Nat) (s : Scheduler) : Prop where
  inv : SchedulerInv s
  started : start ≤ s.tickCount
  born : birth < s.nextPid
  task : s.tickCount < tick → ∀ t, s.task p = some t → t.birth = birth →
    t.state = .dead ∨ t.state = .sleeping ∧ t.sleepUntil = deadline

/-- The comparison of `wake_sleepers` in the ticks up to the one of the deadline. -/
theorem deadline_reached_iff {start k : Nat} (hms : ms < 2147483648)
    (hfits : wrap32 start + ms < 4294967296 ∨ wrap32 start = 4294967295 ∧ 2 ≤ ms)
    (hk : 0 < k) (hle : k ≤ ms) :
    0 < wrap32 (wrap32 start + ms) ∧
      (wrap32 (wrap32 start + ms) ≤ wrap32 (start + k) ↔ k = ms) := by
  simp only [wrap32] at *
  omega

theorem SleepInv.step {start : Nat} (hms : ms < 2147483648)
    (hfits : wrap32 start + ms < 4294967296 ∨ wrap32 start = 4294967295 ∧ 2 ≤ ms)
    (h : SleepInv p birth (wrap32 (wrap32 start + ms)) start (start + ms) s)
    (hop : s.Offered op) (hlets : s.LetsSleep p op) (hstep : s.step op = some s') :
    SleepInv p birth (wrap32 (wrap32 start + ms)) start (start + ms) s' := by
  obtain ⟨s₁, hrun, hinv⟩ := h.inv.step hop hlets.1
  rw [hstep] at hrun
  cases hrun
  by_cases htick : op = .timerTick
  · subst htick
    obtain ⟨s₁, hrun, -, hcount, htask⟩ :=
      timerTick_spec h.inv (hop.resolve_right h.inv.busy)
    have hstep' : s.timerTick = some s' := hstep
    rw [hstep'] at hrun
    cases hrun
    refine ⟨hinv, by rw [hcount]; exact Nat.le_succ_of_le h.started,
      h.born.trans_le (PidsKept.timerTick hstep').nextPid, fun hbefore t' ht' hb => ?_⟩
    rw [htask] at ht'
    obtain ⟨t, ht, rfl⟩ := Option.map_eq_some_iff.mp ht'
    have hbt : t.birth = birth :=
      ((t.wake_stirs _).field Task.birth fun _ => rfl).symm.trans hb
    rw [hcount] at hbefore
    have hstarted := h.started
    rcases h.task (by omega) t ht hbt with hd | ⟨hsleeps, hdeadline⟩
    · exact Or.inl ((t.wake_stirs _).dead_iff.mpr hd)
    · -- the tick is not yet that of the deadline
      obtain ⟨hpos, hreached⟩ := deadline_reached_iff (k := s.tickCount + 1 - start) hms hfits
        (by omega) (by omega)
      rw [show start + (s.tickCount + 1 - start) = s.tickCount + 1 by omega] at hreached
      have hnot : ¬ wrap32 (wrap32 start + ms) ≤ wrap32 (s.tickCount + 1) := by
        rw [hreached]
        omega
      have hstay : t.wake (wrap32 (s.tickCount + 1)) = t := by
        unfold Task.wake
        rw [if_neg]
        rintro ⟨-, -, hle⟩
        exact hnot (hdeadline ▸ hle)
      rw [hstay]
      exact Or.inr ⟨hsleeps, hdeadline⟩
  · have hsettled := h.inv.settled hop hlets htick hstep
    refine ⟨hinv, by rw [hsettled.tickCount]; exact h.started,
      h.born.trans_le hsettled.nextPid, fun hbefore t' ht' hb => ?_⟩
    rw [hsettled.tickCount] at hbefore
    rcases hsettled.task p t' ht' with hnew | ⟨t, ht, hbirth, hrest⟩
    · exact absurd (hb.symm.trans hnew) h.born.ne
    · have hrests := hrest.resolve_left fun hne => hne rfl
      rcases h.task hbefore t ht (hbirth.symm.trans hb) with hd | ⟨hsleeps, hdeadline⟩
      · exact Or.inl (hrests.dead hd)
      · rw [← hdeadline]
        exact hrests.sleeping hsleeps

/-- The tick of the deadline wakes the task. -/
theorem SleepInv.sleeper {start : Nat} (hpos : 0 < ms) (hms : ms < 2147483648)
    (hfits : wrap32 start + ms < 4294967296 ∨ wrap32 start = 4294967295 ∧ 2 ≤ ms)
    (h : SleepInv p birth (wrap32 (wrap32 start + ms)) start (start + ms) s) :
    Sleeper p birth (start + ms) s := by
  constructor
  case asleep =>
    intro t ht hb hl hbefore
    exact ((h.task hbefore t ht hb).resolve_left hl).1
  case wakes =>
    intro t s' ht hb hl hnow hop hstep
    obtain ⟨s₁, hrun, -, -, htask⟩ := timerTick_spec h.inv (hop.resolve_right h.inv.busy)
    have hstep' : s.timerTick = some s' := hstep
    rw [hstep'] at hrun
    cases hrun
    obtain ⟨hsleeps, hdeadline⟩ := (h.task (by omega) t ht hb).resolve_left hl
    obtain ⟨hpos', hreached⟩ := deadline_reached_iff (k := ms) hms hfits hpos (Nat.le_refl _)
    rw [← hnow] at hreached
    have hwake : t.wake (wrap32 (s.tickCount + 1)) = { t with state := .ready, sleepUntil := 0 } := by
      unfold Task.wake
      rw [if_pos]
      rw [hdeadline]
      exact ⟨hsleeps, hpos', hreached.mpr rfl⟩
    exact ⟨{ t with state := .ready, sleepUntil := 0 },
      by rw [htask, ht, Option.map_some, hwake], hb, rfl⟩

/-- In every run in which Init lives and no child of the task exits, a task that sleeps for a
time that fits is asleep until its tick, and that tick wakes it. -/
theorem sleep_exact (hmain : main < taskLimit) (h : Runs SparesInit main ticks s)
    (hop : s.Offered (.sysSleep ms)) (hpos : 1 ≤ ms) (hms : ms < 2147483648)
    (hfits : s.SleepFits ms) : SleepExact (LetsSleep s.currentTask) s ms := by
  intro t s₁ s' ht hstep hrun
  have hinv := SchedulerInv.of_run hmain h
  have hstep' : s.sysSleep ms = some s₁ := hstep
  obtain ⟨s₂, hstep₂, hinv₁⟩ := sysSleep_spec hinv hop.1.1 hop.1.2.1 ms
  rw [hstep'] at hstep₂
  cases hstep₂
  unfold sysSleep at hstep'
  rw [if_neg (by omega), Option.bind_eq_bind, set_of_task ht, Option.bind_some,
    Option.some.injEq] at hstep'
  have hstart : SleepInv s.currentTask t.birth (wrap32 (wrap32 s.tickCount + ms)) s.tickCount
      (s.tickCount + ms) s₁ := by
    refine ⟨hinv₁, ?_, ?_, fun _ t' ht' _ => ?_⟩
    · rw [← hstep']
      exact Nat.le_refl _
    · rw [← hstep']
      exact hinv.tasks.supply.birth_lt _ t ht
    · rw [← hstep', show ∀ x : Scheduler, ({ x with phase := .reaping } : Scheduler).task =
        x.task from fun _ => rfl, withTask_task_self, Option.some.injEq] at ht'
      subst ht'
      exact Or.inr ⟨rfl, rfl⟩
  have hend : SleepInv s.currentTask t.birth (wrap32 (wrap32 s.tickCount + ms)) s.tickCount
      (s.tickCount + ms) s' :=
    Reach.invariant hstart (fun _ _ _ hs hoffered hnext =>
      hs.step hms hfits hoffered.1 hoffered.2 hnext) hrun
  exact hend.sleeper hpos hms hfits

/-- The machine has run for nearly `2 ^ 32` ticks when Init is started. -/
def lateStarted : Scheduler :=
  ((boot 0 4294967289).step (.startInit 1 4096)).get (by decide +kernel)

def latePreempts : Scheduler := (lateStarted.step .timerTick).get (by decide +kernel)

/-- Init runs six ticks before the counter wraps. -/
def lateRunning : Scheduler := (latePreempts.step .dispatch).get (by decide +kernel)

/-- Init sleeps for ten ticks. -/
def lateAsleep : Scheduler := (lateRunning.step (.sysSleep 10)).get (by decide +kernel)

def lateSwitched : Scheduler := (lateAsleep.step .dispatch).get (by decide +kernel)

/-- One tick later. -/
def lateTicked : Scheduler := (lateSwitched.step .timerTick).get (by decide +kernel)

theorem lateRunning_run {condition : Scheduler → TaskOp → Prop}
    (hcondition : ∀ s, condition s (.startInit 1 4096) ∧ condition s .timerTick ∧
      condition s .dispatch) : Runs condition 0 4294967289 lateRunning :=
  started_run 4294967289 hcondition (Option.some_get _).symm (by decide +kernel)
    (Option.some_get _).symm ⟨by decide +kernel, by decide +kernel⟩ (Option.some_get _).symm

theorem lateRunning_inSyscall : lateRunning.InSyscall :=
  inSyscall_of_running (by decide +kernel) (by decide +kernel) (by decide +kernel)

/-- Init sleeps for five ticks, which ends before the counter wraps. -/
theorem sleep_exact_late : SleepExact (LetsSleep lateRunning.currentTask) lateRunning 5 :=
  sleep_exact (by decide) (lateRunning_run fun _ => ⟨trivial, trivial, trivial⟩)
    ⟨lateRunning_inSyscall, by decide⟩ (by decide) (by decide)
    (Or.inl (by decide +kernel))

/-- Init sleeps for ten ticks, and is ready after one: the deadline has wrapped to 4. -/
theorem sleep_wraps : ∃ s, Reach step Offered (boot 0 4294967289) s ∧ s.Offered (.sysSleep 10) ∧
    ¬ SleepExact (fun _ _ => True) s 10 := by
  have hrun : Runs (fun _ _ => True) 0 4294967289 lateRunning :=
    lateRunning_run fun _ => ⟨trivial, trivial, trivial⟩
  refine ⟨lateRunning, hrun.mono fun _ _ h => h.1, ⟨lateRunning_inSyscall, by decide⟩,
    fun h => ?_⟩
  have hswitched : Reach step (fun s op => s.Offered op ∧ True) lateAsleep lateSwitched :=
    .next (i := TaskOp.dispatch) .start ⟨⟨by decide +kernel, by decide +kernel⟩, trivial⟩
      (Option.some_get _).symm
  have hticked : Reach step (fun s op => s.Offered op ∧ True) lateAsleep lateTicked :=
    .next (i := TaskOp.timerTick) hswitched ⟨Or.inl (by decide +kernel), trivial⟩
      (Option.some_get _).symm
  have hbirth : (lateRunning.task lateRunning.currentTask).map Task.birth = some 2 := by
    decide +kernel
  obtain ⟨t, ht, hb⟩ := Option.map_eq_some_iff.mp hbirth
  have hready : (lateTicked.task lateRunning.currentTask).map
      (fun t => (t.birth, t.state)) = some (2, .ready) := by decide +kernel
  obtain ⟨t', ht', he⟩ := Option.map_eq_some_iff.mp hready
  rw [Prod.mk.injEq] at he
  have hsleeps := (h t lateAsleep lateTicked ht (Option.some_get _).symm hticked).asleep t' ht'
    (he.1.trans hb.symm) (by simp [he.2]) (by decide +kernel)
  simp [he.2] at hsleeps

end Scheduler
end EnclaveOS
