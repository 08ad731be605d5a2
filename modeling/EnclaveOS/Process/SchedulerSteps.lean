import EnclaveOS.Process.TaskLedger

/-!
# SchedulerSteps - what the operations keep

The invariants of the tasks together, and that every operation of a task that is not Init
goes through and keeps them: no null or stale pointer is followed, and every walk ends.
-/

namespace EnclaveOS

/-- Neither a zombie nor dead. -/
def Task.Active (t : Task) : Prop := t.state ≠ .zombie ∧ t.state ≠ .dead

/-- A task without the fields that say whether it sleeps. -/
def Task.stilled (t : Task) : Task := { t with state := .ready, sleepUntil := 0 }

/-- The same task, perhaps asleep or awake. -/
structure Task.Stirs (t t' : Task) : Prop where
  fields : t'.stilled = t.stilled
  states : t'.state = t.state ∨ t.Active ∧ t'.Active

namespace Task.Stirs

variable {t t' : Task}

theorem refl (t : Task) : t.Stirs t := ⟨rfl, Or.inl rfl⟩

theorem field {β : Type*} (h : t.Stirs t') (g : Task → β) (hg : ∀ t, g (Task.stilled t) = g t) :
    g t' = g t := by
  rw [← hg t', h.fields, hg]

theorem dead_iff (h : t.Stirs t') : t'.state = .dead ↔ t.state = .dead := by
  rcases h.states with h | ⟨h, h'⟩
  · rw [h]
  · exact ⟨fun e => absurd e h'.2, fun e => absurd e h.2⟩

theorem zombie_iff (h : t.Stirs t') : t'.state = .zombie ↔ t.state = .zombie := by
  rcases h.states with h | ⟨h, h'⟩
  · rw [h]
  · exact ⟨fun e => absurd e h'.1, fun e => absurd e h.1⟩

theorem ages (h : t.Stirs t') : t.Ages t' := by
  refine ⟨h.field Task.traits fun _ => rfl, ?_⟩
  by_cases hd : t.state = .dead
  · exact Or.inl (h.dead_iff.mpr hd)
  · exact Or.inr ⟨hd, h.field Task.parent fun _ => rfl, h.field Task.exitCode fun _ => rfl,
      h.zombie_iff⟩

end Task.Stirs

/-- A task that can be given the processor. -/
def Task.Runnable (t : Task) : Prop := t.state = .running ∨ t.state = .ready

theorem Task.not_runnable_iff {t : Task} : ¬ t.Runnable ↔
    t.state = .sleeping ∨ t.state = .zombie ∨ t.state = .dead := by
  unfold Task.Runnable
  cases t.state <;> simp

theorem Task.Runnable.active {t : Task} (h : t.Runnable) : t.Active := by
  rcases h with h | h <;> simp [Task.Active, h]

/-- What `wake_sleepers` does to a task in a tick. -/
def Task.wake (now : Nat) (t : Task) : Task :=
  if t.state = .sleeping ∧ 0 < t.sleepUntil ∧ t.sleepUntil ≤ now then
    { t with state := .ready, sleepUntil := 0 }
  else t

theorem Task.wake_stirs (now : Nat) (t : Task) : t.Stirs (t.wake now) := by
  unfold Task.wake
  split_ifs with h
  · exact ⟨rfl, Or.inr ⟨by simp [Task.Active, h.1], by simp [Task.Active]⟩⟩
  · exact .refl t

namespace Scheduler

variable {s s' s'' : Scheduler} {p q c new : Pcb} {t t' u : Task} {rank : Pcb → Nat} {k : Nat}

/-- The invariants of the tasks. -/
structure TaskInv (s : Scheduler) : Prop where
  queue : QueueInv s
  family : FamilyInv (s.link Task.children) s
  roles : RoleInv s
  supply : SupplyInv s
  ledger : LedgerInv s

/-- The phase and the ticks do not matter, and the current task only for the queue. -/
theorem TaskInv.requeue (h : TaskInv s) (hqueue : QueueInv s') (htask : s'.task = s.task)
    (hinit : s'.initTask = s.initTask) (hmain : s'.mainTask = s.mainTask)
    (hpid : s'.nextPid = s.nextPid) (hlog : s'.log = s.log) : TaskInv s' := by
  obtain ⟨task, current, init, main, dead, reaped, pid, ticks, phase, log⟩ := s
  obtain ⟨task', current', init', main', dead', reaped', pid', ticks', phase', log'⟩ := s'
  dsimp only at htask hinit hmain hpid hlog
  subst htask hinit hmain hpid hlog
  exact ⟨hqueue, ⟨h.family.tree, h.family.zombie⟩,
    ⟨h.roles.limit, h.roles.main, h.roles.init, h.roles.root, h.roles.policy⟩,
    ⟨h.supply.stack, h.supply.stack_inj, h.supply.birth_lt, h.supply.birth_inj⟩,
    ⟨h.ledger.recent, h.ledger.held, h.ledger.unfreed, h.ledger.released, h.ledger.zombie,
      h.ledger.active, h.ledger.undelivered, h.ledger.parents, h.ledger.orderly⟩⟩

theorem TaskInv.congr (h : TaskInv s) (htask : s'.task = s.task)
    (hcurrent : s'.currentTask = s.currentTask) (hinit : s'.initTask = s.initTask)
    (hmain : s'.mainTask = s.mainTask) (hdead : s'.deadTasksHead = s.deadTasksHead)
    (hreaped : s'.reaped = s.reaped) (hpid : s'.nextPid = s.nextPid) (hlog : s'.log = s.log) :
    TaskInv s' := by
  refine h.requeue ?_ htask hinit hmain hpid hlog
  obtain ⟨task, current, init, main, dead, reaped, pid, ticks, phase, log⟩ := s
  obtain ⟨task', current', init', main', dead', reaped', pid', ticks', phase', log'⟩ := s'
  dsimp only at htask hcurrent hdead hreaped
  subst htask hcurrent hdead hreaped
  exact ⟨h.queue.ring, h.queue.dead, h.queue.reaped⟩

/-- Tasks have changed between running, waiting and sleeping. -/
structure Stirred (s s' : Scheduler) : Prop where
  currentTask : s'.currentTask = s.currentTask
  mainTask : s'.mainTask = s.mainTask
  initTask : s'.initTask = s.initTask
  deadTasksHead : s'.deadTasksHead = s.deadTasksHead
  reaped : s'.reaped = s.reaped
  nextPid : s'.nextPid = s.nextPid
  log : s'.log = s.log
  task : ∀ p t, s.task p = some t → ∃ t', s'.task p = some t' ∧ t.Stirs t'
  free : ∀ p, s.task p = none → s'.task p = none

namespace Stirred

theorem withTask (ht : s.task p = some t) (h : t.Stirs t') : Stirred s (s.withTask p t') := by
  refine ⟨rfl, rfl, rfl, rfl, rfl, rfl, rfl, fun q u hu => ?_, fun q hq => ?_⟩
  · by_cases hqp : q = p
    · subst hqp
      rw [ht, Option.some.injEq] at hu
      exact ⟨t', withTask_task_self, hu ▸ h⟩
    · exact ⟨u, (withTask_task_of_ne hqp).trans hu, .refl u⟩
  · rw [withTask_task_of_ne, hq]
    rintro rfl
    simp [ht] at hq

variable (h : Stirred s s')

include h

theorem aged : Aged s s' := by
  refine ⟨h.mainTask, h.initTask, h.nextPid, h.log, fun p t ht => ?_, h.free⟩
  obtain ⟨t', ht', hs⟩ := h.task p t ht
  exact ⟨t', ht', hs.ages⟩

theorem earlier (ht' : s'.task p = some t') : ∃ t, s.task p = some t ∧ t.Stirs t' := by
  cases ht : s.task p with
  | none => simp [h.free p ht] at ht'
  | some t =>
    obtain ⟨u, hu, hs⟩ := h.task p t ht
    rw [ht', Option.some.injEq] at hu
    exact ⟨t, rfl, hu ▸ hs⟩

theorem link_eq {g : Task → Option Pcb} (hg : ∀ t, g (Task.stilled t) = g t) :
    s'.link g = s.link g := by
  funext p
  cases ht : s.task p with
  | none => simp [link, ht, h.free p ht]
  | some t =>
    obtain ⟨t', ht', hs⟩ := h.task p t ht
    rw [link_of_task ht, link_of_task ht', hs.field g hg]

theorem alive : s'.Alive p ↔ s.Alive p := by
  constructor
  · rintro ⟨t', ht', hl⟩
    obtain ⟨t, ht, hs⟩ := h.earlier ht'
    exact ⟨t, ht, fun hd => hl (hs.dead_iff.mpr hd)⟩
  · rintro ⟨t, ht, hl⟩
    obtain ⟨t', ht', hs⟩ := h.task p t ht
    exact ⟨t', ht', fun hd => hl (hs.dead_iff.mp hd)⟩

theorem dead : s'.Dead p ↔ s.Dead p := by
  constructor
  · rintro ⟨t', ht', hd⟩
    obtain ⟨t, ht, hs⟩ := h.earlier ht'
    exact ⟨t, ht, hs.dead_iff.mp hd⟩
  · rintro ⟨t, ht, hd⟩
    obtain ⟨t', ht', hs⟩ := h.task p t ht
    exact ⟨t', ht', hs.dead_iff.mpr hd⟩

end Stirred

theorem TaskInv.stirred (h : TaskInv s) (hs : Stirred s s')
    (hmain : ∀ t', s'.task s.mainTask = some t' → t'.state = .running ∨ t'.state = .ready) :
    TaskInv s' := by
  constructor
  case queue =>
    constructor
    case ring =>
      obtain ⟨rest, hr, hmem⟩ := h.queue.ring
      rw [hs.link_eq fun _ => rfl, hs.link_eq fun _ => rfl, hs.currentTask]
      exact ⟨rest, hr, fun p => (hmem p).trans hs.alive.symm⟩
    case dead =>
      obtain ⟨l, hl, hmem⟩ := h.queue.dead
      rw [hs.link_eq fun _ => rfl, hs.deadTasksHead, hs.reaped]
      exact ⟨l, hl, fun p => (hmem p).trans (and_congr_left fun _ => hs.dead.symm)⟩
    case reaped =>
      intro p hp
      exact hs.dead.mpr (h.queue.reaped p (hs.reaped ▸ hp))
  case family =>
    constructor
    case tree =>
      rw [hs.link_eq fun _ => rfl, hs.link_eq fun _ => rfl, hs.link_eq fun _ => rfl]
      exact h.family.tree.congr (fun _ => hs.alive) (fun _ _ => rfl) (fun _ _ => rfl)
        fun _ _ => rfl
    case zombie =>
      intro p t' ht' hz
      obtain ⟨t, ht, hst⟩ := hs.earlier ht'
      rw [hs.link_eq fun _ => rfl]
      exact h.family.zombie p t ht (hst.zombie_iff.mp hz)
  case roles =>
    apply h.roles.aged hs.aged hmain
    intro i' hi' hd
    obtain ⟨i, hi, -, -, hl, -⟩ := h.roles.init
    obtain ⟨j, hj, hst⟩ := hs.earlier hi'
    rw [hi, Option.some.injEq] at hj
    exact hl (hj ▸ hst.dead_iff.mp hd)
  case supply => exact h.supply.aged hs.aged
  case ledger => exact h.ledger.aged hs.aged

/-- One active task changes its state. -/
theorem TaskInv.setState (h : TaskInv s) (ht : s.task p = some t) (ha : t.Active)
    (hfields : t'.stilled = t.stilled) (ha' : t'.Active)
    (hmain : p = s.mainTask → t'.state = .running ∨ t'.state = .ready) :
    TaskInv (s.withTask p t') := by
  apply h.stirred (.withTask ht ⟨hfields, Or.inr ⟨ha, ha'⟩⟩)
  intro m hm
  by_cases hp : s.mainTask = p
  · rw [hp, withTask_task_self, Option.some.injEq] at hm
    exact hm ▸ hmain hp.symm
  · rw [withTask_task_of_ne hp] at hm
    obtain ⟨m', hm', -, hstate, -⟩ := h.roles.main
    rw [hm, Option.some.injEq] at hm'
    exact hm' ▸ hstate

/-- The number of tasks is limited. -/
theorem TaskInv.length_le (h : TaskInv s) {l : List Pcb} (hl : l.Nodup)
    (hmem : ∀ p ∈ l, s.task p ≠ none) : l.length ≤ taskLimit := by
  have hsub : l ⊆ List.range taskLimit := by
    intro p hp
    obtain ⟨t, ht⟩ := Option.ne_none_iff_exists'.mp (hmem p hp)
    exact List.mem_range.mpr (h.roles.limit p t ht)
  have := (hl.subperm hsub).length_le
  rwa [List.length_range] at this

/-- `wake_sleepers` from a task of the ring on. -/
theorem wakeFrom_spec {zs : List Pcb} (fuel : Nat) (hfuel : zs.length < fuel)
    (hchain : (p :: (zs ++ [s.currentTask])).IsChain
      (Linked (s.link Task.next) (s.link Task.prev)))
    (hnodup : (p :: zs).Nodup) (hcurrent : s.currentTask ∉ zs)
    (hmem : ∀ q ∈ p :: zs, s.task q ≠ none) :
    ∃ s', wakeFrom fuel s p = some s' ∧ { s' with task := s.task } = s ∧
      ∀ q, s'.task q =
        if q ∈ p :: zs then (s.task q).map (Task.wake s.timerGetTicks) else s.task q := by
  induction fuel generalizing s p zs with
  | zero => omega
  | succ fuel ih =>
    obtain ⟨t, ht⟩ := Option.ne_none_iff_exists'.mp (hmem p (by simp))
    let s₁ := s.withTask p (t.wake s.timerGetTicks)
    have hwake : (if t.state = .sleeping ∧ 0 < t.sleepUntil ∧ t.sleepUntil ≤ s.timerGetTicks then
        s.set p fun t => { t with state := .ready, sleepUntil := 0 } else some s) = some s₁ := by
      by_cases hc : t.state = .sleeping ∧ 0 < t.sleepUntil ∧ t.sleepUntil ≤ s.timerGetTicks
      · rw [if_pos hc, set_of_task ht]
        simp only [s₁, Task.wake, if_pos hc]
      · rw [if_neg hc]
        simp only [s₁, Task.wake, if_neg hc, withTask_self ht]
    have hs : Stirred s s₁ := .withTask ht (t.wake_stirs _)
    have hnext : s₁.link Task.next = s.link Task.next := hs.link_eq fun _ => rfl
    have hprev : s₁.link Task.prev = s.link Task.prev := hs.link_eq fun _ => rfl
    have hstep : ∀ after, t.next = some after → wakeFrom (fuel + 1) s p =
        if after = s.currentTask then some s₁ else wakeFrom fuel s₁ after := by
      intro after hafter
      simp only [wakeFrom, ht, Option.bind_eq_bind, Option.bind_some]
      rw [hwake]
      simp only [Option.bind_some, hafter]
      rfl
    cases zs with
    | nil =>
      have hafter : t.next = some s.currentTask := by
        simp only [List.nil_append, List.isChain_cons_cons] at hchain
        exact (link_of_task ht).symm.trans hchain.1.1
      refine ⟨s₁, by rw [hstep _ hafter, if_pos rfl], rfl, fun q => ?_⟩
      rw [withTask_task]
      by_cases hq : q = p
      · simp [hq, ht]
      · simp [hq]
    | cons z zs =>
      rw [List.cons_append, List.isChain_cons_cons] at hchain
      have hafter : t.next = some z := (link_of_task ht).symm.trans hchain.1.1
      rw [List.nodup_cons] at hnodup
      have hz : z ≠ s.currentTask := fun e => hcurrent (by simp [e])
      have hmem₁ : ∀ q ∈ z :: zs, s₁.task q ≠ none := by
        intro q hq
        rw [withTask_task_of_ne]
        · exact hmem q (List.mem_cons_of_mem _ hq)
        · rintro rfl
          exact hnodup.1 hq
      obtain ⟨s₂, hrun, hframe, htask⟩ := ih (s := s₁) (p := z) (by simp at hfuel; omega)
        (by rw [hnext, hprev]; exact hchain.2) hnodup.2
        (fun hin => hcurrent (List.mem_cons_of_mem _ hin)) hmem₁
      refine ⟨s₂, by rw [hstep _ hafter, if_neg hz, hrun], ?_, fun q => ?_⟩
      · exact (congrArg (fun x : Scheduler => { x with task := s.task }) hframe :)
      · rw [htask]
        have hnow : s₁.timerGetTicks = s.timerGetTicks := rfl
        by_cases hq : q = p
        · subst hq
          rw [if_neg hnodup.1, if_pos (by simp), withTask_task_self, ht]
          rfl
        · rw [withTask_task_of_ne hq, hnow]
          simp [hq]

/-- `wake_sleepers` reaches every task of the ring, and the others do not sleep. -/
theorem wakeSleepers_spec (h : TaskInv s) :
    ∃ s', wakeFrom taskLimit s s.currentTask = some s' ∧ { s' with task := s.task } = s ∧
      ∀ q, s'.task q = (s.task q).map (Task.wake s.timerGetTicks) := by
  obtain ⟨rest, hr, hmem⟩ := h.queue.ring
  have hall : ∀ q ∈ s.currentTask :: rest, s.task q ≠ none :=
    fun q hq => ((hmem q).mp hq).task_ne_none
  have hlen : rest.length < taskLimit := by
    have := h.length_le hr.nodup hall
    rwa [List.length_cons] at this
  obtain ⟨s', hrun, hframe, htask⟩ := wakeFrom_spec taskLimit hlen hr.linked hr.nodup
    (List.nodup_cons.mp hr.nodup).1 hall
  refine ⟨s', hrun, hframe, fun q => ?_⟩
  rw [htask]
  split_ifs with hq
  · rfl
  · cases ht : s.task q with
    | none => rfl
    | some t =>
      have hdead : t.state = .dead := by
        by_contra hl
        exact hq ((hmem q).mpr ⟨t, ht, hl⟩)
      simp [Task.wake, hdead]

/-- The loop of `schedule` finds the first runnable task, or comes back to the current
one when there is no other. -/
theorem pickNext_spec {zs : List Pcb} (fuel : Nat) (hfuel : zs.length < fuel)
    (hchain : (zs ++ [s.currentTask]).IsChain (Linked (s.link Task.next) (s.link Task.prev)))
    (hfirst : (zs ++ [s.currentTask]).head? = some p) (hcurrent : s.currentTask ∉ zs)
    (hmem : ∀ q ∈ zs, s.task q ≠ none) :
    ∃ new, s.pickNext fuel p = some new ∧
      (new = s.currentTask ∧ (∀ z ∈ zs, ∀ t, s.task z = some t → ¬ t.Runnable) ∨
        new ∈ zs ∧ ∃ t, s.task new = some t ∧ t.Runnable) := by
  induction fuel generalizing p zs with
  | zero => omega
  | succ fuel ih =>
    cases zs with
    | nil =>
      simp only [List.nil_append, List.head?_cons, Option.some.injEq] at hfirst
      refine ⟨s.currentTask, by simp [pickNext, hfirst], Or.inl ⟨rfl, by simp⟩⟩
    | cons z zs =>
      simp only [List.cons_append, List.head?_cons, Option.some.injEq] at hfirst
      subst hfirst
      obtain ⟨t, ht⟩ := Option.ne_none_iff_exists'.mp (hmem z (by simp))
      have hz : z ≠ s.currentTask := fun e => hcurrent (by simp [e])
      by_cases hrun : t.Runnable
      · refine ⟨z, ?_, Or.inr ⟨by simp, t, ht, hrun⟩⟩
        have hnot : ¬ (t.state = .sleeping ∨ t.state = .zombie ∨ t.state = .dead) :=
          fun h => Task.not_runnable_iff.mpr h hrun
        simp only [pickNext, if_neg hz, ht, Option.bind_eq_bind, Option.bind_some, if_neg hnot]
      · have hskip := Task.not_runnable_iff.mp hrun
        obtain ⟨after, hafter⟩ : ∃ after, (zs ++ [s.currentTask]).head? = some after := by
          cases zs <;> simp
        have hnext : t.next = some after := by
          cases zs with
          | nil =>
            simp only [List.cons_append, List.nil_append, List.isChain_cons_cons] at hchain
            simp only [List.nil_append, List.head?_cons, Option.some.injEq] at hafter
            exact (link_of_task ht).symm.trans (hafter ▸ hchain.1.1)
          | cons y ys =>
            simp only [List.cons_append, List.isChain_cons_cons] at hchain
            simp only [List.cons_append, List.head?_cons, Option.some.injEq] at hafter
            exact (link_of_task ht).symm.trans (hafter ▸ hchain.1.1)
        have hrest : (zs ++ [s.currentTask]).IsChain
            (Linked (s.link Task.next) (s.link Task.prev)) := by
          rw [List.cons_append] at hchain
          exact hchain.tail
        obtain ⟨new, hpick, hnew⟩ := ih (by simp at hfuel; omega) hrest hafter
          (fun hin => hcurrent (List.mem_cons_of_mem _ hin))
          fun q hq => hmem q (List.mem_cons_of_mem _ hq)
        refine ⟨new, ?_, ?_⟩
        · simp only [pickNext, if_neg hz, ht, Option.bind_eq_bind, Option.bind_some,
            if_pos hskip, hnext, hpick]
        · rcases hnew with ⟨hcur, hnone⟩ | ⟨hin, hrun'⟩
          · left
            refine ⟨hcur, fun y hy u hu => ?_⟩
            rcases List.mem_cons.mp hy with rfl | hy
            · rw [ht, Option.some.injEq] at hu
              exact hu ▸ hrun
            · exact hnone y hy u hu
          · exact Or.inr ⟨List.mem_cons_of_mem _ hin, hrun'⟩

/-- Another task of the ring becomes the current one. -/
theorem TaskInv.switch (h : TaskInv s) (ha : s.Alive new) :
    TaskInv { s with currentTask := new, phase := .running } := by
  obtain ⟨rest, hr, hmem⟩ := h.queue.ring
  obtain ⟨ys, hr', hmem'⟩ := hr.from_mem ((hmem new).mpr ha)
  exact h.requeue ⟨⟨ys, hr', fun p => (hmem' p).trans (hmem p)⟩, h.queue.dead, h.queue.reaped⟩
    rfl rfl rfl rfl rfl

/-- The invariant of runs in which Init lives.  The task of `kernel_main` can always be
switched to, so `schedule` never halts. -/
structure SchedulerInv (s : Scheduler) : Prop where
  tasks : TaskInv s
  busy : s.phase ≠ .idle
  reaper : s.phase ≠ .halted → s.reaped = none
  awake : ∃ t, s.task s.currentTask = some t ∧ t.state ≠ .ready ∧
    (s.phase = .running → t.state = .running)

theorem dispatch_spec (h : SchedulerInv s) (hphase : s.phase = .reaping) :
    ∃ s', s.dispatch = some s' ∧ SchedulerInv s' := by
  have hreaped := h.reaper (by simp [hphase])
  obtain ⟨old, hold, hready, -⟩ := h.awake
  obtain ⟨m, hm, -, hmstate, -⟩ := h.tasks.roles.main
  obtain ⟨rest, hr, hmem⟩ := h.tasks.queue.ring
  have hall : ∀ q ∈ s.currentTask :: rest, s.task q ≠ none :=
    fun q hq => ((hmem q).mp hq).task_ne_none
  have hlen : rest.length < taskLimit := by
    have := h.tasks.length_le hr.nodup hall
    rwa [List.length_cons] at this
  obtain ⟨first, hfirst⟩ : ∃ first, (rest ++ [s.currentTask]).head? = some first := by
    cases rest <;> simp
  have hchain := hr.linked
  have hnext : old.next = some first := by
    rw [← link_of_task (g := Task.next) hold]
    cases rest with
    | nil =>
      rw [hr.next_self, ← hfirst]
      rfl
    | cons y ys =>
      rw [hr.next_cons, ← hfirst]
      rfl
  obtain ⟨new, hpick, hnew⟩ := pickNext_spec taskLimit hlen hchain.tail hfirst
    (List.nodup_cons.mp hr.nodup).1 fun q hq => hall q (List.mem_cons_of_mem _ hq)
  rcases hnew with ⟨rfl, hnone⟩ | ⟨hin, t, ht, hrun⟩
  · -- nobody else: the current task is that of kernel_main
    have hmain : s.mainTask = s.currentTask := by
      by_contra hne
      have hmainalive : s.Alive s.mainTask := by
        refine ⟨m, hm, ?_⟩
        rcases hmstate with h | h <;> simp [h]
      have hin := (List.mem_cons.mp ((hmem _).mpr hmainalive)).resolve_left hne
      exact hnone _ hin m hm hmstate
    rw [hmain, hold] at hm
    cases hm
    have hrunning : old.state = .running := hmstate.resolve_right hready
    refine ⟨{ s with phase := .running }, ?_, ?_⟩
    · simp only [dispatch, hold, Option.bind_eq_bind, Option.bind_some, hnext, hpick, if_pos,
        hrunning]
    · exact ⟨h.tasks.congr rfl rfl rfl rfl rfl rfl rfl rfl, by simp, fun _ => hreaped, old, hold,
        hready, fun _ => hrunning⟩
  · have hne : new ≠ s.currentTask := by
      rintro rfl
      exact (List.nodup_cons.mp hr.nodup).1 hin
    obtain ⟨s₁, hs₁, hset₁, hreaped₁, ht₁⟩ : ∃ s₁, TaskInv s₁ ∧
        (if old.state = .running then s.set s.currentTask fun t => { t with state := .ready }
          else some s) = some s₁ ∧ s₁.reaped = s.reaped ∧ s₁.task new = some t := by
      by_cases hrunning : old.state = .running
      · refine ⟨s.withTask s.currentTask { old with state := .ready }, ?_, ?_, rfl, ?_⟩
        · exact h.tasks.setState hold (by simp [Task.Active, hrunning]) rfl
            (by simp [Task.Active]) fun _ => Or.inr rfl
        · rw [if_pos hrunning, set_of_task hold]
        · rw [withTask_task_of_ne hne, ht]
      · exact ⟨s, h.tasks, by rw [if_neg hrunning], rfl, ht⟩
    let s₂ := s₁.withTask new { t with state := .running }
    have hs₂ : TaskInv s₂ :=
      hs₁.setState ht₁ hrun.active rfl (by simp [Task.Active]) fun _ => Or.inl rfl
    refine ⟨{ s₂ with currentTask := new, phase := .running }, ?_, ?_⟩
    · simp only [dispatch, hold, Option.bind_eq_bind, Option.bind_some, hnext, hpick, if_neg hne]
      rw [hset₁]
      simp only [Option.bind_some, set_of_task ht₁]
      rfl
    · refine ⟨hs₂.switch ⟨_, withTask_task_self, by simp⟩, by simp,
        fun _ => hreaped₁.trans hreaped, _, withTask_task_self, ?_, ?_⟩
      · simp
      · simp

theorem timerTick_spec (h : SchedulerInv s) (hphase : s.phase = .running) :
    ∃ s', s.timerTick = some s' ∧ SchedulerInv s' ∧ s'.tickCount = s.tickCount + 1 ∧
      ∀ q, s'.task q = (s.task q).map (Task.wake (wrap32 (s.tickCount + 1))) := by
  have h₀ : TaskInv { s with tickCount := s.tickCount + 1 } :=
    h.tasks.congr rfl rfl rfl rfl rfl rfl rfl rfl
  obtain ⟨s₁, hrun, hframe, htask⟩ := wakeSleepers_spec h₀
  have hstirred : Stirred s s₁ := by
    refine ⟨(congrArg Scheduler.currentTask hframe :), (congrArg Scheduler.mainTask hframe :),
      (congrArg Scheduler.initTask hframe :), (congrArg Scheduler.deadTasksHead hframe :),
      (congrArg Scheduler.reaped hframe :),
      (congrArg Scheduler.nextPid hframe :), (congrArg Scheduler.log hframe :), ?_, ?_⟩
    · intro p t ht
      exact ⟨_, by rw [htask, show _ = _ from ht]; rfl, t.wake_stirs _⟩
    · intro p hp
      rw [htask, show _ = _ from hp]
      rfl
  have hs₁ : TaskInv s₁ := by
    apply h.tasks.stirred hstirred
    intro m' hm'
    obtain ⟨m, hm, -, hstate, -⟩ := h.tasks.roles.main
    rw [htask, show _ = _ from hm, Option.map_some, Option.some.injEq] at hm'
    subst hm'
    have hawake : m.state ≠ .sleeping := by rcases hstate with h | h <;> simp [h]
    simpa [Task.wake, hawake] using hstate
  obtain ⟨t, ht, -, hrunning⟩ := h.awake
  have ht₁ : s₁.task s₁.currentTask = some t := by
    rw [hstirred.currentTask, htask, show _ = _ from ht]
    simp [Task.wake, hrunning hphase]
  have hreaped : s₁.reaped = none := hstirred.reaped.trans (h.reaper (by simp [hphase]))
  have hticks : s₁.tickCount = s.tickCount + 1 := (congrArg Scheduler.tickCount hframe :)
  have hstep : s.timerTick = if s₁.timerGetTicks % 10 = 0 then some { s₁ with phase := .reaping }
      else some { s₁ with phase := .running } := by
    simp only [timerTick, Option.bind_eq_bind]
    rw [hrun]
    rfl
  rw [hstep]
  split_ifs
  · refine ⟨_, rfl, ⟨hs₁.congr rfl rfl rfl rfl rfl rfl rfl rfl, by simp,
      fun _ => hreaped, t, ht₁, ?_, ?_⟩, hticks, htask⟩
    · simp [hrunning hphase]
    · simp
  · refine ⟨_, rfl, ⟨hs₁.congr rfl rfl rfl rfl rfl rfl rfl rfl, by simp,
      fun _ => hreaped, t, ht₁, ?_, ?_⟩, hticks, htask⟩
    · simp [hrunning hphase]
    · simp [hrunning hphase]

end Scheduler
end EnclaveOS
