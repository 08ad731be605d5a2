import EnclaveOS.Process.TaskDeath

/-!
# TaskRest - which operations leave a sleeping task alone

Whatever a function of `task.c` does to the tasks in memory, one that sleeps goes on
sleeping as long as before, unless it dies or is in a set of tasks that may be woken.  The
lemmas assume that the function comes to an end, and nothing about the state.
-/

namespace EnclaveOS

/-- The same task later: dead tasks stay dead, and if it slept it sleeps as long or has died. -/
structure Task.Rests (t t' : Task) : Prop where
  dead : t.state = .dead → t'.state = .dead
  sleeping : t.state = .sleeping →
    t'.state = .dead ∨ t'.state = .sleeping ∧ t'.sleepUntil = t.sleepUntil

namespace Task.Rests

variable {t t' t'' : Task}

theorem of_eq (hstate : t'.state = t.state) (hsleep : t'.sleepUntil = t.sleepUntil) : t.Rests t' :=
  ⟨hstate.trans, fun h => Or.inr ⟨hstate.trans h, hsleep⟩⟩

theorem of_dead (h : t'.state = .dead) : t.Rests t' := ⟨fun _ => h, fun _ => Or.inl h⟩

theorem of_awake (hdead : t.state ≠ .dead) (hsleep : t.state ≠ .sleeping) : t.Rests t' :=
  ⟨fun h => absurd h hdead, fun h => absurd h hsleep⟩

theorem trans (h : t.Rests t') (h' : t'.Rests t'') : t.Rests t'' := by
  refine ⟨fun hd => h'.dead (h.dead hd), fun hs => ?_⟩
  rcases h.sleeping hs with hd | ⟨hs', he⟩
  · exact Or.inl (h'.dead hd)
  · rw [← he]
    exact h'.sleeping hs'

end Task.Rests

namespace Scheduler

variable {s s' s'' : Scheduler} {p q c pcb : Pcb} {t t' cur : Task} {awake : Pcb → Prop}
  {f : Task → Task}

/-- The tasks in memory were there before, and those outside a set have been left to sleep. -/
structure Quiet (awake : Pcb → Prop) (s s' : Scheduler) : Prop where
  tickCount : s'.tickCount = s.tickCount
  nextPid : s'.nextPid = s.nextPid
  mainTask : s'.mainTask = s.mainTask
  initTask : s'.initTask = s.initTask
  task : ∀ q t', s'.task q = some t' → ∃ t, s.task q = some t ∧ t'.birth = t.birth ∧
    t'.pid = t.pid ∧ (awake q ∨ t.Rests t')

namespace Quiet

theorem of_task (h : s'.task = s.task) (htick : s'.tickCount = s.tickCount)
    (hpid : s'.nextPid = s.nextPid) (hmain : s'.mainTask = s.mainTask)
    (hinit : s'.initTask = s.initTask) : Quiet awake s s' := by
  refine ⟨htick, hpid, hmain, hinit, fun q t ht => ?_⟩
  rw [h] at ht
  exact ⟨t, ht, rfl, rfl, Or.inr (.of_eq rfl rfl)⟩

theorem refl (s : Scheduler) : Quiet awake s s := of_task rfl rfl rfl rfl rfl

theorem trans (h : Quiet awake s s') (h' : Quiet awake s' s'') : Quiet awake s s'' := by
  refine ⟨h'.tickCount.trans h.tickCount, h'.nextPid.trans h.nextPid,
    h'.mainTask.trans h.mainTask, h'.initTask.trans h.initTask, fun q t'' ht'' => ?_⟩
  obtain ⟨t', ht', hb', hp', hr'⟩ := h'.task q t'' ht''
  obtain ⟨t, ht, hb, hp, hr⟩ := h.task q t' ht'
  refine ⟨t, ht, hb'.trans hb, hp'.trans hp, ?_⟩
  rcases hr with ha | hr
  · exact Or.inl ha
  · exact hr'.imp_right hr.trans

theorem withTask (ht : s.task p = some t) (hbirth : t'.birth = t.birth) (hpid : t'.pid = t.pid)
    (hrest : awake p ∨ t.Rests t') : Quiet awake s (s.withTask p t') := by
  refine ⟨rfl, rfl, rfl, rfl, fun q u hu => ?_⟩
  rw [withTask_task] at hu
  split_ifs at hu with hq
  · rw [Option.some.injEq] at hu
    subst hu hq
    exact ⟨t, ht, hbirth, hpid, hrest⟩
  · exact ⟨u, hu, rfl, rfl, Or.inr (.of_eq rfl rfl)⟩

theorem exists_of_set (h : s.set p f = some s') :
    ∃ t, s.task p = some t ∧ s' = s.withTask p (f t) := by
  obtain ⟨t, ht, rfl⟩ := Option.map_eq_some_iff.mp h
  exact ⟨t, ht, rfl⟩

theorem set (h : s.set p f = some s') (hbirth : ∀ t, (f t).birth = t.birth)
    (hpid : ∀ t, (f t).pid = t.pid) (hrest : ∀ t, s.task p = some t → awake p ∨ t.Rests (f t)) :
    Quiet awake s s' := by
  obtain ⟨t, ht, rfl⟩ := exists_of_set h
  exact withTask ht (hbirth t) (hpid t) (hrest t ht)

/-- Writing pointers. -/
theorem setLink (h : s.set p f = some s')
    (hf : ∀ t, (f t).birth = t.birth ∧ (f t).pid = t.pid ∧ (f t).state = t.state ∧
      (f t).sleepUntil = t.sleepUntil) : Quiet awake s s' :=
  set h (fun t => (hf t).1) (fun t => (hf t).2.1) fun t _ =>
    Or.inr (.of_eq (hf t).2.2.1 (hf t).2.2.2)

theorem taskQueueAdd (h : s.taskQueueAdd pcb = some s') : Quiet awake s s' := by
  simp only [Scheduler.taskQueueAdd, Option.bind_eq_bind, Option.bind_eq_some_iff] at h
  obtain ⟨cur, -, s₁, h₁, after, -, s₂, h₂, h₃⟩ := h
  have hq₁ : Quiet awake s s₁ := setLink h₁ fun _ => ⟨rfl, rfl, rfl, rfl⟩
  have hq₂ : Quiet awake s₁ s₂ := setLink h₂ fun _ => ⟨rfl, rfl, rfl, rfl⟩
  exact (hq₁.trans hq₂).trans (setLink h₃ fun _ => ⟨rfl, rfl, rfl, rfl⟩)

theorem bypass (h : s.bypass c = some s') : Quiet awake s s' := by
  simp only [Scheduler.bypass, Option.bind_eq_bind, Option.bind_eq_some_iff] at h
  obtain ⟨t, -, before, -, s₁, h₁, t₁, -, after, -, h₂⟩ := h
  have hq₁ : Quiet awake s s₁ := setLink h₁ fun _ => ⟨rfl, rfl, rfl, rfl⟩
  exact hq₁.trans (setLink h₂ fun _ => ⟨rfl, rfl, rfl, rfl⟩)

theorem queueRemove (h : s.queueRemove c = some s') : Quiet awake s s' := by
  simp only [Scheduler.queueRemove, Option.bind_eq_bind, Option.bind_eq_some_iff] at h
  obtain ⟨t, -, h⟩ := h
  split_ifs at h
  · rw [Option.bind_eq_some_iff] at h
    obtain ⟨s₁, h₁, h₂⟩ := h
    exact (bypass h₁).trans (setLink h₂ fun _ => ⟨rfl, rfl, rfl, rfl⟩)
  · cases h
    exact refl _

theorem pushDead (h : s.pushDead c = some s') : Quiet awake s s' := by
  simp only [Scheduler.pushDead, Option.bind_eq_bind, Option.bind_eq_some_iff,
    Option.some.injEq] at h
  obtain ⟨s₁, h₁, rfl⟩ := h
  have hq₁ : Quiet awake s s₁ := setLink h₁ fun _ => ⟨rfl, rfl, rfl, rfl⟩
  exact hq₁.trans (of_task rfl rfl rfl rfl rfl)

theorem unlinkChild (h : s.unlinkChild p c = some s') : Quiet awake s s' := by
  simp only [Scheduler.unlinkChild, Option.bind_eq_bind, Option.bind_eq_some_iff] at h
  obtain ⟨u, -, t, -, h⟩ := h
  split_ifs at h
  · exact setLink h fun _ => ⟨rfl, rfl, rfl, rfl⟩
  · rw [Option.bind_eq_some_iff] at h
    obtain ⟨before, -, h⟩ := h
    cases before with
    | none =>
      cases h
      exact refl _
    | some w => exact setLink h fun _ => ⟨rfl, rfl, rfl, rfl⟩

theorem killChild (h : s.killChild c = some s') : Quiet awake s s' := by
  simp only [Scheduler.killChild, Option.bind_eq_bind, Option.bind_eq_some_iff] at h
  obtain ⟨s₁, h₁, s₂, h₂, h₃⟩ := h
  have hq₁ : Quiet awake s s₁ := set h₁ (fun _ => rfl) (fun _ => rfl) fun _ _ => Or.inr (.of_dead rfl)
  exact (hq₁.trans (queueRemove h₂)).trans (pushDead h₃)

theorem cleanupFrom {fuel : Nat} {head : Option Pcb} (h : cleanupFrom fuel s head = some s') :
    Quiet awake s s' := by
  induction fuel generalizing s head s' with
  | zero => cases head <;> cases h
  | succ fuel ih =>
    cases head with
    | none =>
      cases h
      exact refl _
    | some child =>
      simp only [Scheduler.cleanupFrom, Option.bind_eq_bind, Option.bind_eq_some_iff] at h
      obtain ⟨t, -, h⟩ := h
      split_ifs at h
      · exact ih h
      · simp only [Option.bind_eq_some_iff] at h
        obtain ⟨s₁, ⟨s₀, h₀, h₁⟩, s₂, h₂, h₃⟩ := h
        have hq₁ : Quiet awake s₀ s₁ := setLink h₁ fun _ => ⟨rfl, rfl, rfl, rfl⟩
        exact (((ih h₀).trans hq₁).trans (killChild h₂)).trans (ih h₃)
      · simp only [Option.bind_some, Option.bind_eq_some_iff] at h
        obtain ⟨s₁, h₁, h₂⟩ := h
        exact (killChild h₁).trans (ih h₂)

theorem taskCleanupChildrenOnExit (h : s.taskCleanupChildrenOnExit p = some s') :
    Quiet awake s s' := by
  simp only [Scheduler.taskCleanupChildrenOnExit, Option.bind_eq_bind,
    Option.bind_eq_some_iff] at h
  obtain ⟨t, -, s₁, h₁, h₂⟩ := h
  exact (cleanupFrom h₁).trans (setLink h₂ fun _ => ⟨rfl, rfl, rfl, rfl⟩)

theorem adoptChild (h : s.adoptChild c = some s') : Quiet awake s s' := by
  simp only [Scheduler.adoptChild, Option.bind_eq_bind, Option.bind_eq_some_iff] at h
  obtain ⟨t, -, s₁, h₁, h⟩ := h
  have hq₁ : Quiet awake s s₁ := setLink h₁ fun _ => ⟨rfl, rfl, rfl, rfl⟩
  split_ifs at h
  · simp only [Option.bind_eq_some_iff, Option.some.injEq] at h
    obtain ⟨i, -, s₂, h₂, s₃, h₃, rfl⟩ := h
    have hq₂ : Quiet awake s₁ s₂ := setLink h₂ fun _ => ⟨rfl, rfl, rfl, rfl⟩
    have hq₃ : Quiet awake s₂ s₃ := setLink h₃ fun _ => ⟨rfl, rfl, rfl, rfl⟩
    exact ((hq₁.trans hq₂).trans hq₃).trans (of_task rfl rfl rfl rfl rfl)
  · exact hq₁.trans (setLink h fun _ => ⟨rfl, rfl, rfl, rfl⟩)

theorem adoptChildren {fuel : Nat} (h : adoptChildren fuel s = some s') : Quiet awake s s' := by
  induction fuel generalizing s with
  | zero => cases h
  | succ fuel ih =>
    simp only [Scheduler.adoptChildren, Option.bind_eq_bind, Option.bind_eq_some_iff] at h
    obtain ⟨cur, -, h⟩ := h
    cases hchildren : cur.children with
    | none =>
      rw [hchildren] at h
      cases h
      exact refl _
    | some child =>
      simp only [hchildren, Option.bind_eq_some_iff] at h
      obtain ⟨s₁, h₁, h₂⟩ := h
      exact (adoptChild h₁).trans (ih h₂)

theorem leaveChildren (h : s.leaveChildren = some s') : Quiet awake s s' := by
  simp only [Scheduler.leaveChildren, Option.bind_eq_bind, Option.bind_eq_some_iff] at h
  obtain ⟨cur, -, h⟩ := h
  split_ifs at h
  · exact taskCleanupChildrenOnExit h
  · exact adoptChildren h
  · exact taskCleanupChildrenOnExit h
  · cases h
    exact refl _

theorem wakeParent (h : s.wakeParent = some s')
    (hparent : ∀ cur, s.task s.currentTask = some cur → ∀ q, cur.parent = some q → awake q) :
    Quiet awake s s' := by
  simp only [Scheduler.wakeParent, Option.bind_eq_bind, Option.bind_eq_some_iff] at h
  obtain ⟨cur, hcur, h⟩ := h
  cases hp : cur.parent with
  | none =>
    rw [hp] at h
    cases h
    exact refl _
  | some q =>
    simp only [hp, Option.bind_eq_some_iff] at h
    obtain ⟨t, -, h⟩ := h
    split_ifs at h
    · exact set h (fun _ => rfl) (fun _ => rfl) fun _ _ => Or.inl (hparent cur hcur q hp)
    · cases h
      exact refl _

theorem buryInit (h : s.buryInit = some s') : Quiet awake s s' := by
  simp only [Scheduler.buryInit, Option.bind_eq_bind, Option.bind_eq_some_iff] at h
  obtain ⟨cur, -, h⟩ := h
  split_ifs at h
  · simp only [Option.bind_eq_some_iff] at h
    obtain ⟨s₁, h₁, s₂, h₂, h₃⟩ := h
    have hq₂ : Quiet awake s₁ s₂ := set h₂ (fun _ => rfl) (fun _ => rfl) fun _ _ => Or.inr (.of_dead rfl)
    exact ((queueRemove h₁).trans hq₂).trans (pushDead h₃)
  · cases h
    exact refl _

/-- An exit wakes at most the parent of the task that exits. -/
theorem taskExit {code : Int} (h : s.taskExit code = some s')
    (hleft : ∀ s₁ cur, s.leaveChildren = some s₁ → s₁.task s₁.currentTask = some cur →
      (awake s₁.currentTask ∨ cur.state ≠ .dead ∧ cur.state ≠ .sleeping) ∧
        ∀ q, cur.parent = some q → awake q) : Quiet awake s s' := by
  simp only [Scheduler.taskExit, Option.bind_eq_bind, Option.bind_eq_some_iff,
    Option.some.injEq] at h
  obtain ⟨s₁, h₁, s₂, h₂, z, hz, s₃, h₃, s₄, h₄, rfl⟩ := h
  obtain ⟨cur, hcur, rfl⟩ := exists_of_set h₂
  obtain ⟨hawake, hparent⟩ := hleft s₁ cur h₁ hcur
  have hq₂ : Quiet awake s₁ (s₁.withTask s₁.currentTask
      { cur with state := .zombie, exitCode := code }) :=
    withTask hcur rfl rfl (hawake.imp_right fun ha => .of_awake ha.1 ha.2)
  have hq₃ : Quiet awake (s₁.withTask s₁.currentTask
      { cur with state := .zombie, exitCode := code }) s₃ := by
    have hnote : Quiet awake _ s₃ := wakeParent h₃ fun z' hz' q hq => ?_
    · exact ⟨hnote.tickCount, hnote.nextPid, hnote.mainTask, hnote.initTask, hnote.task⟩
    · have hz'' : (s₁.withTask s₁.currentTask
          { cur with state := .zombie, exitCode := code }).task s₁.currentTask = some z' := hz'
      rw [withTask_task_self, Option.some.injEq] at hz''
      rw [← hz''] at hq
      exact hparent q hq
  exact ((((leaveChildren h₁).trans hq₂).trans hq₃).trans (buryInit h₄)).trans (of_task rfl rfl rfl rfl rfl)

theorem collect (h : s.collect c = some s') : Quiet awake s s' := by
  simp only [Scheduler.collect, Option.bind_eq_bind, Option.bind_eq_some_iff,
    Option.some.injEq] at h
  obtain ⟨t, -, cur, -, s₁, h₁, s₂, h₂, s₃, h₃, s₄, h₄, rfl⟩ := h
  have hq₂ : Quiet awake s₁ s₂ := by
    split_ifs at h₂
    · exact bypass h₂
    · cases h₂
      exact refl s₁
  have hq₃ : Quiet awake s₂ s₃ := set h₃ (fun _ => rfl) (fun _ => rfl) fun _ _ => Or.inr (.of_dead rfl)
  exact ((((unlinkChild h₁).trans hq₂).trans hq₃).trans (pushDead h₄)).trans (of_task rfl rfl rfl rfl rfl)

theorem taskWaitpid {pid options : Nat} (h : s.taskWaitpid pid options = some s')
    (hrunning : ∀ cur, s.task s.currentTask = some cur →
      awake s.currentTask ∨ cur.state = .running) : Quiet awake s s' := by
  simp only [Scheduler.taskWaitpid, Option.bind_eq_bind, Option.bind_eq_some_iff] at h
  obtain ⟨cur, hcur, found, -, h⟩ := h
  cases found with
  | some z => exact collect h
  | none =>
    dsimp only at h
    split_ifs at h
    · cases h
      exact refl _
    · simp only [set_of_task hcur, Option.bind_some] at h
      cases h
      have hq : Quiet awake s (s.withTask s.currentTask
          { cur with state := .sleeping, sleepUntil := 0 }) :=
        withTask hcur rfl rfl ((hrunning cur hcur).imp_right fun h =>
          .of_awake (by simp [h]) (by simp [h]))
      exact hq.trans (of_task rfl rfl rfl rfl rfl)

theorem sysSleep {ms : Nat} (h : s.sysSleep ms = some s')
    (hrunning : ∀ cur, s.task s.currentTask = some cur →
      awake s.currentTask ∨ cur.state = .running) : Quiet awake s s' := by
  unfold Scheduler.sysSleep at h
  split_ifs at h
  · cases h
    exact of_task rfl rfl rfl rfl rfl
  · simp only [Option.bind_eq_bind, Option.bind_eq_some_iff, Option.some.injEq] at h
    obtain ⟨s₁, h₁, rfl⟩ := h
    obtain ⟨cur, hcur, rfl⟩ := exists_of_set h₁
    have hq : Quiet awake s (s.withTask s.currentTask
        { cur with sleepUntil := wrap32 (s.timerGetTicks + ms), state := .sleeping }) :=
      withTask hcur rfl rfl ((hrunning cur hcur).imp_right fun h =>
        .of_awake (by simp [h]) (by simp [h]))
    exact hq.trans (of_task rfl rfl rfl rfl rfl)

/-- A tick may wake anyone. -/
theorem wakeFrom {fuel : Nat} (h : wakeFrom fuel s p = some s') (hawake : ∀ q, awake q) :
    Quiet awake s s' := by
  induction fuel generalizing s p with
  | zero => cases h
  | succ fuel ih =>
    simp only [Scheduler.wakeFrom, Option.bind_eq_bind, Option.bind_eq_some_iff] at h
    obtain ⟨t, -, s₁, h₁, after, -, h₂⟩ := h
    have hq₁ : Quiet awake s s₁ := by
      split_ifs at h₁
      · exact set h₁ (fun _ => rfl) (fun _ => rfl) fun _ _ => Or.inl (hawake p)
      · cases h₁
        exact refl _
    split_ifs at h₂
    · cases h₂
      exact hq₁
    · exact hq₁.trans (ih h₂)

theorem pickNext_runnable {fuel : Nat} {first new : Pcb}
    (h : s.pickNext fuel first = some new) :
    new = s.currentTask ∨ ∃ t, s.task new = some t ∧ t.Runnable := by
  induction fuel generalizing first with
  | zero => cases h
  | succ fuel ih =>
    simp only [pickNext] at h
    split_ifs at h with hsame
    · rw [Option.some.injEq] at h
      exact Or.inl (h ▸ hsame)
    · simp only [Option.bind_eq_bind, Option.bind_eq_some_iff] at h
      obtain ⟨t, ht, h⟩ := h
      split_ifs at h with hskip
      · rw [Option.bind_eq_some_iff] at h
        obtain ⟨after, -, h⟩ := h
        exact ih h
      · cases h
        exact Or.inr ⟨t, ht, by_contra fun hn => hskip (Task.not_runnable_iff.mp hn)⟩

/-- `schedule` takes the processor from a task that runs and gives it to one that is
ready. -/
theorem dispatch (h : s.dispatch = some s') : Quiet awake s s' := by
  simp only [Scheduler.dispatch, Option.bind_eq_bind, Option.bind_eq_some_iff] at h
  obtain ⟨old, hold, h⟩ := h
  cases hnext : old.next with
  | none =>
    rw [hnext] at h
    cases h
    exact of_task rfl rfl rfl rfl rfl
  | some first =>
    simp only [hnext, Option.bind_eq_some_iff] at h
    obtain ⟨new, hpick, h⟩ := h
    by_cases hsame : new = s.currentTask
    · rw [if_pos hsame] at h
      cases h
      exact of_task rfl rfl rfl rfl rfl
    · rw [if_neg hsame] at h
      simp only [Option.bind_eq_some_iff, Option.some.injEq] at h
      obtain ⟨s₁, h₁, s₂, h₂, rfl⟩ := h
      obtain ⟨t, ht, hrunnable⟩ := (pickNext_runnable hpick).resolve_left hsame
      have hq₁ : Quiet awake s s₁ ∧ s₁.task new = some t := by
        split_ifs at h₁ with hrunning
        · obtain ⟨cur, hcur, rfl⟩ := exists_of_set h₁
          rw [hold] at hcur
          cases hcur
          refine ⟨withTask hold rfl rfl (Or.inr ?_), (withTask_task_of_ne hsame).trans ht⟩
          exact .of_awake (by simp [hrunning]) (by simp [hrunning])
        · cases h₁
          exact ⟨refl _, ht⟩
      have hq₂ : Quiet awake s₁ s₂ := by
        refine set h₂ (fun _ => rfl) (fun _ => rfl) fun u hu => Or.inr ?_
        rw [hq₁.2] at hu
        cases hu
        exact .of_awake hrunnable.active.2 (by rcases hrunnable with h | h <;> simp [h])
      exact (hq₁.1.trans hq₂).trans (of_task rfl rfl rfl rfl rfl)

theorem release (h : s.release c = some s') : Quiet awake s s' := by
  simp only [Scheduler.release, Option.bind_eq_bind, Option.bind_eq_some_iff,
    Option.some.injEq] at h
  obtain ⟨t, -, rfl⟩ := h
  refine ⟨?_, ?_, ?_, ?_, fun q u hu => ?_⟩
  · split_ifs <;> rfl
  · split_ifs <;> rfl
  · split_ifs <;> rfl
  · split_ifs <;> rfl
  · have hu' : Function.update s.task c none q = some u := by
      split_ifs at hu <;> exact hu
    rw [Function.update_apply] at hu'
    split_ifs at hu'
    exact ⟨u, hu', rfl, rfl, Or.inr (.of_eq rfl rfl)⟩

end Quiet

/-- As `Quiet` but for one task that has been made. -/
structure Grown (awake : Pcb → Prop) (pcb : Pcb) (pid : Nat) (init : Pcb) (s s' : Scheduler) :
    Prop where
  tickCount : s'.tickCount = s.tickCount
  nextPid : s'.nextPid = s.nextPid + 1
  mainTask : s'.mainTask = s.mainTask
  initTask : s'.initTask = init
  task : ∀ q t', s'.task q = some t' →
    (q = pcb ∧ t'.birth = s.nextPid ∧ t'.pid = pid) ∨
      ∃ t, s.task q = some t ∧ t'.birth = t.birth ∧ t'.pid = t.pid ∧ (awake q ∨ t.Rests t')

namespace Grown

variable {pid stack : Nat} {init : Pcb}

theorem trans (h : Grown awake pcb pid init s s') (h' : Quiet awake s' s'') :
    Grown awake pcb pid init s s'' := by
  refine ⟨h'.tickCount.trans h.tickCount, h'.nextPid.trans h.nextPid,
    h'.mainTask.trans h.mainTask, h'.initTask.trans h.initTask, fun q t'' ht'' => ?_⟩
  obtain ⟨t', ht', hb', hp', hr'⟩ := h'.task q t'' ht''
  rcases h.task q t' ht' with ⟨hq, hb, hp⟩ | ⟨t, ht, hb, hp, hr⟩
  · exact Or.inl ⟨hq, hb'.trans hb, hp'.trans hp⟩
  · refine Or.inr ⟨t, ht, hb'.trans hb, hp'.trans hp, ?_⟩
    rcases hr with ha | hr
    · exact Or.inl ha
    · exact hr'.imp_right hr.trans

theorem addTask {orphanOnExit monitorChildren : Bool}
    (h : s.addTask pcb stack orphanOnExit monitorChildren = some s') :
    Grown awake pcb (wrap32 s.nextPid) s.initTask s s' := by
  simp only [Scheduler.addTask, Option.bind_eq_bind, Option.bind_eq_some_iff] at h
  obtain ⟨cur, hcur, s₂, h₂, h₃⟩ := h
  let new : Task :=
    { pid := wrap32 s.nextPid, state := .ready, kernelStackVirt := stack,
      parent := some s.currentTask, children := none, nextSibling := cur.children,
      exitCode := 0, orphanOnExit := orphanOnExit, monitorChildren := monitorChildren,
      next := none, prev := none, reaperNext := none, sleepUntil := 0, birth := s.nextPid }
  let s₁ : Scheduler := { s with
    task := Function.update s.task pcb (some new)
    nextPid := s.nextPid + 1
    log := .created cur.birth s.nextPid pcb stack :: s.log }
  have h₁ : Grown awake pcb (wrap32 s.nextPid) s.initTask s s₁ := by
    refine ⟨rfl, rfl, rfl, rfl, fun q t ht => ?_⟩
    have ht' : Function.update s.task pcb (some new) q = some t := ht
    rw [Function.update_apply] at ht'
    split_ifs at ht' with hq
    · rw [Option.some.injEq] at ht'
      exact Or.inl ⟨hq, ht' ▸ rfl, ht' ▸ rfl⟩
    · exact Or.inr ⟨t, ht', rfl, rfl, Or.inr (.of_eq rfl rfl)⟩
  have hq₂ : Quiet awake s₁ s₂ := Quiet.setLink h₂ fun _ => ⟨rfl, rfl, rfl, rfl⟩
  exact (h₁.trans hq₂).trans (Quiet.taskQueueAdd h₃)

theorem setInit (h : Grown awake pcb pid init s s') (hfree : s.task pcb = none)
    (hset : s'.set pcb Task.asInit = some s'') : Grown awake pcb 1 init s s'' := by
  obtain ⟨u, hu, rfl⟩ := Quiet.exists_of_set hset
  have hnew : u.birth = s.nextPid := by
    rcases h.task pcb u hu with ⟨-, hb, -⟩ | ⟨t, ht, -⟩
    · exact hb
    · simp [hfree] at ht
  refine ⟨h.tickCount, h.nextPid, h.mainTask, h.initTask, fun q t ht => ?_⟩
  rw [withTask_task] at ht
  split_ifs at ht with hq
  · rw [Option.some.injEq] at ht
    exact Or.inl ⟨hq, ht ▸ hnew, ht ▸ rfl⟩
  · rcases h.task q t ht with ⟨hq', -⟩ | hold
    · exact absurd hq' hq
    · exact Or.inr hold

theorem withInit (h : Grown awake pcb pid init s s') :
    Grown awake pcb pid pcb s { s' with initTask := pcb } :=
  ⟨h.tickCount, h.nextPid, h.mainTask, rfl, h.task⟩

theorem startInit (h : s.startInit pcb stack = some s') (hfree : s.task pcb = none) :
    Grown awake pcb 1 pcb s s' := by
  simp only [Scheduler.startInit, Option.bind_eq_bind, Option.bind_eq_some_iff,
    Option.some.injEq] at h
  obtain ⟨s₁, h₁, s₂, h₂, rfl⟩ := h
  exact (setInit (addTask h₁) hfree h₂).withInit

theorem respawnInitTask (h : s.respawnInitTask pcb stack = some s') (hfree : s.task pcb = none) :
    Grown awake pcb 1 pcb s s' := by
  simp only [Scheduler.respawnInitTask, Option.bind_eq_bind, Option.bind_eq_some_iff,
    Option.some.injEq] at h
  obtain ⟨s₁, h₁, s₂, h₂, s₃, h₃, s₄, h₄, rfl⟩ := h
  have h₂' : Grown awake pcb 1 s.initTask s s₂ := setInit (addTask h₁) hfree h₂
  have hq₄ : Quiet awake s₃ s₄ := Quiet.setLink h₄ fun _ => ⟨rfl, rfl, rfl, rfl⟩
  exact ((h₂'.trans (.unlinkChild h₃)).trans hq₄).withInit

end Grown

theorem Quiet.taskKillCurrent (h : s.taskKillCurrent = some s')
    (hexit : s.taskExit (-1) = some s' → Quiet awake s s') : Quiet awake s s' := by
  simp only [Scheduler.taskKillCurrent, Option.bind_eq_bind, Option.bind_eq_some_iff] at h
  obtain ⟨cur, -, h⟩ := h
  split_ifs at h
  · cases h
    exact .of_task rfl rfl rfl rfl rfl
  · exact hexit h

/-- What all operations but the timer have in common. -/
structure Settled (awake : Pcb → Prop) (s s' : Scheduler) : Prop where
  tickCount : s'.tickCount = s.tickCount
  nextPid : s.nextPid ≤ s'.nextPid
  task : ∀ q t', s'.task q = some t' → t'.birth = s.nextPid ∨
    ∃ t, s.task q = some t ∧ t'.birth = t.birth ∧ (awake q ∨ t.Rests t')

theorem Quiet.settled (h : Quiet awake s s') : Settled awake s s' := by
  refine ⟨h.tickCount, h.nextPid.ge, fun q t' ht' => ?_⟩
  obtain ⟨t, ht, hb, -, hr⟩ := h.task q t' ht'
  exact Or.inr ⟨t, ht, hb, hr⟩

theorem Grown.settled {pid : Nat} {init : Pcb} (h : Grown awake pcb pid init s s') : Settled awake s s' := by
  refine ⟨h.tickCount, by rw [h.nextPid]; exact Nat.le_succ _, fun q t' ht' => ?_⟩
  rcases h.task q t' ht' with ⟨-, hb, -⟩ | ⟨t, ht, hb, -, hr⟩
  · exact Or.inl hb
  · exact Or.inr ⟨t, ht, hb, hr⟩

theorem Settled.skipPid (s : Scheduler) : Settled awake s { s with nextPid := s.nextPid + 1 } :=
  ⟨rfl, Nat.le_succ _, fun _ t ht => Or.inr ⟨t, ht, rfl, Or.inr (.of_eq rfl rfl)⟩⟩

theorem Settled.taskCreate {memory : NewTask} (h : s.taskCreate memory = some s') :
    Settled awake s s' := by
  cases memory with
  | noMemory =>
    cases h
    exact (Quiet.refl _).settled
  | noSpace =>
    cases h
    exact .skipPid s
  | ok pcb stack => exact (Grown.addTask h).settled

theorem Settled.taskFork {memory : NewTask} (h : s.taskFork memory = some s') :
    Settled awake s s' := by
  cases memory with
  | noMemory =>
    cases h
    exact (Quiet.refl _).settled
  | noSpace =>
    cases h
    exact .skipPid s
  | ok pcb stack =>
    simp only [Scheduler.taskFork, Option.bind_eq_bind, Option.bind_eq_some_iff] at h
    obtain ⟨cur, -, h⟩ := h
    exact (Grown.addTask h).settled

/-- One round of the reaper. -/
theorem Settled.reap {respawn : Option (Pcb × Nat)} (h : s.reap respawn = some s')
    (hfresh : ∀ pcb stack, respawn = some (pcb, stack) → s.task pcb = none) :
    Settled awake s s' := by
  simp only [Scheduler.reap, Option.bind_eq_bind, Option.bind_eq_some_iff] at h
  obtain ⟨dead, -, t, -, h⟩ := h
  have hq : Quiet awake s { s with deadTasksHead := t.reaperNext, reaped := some dead } :=
    .of_task rfl rfl rfl rfl rfl
  split_ifs at h
  · cases respawn with
    | none =>
      cases h
      apply Quiet.settled
      exact .of_task rfl rfl rfl rfl rfl
    | some memory =>
      simp only [Option.bind_eq_some_iff] at h
      obtain ⟨s₁, h₁, h₂⟩ := h
      have hg : Grown awake memory.1 1 memory.1 { s with
          deadTasksHead := t.reaperNext, reaped := some dead } s₁ :=
        .respawnInitTask h₁ (hfresh memory.1 memory.2 rfl)
      have hg' := (hg.trans (.release h₂)).settled
      exact ⟨hg'.tickCount, hg'.nextPid, hg'.task⟩
  · exact (hq.trans (.release h)).settled

end Scheduler
end EnclaveOS
